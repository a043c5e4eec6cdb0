import Mathlib.Data.Set.Card
import Mathlib.Logic.Function.Basic
import Mathlib.Tactic

/-!
# Reference counts

Objects that are referred to from anywhere, a count beside each and the number of times its
destructor has run. `RefCounted` says that the count of a live object is the number of its
references, that there is one, and that nothing refers to an object that is gone; a program keeps
it if every change of a reference is one of the rules.

* `RefCounted.share`, `RefCounted.fresh`, `RefCounted.release`, `RefCounted.stillborn`: the rules.
* `RefCounted.gone_iff`: an object is gone exactly if nothing refers to it.
* `Joined`: references of two kinds.
-/

namespace Fishix

open Function (update update_self update_of_ne)

variable {ι κ δ : Type*}

/-- `refs d` are the references to `d`, `born` the objects that have been made and `gone` some of
    those that are gone. -/
structure RefCounted (refs : δ → Set ι) (count : δ → ℤ) (closed : δ → ℕ) (born : δ → Prop)
    (gone : Set δ) : Prop where
  counted : ∀ d, born d → closed d = 0 →
    (refs d).Finite ∧ (refs d).Nonempty ∧ count d = (refs d).ncard
  released : ∀ d, closed d ≠ 0 → closed d = 1 ∧ refs d = ∅
  unborn : ∀ d, ¬born d → closed d = 0 ∧ refs d = ∅
  stays : ∀ d ∈ gone, closed d = 1

namespace RefCounted

variable {refs refs' : δ → Set ι} {count count' : δ → ℤ} {closed closed' : δ → ℕ}
  {born born' : δ → Prop} {gone : Set δ} {d : δ} {x : ι}

section

variable (h : RefCounted refs count closed born gone)

include h

theorem congr (hrefs : ∀ d, refs' d = refs d) : RefCounted refs' count closed born gone := by
  rw [show refs' = refs from funext hrefs]
  exact h

/-- What is referred to has been made and is not gone. -/
theorem live (hd : (refs d).Nonempty) : born d ∧ closed d = 0 := by
  constructor
  · by_contra hborn
    rw [(h.unborn d hborn).2] at hd
    exact Set.not_nonempty_empty hd
  · by_contra hclosed
    rw [(h.released d hclosed).2] at hd
    exact Set.not_nonempty_empty hd

theorem finite (d : δ) : (refs d).Finite := by
  by_cases hd : (refs d).Nonempty
  · obtain ⟨hborn, hclosed⟩ := h.live hd
    exact (h.counted d hborn hclosed).1
  · rw [Set.not_nonempty_iff_eq_empty.mp hd]
    exact Set.finite_empty

theorem closed_le_one (d : δ) : closed d ≤ 1 := by
  by_cases hclosed : closed d = 0
  · omega
  · exact (h.released d hclosed).1.le

/-- An object is gone exactly if nothing refers to it. -/
theorem gone_iff (hd : born d) : closed d = 1 ↔ refs d = ∅ := by
  constructor
  · intro hclosed
    exact (h.released d (by omega)).2
  · intro hempty
    by_contra hclosed
    have hle := h.closed_le_one d
    obtain ⟨-, hne, -⟩ := h.counted d hd (by omega)
    rw [hempty] at hne
    exact Set.not_nonempty_empty hne

end

variable [DecidableEq δ]

section

variable (h : RefCounted refs count closed born gone)

include h

/-- One more reference to an object that has one. -/
theorem share (hd : (refs d).Nonempty) (hx : x ∉ refs d) (hself : refs' d = insert x (refs d))
    (hother : ∀ e, e ≠ d → refs' e = refs e) :
    RefCounted refs' (update count d (count d + 1)) closed born gone := by
  obtain ⟨hborn, hclosed⟩ := h.live hd
  obtain ⟨hfin, -, hcount⟩ := h.counted d hborn hclosed
  refine ⟨?_, ?_, ?_, h.stays⟩
  · intro e he hce
    by_cases hed : e = d
    · subst hed
      rw [hself, update_self, Set.ncard_insert_of_notMem hx hfin, hcount]
      exact ⟨hfin.insert x, Set.insert_nonempty x _, by push_cast; rfl⟩
    · rw [hother e hed, update_of_ne hed]
      exact h.counted e he hce
  · intro e hce
    rw [hother e (fun hed => hce (hed ▸ hclosed))]
    exact h.released e hce
  · intro e he
    rw [hother e (fun hed => he (hed ▸ hborn))]
    exact h.unborn e he

/-- A new object with its first reference. -/
theorem fresh (hd : ¬born d) (hborn : ∀ e, born' e ↔ born e ∨ e = d) (hself : refs' d = {x})
    (hother : ∀ e, e ≠ d → refs' e = refs e) :
    RefCounted refs' (update count d 1) closed born' gone := by
  have hclosed := (h.unborn d hd).1
  refine ⟨?_, ?_, ?_, h.stays⟩
  · intro e he hce
    by_cases hed : e = d
    · subst hed
      rw [hself, update_self, Set.ncard_singleton]
      exact ⟨Set.finite_singleton x, Set.singleton_nonempty x, rfl⟩
    · rw [hother e hed, update_of_ne hed]
      exact h.counted e (((hborn e).mp he).resolve_right hed) hce
  · intro e hce
    rw [hother e (fun hed => hce (hed ▸ hclosed))]
    exact h.released e hce
  · intro e he
    have he' : ¬born e ∧ e ≠ d := by simpa [hborn] using he
    rw [hother e he'.2]
    exact h.unborn e he'.1

/-- A reference is dropped; at zero the object goes. -/
theorem release (hx : x ∈ refs d) (hself : refs' d = refs d \ {x})
    (hother : ∀ e, e ≠ d → refs' e = refs e) :
    RefCounted refs' (update count d (count d - 1))
      (if count d - 1 = 0 then update closed d (closed d + 1) else closed) born gone := by
  obtain ⟨hborn, hclosed⟩ := h.live ⟨x, hx⟩
  obtain ⟨hfin, -, hcount⟩ := h.counted d hborn hclosed
  have hcard : (count d - 1 : ℤ) = (refs' d).ncard := by
    have := Set.ncard_sdiff_singleton_add_one hx hfin
    rw [hself, hcount]
    omega
  have hfin' : (refs' d).Finite := by
    rw [hself]
    exact hfin.subset Set.sdiff_subset
  have hzero : count d - 1 = 0 ↔ refs' d = ∅ := by
    rw [hcard, Nat.cast_eq_zero, Set.ncard_eq_zero hfin']
  generalize hgone : (if count d - 1 = 0 then update closed d (closed d + 1)
    else closed) = closed'
  have hlast : refs' d = ∅ → closed' d = 1 := by
    intro hempty
    rw [← hgone, if_pos (hzero.mpr hempty), update_self, hclosed]
  have hkept : refs' d ≠ ∅ → closed' d = 0 := by
    intro hne
    rw [← hgone, if_neg (fun h0 => hne (hzero.mp h0)), hclosed]
  have hrest : ∀ e, e ≠ d → closed' e = closed e := by
    intro e hed
    rw [← hgone]
    split_ifs
    · exact update_of_ne hed _ _
    · rfl
  refine ⟨?_, ?_, ?_, ?_⟩
  · intro e he hce
    by_cases hed : e = d
    · subst hed
      have hne : refs' e ≠ ∅ := by
        intro hempty
        rw [hlast hempty] at hce
        omega
      rw [update_self]
      exact ⟨hfin', Set.nonempty_iff_ne_empty.mpr hne, hcard⟩
    · rw [hrest e hed] at hce
      rw [hother e hed, update_of_ne hed]
      exact h.counted e he hce
  · intro e hce
    by_cases hed : e = d
    · subst hed
      have hempty : refs' e = ∅ := by
        by_contra hne
        exact hce (hkept hne)
      exact ⟨hlast hempty, hempty⟩
    · rw [hrest e hed] at hce ⊢
      rw [hother e hed]
      exact h.released e hce
  · intro e he
    have hed : e ≠ d := fun hed => he (hed ▸ hborn)
    rw [hrest e hed, hother e hed]
    exact h.unborn e he
  · intro e he
    have hgone' := h.stays e he
    rw [hrest e (fun hed => by rw [hed] at hgone'; omega)]
    exact hgone'

/-- A new object that goes before anything refers to it. -/
theorem stillborn (hd : ¬born d) (hborn : ∀ e, born' e ↔ born e ∨ e = d)
    (hcount : ∀ e, e ≠ d → count' e = count e) :
    RefCounted refs count' (update closed d 1) born' gone := by
  obtain ⟨hclosed, hempty⟩ := h.unborn d hd
  refine ⟨?_, ?_, ?_, ?_⟩
  · intro e he hce
    have hed : e ≠ d := by
      intro hed
      rw [hed, update_self] at hce
      omega
    rw [update_of_ne hed] at hce
    rw [hcount e hed]
    exact h.counted e (((hborn e).mp he).resolve_right hed) hce
  · intro e hce
    by_cases hed : e = d
    · rw [hed, update_self]
      exact ⟨rfl, hempty⟩
    · rw [update_of_ne hed] at hce ⊢
      exact h.released e hce
  · intro e he
    have he' : ¬born e ∧ e ≠ d := by simpa [hborn] using he
    rw [update_of_ne he'.2]
    exact h.unborn e he'.1
  · intro e he
    have hgone := h.stays e he
    rw [update_of_ne (fun hed => by rw [hed] at hgone; omega)]
    exact hgone

end

end RefCounted

/-! ## References of two kinds -/

/-- The references of both kinds. -/
def Joined (S : δ → Set ι) (T : δ → Set κ) (d : δ) : Set (ι ⊕ κ) := Sum.inl '' S d ∪ Sum.inr '' T d

section Joined

variable {S S' : δ → Set ι} {T T' : δ → Set κ} {d : δ} {x : ι} {y : κ}

@[simp] theorem inl_mem_joined : Sum.inl x ∈ Joined S T d ↔ x ∈ S d := by simp [Joined]

@[simp] theorem inr_mem_joined : Sum.inr y ∈ Joined S T d ↔ y ∈ T d := by simp [Joined]

theorem joined_congr (hS : S' d = S d) (hT : T' d = T d) : Joined S' T' d = Joined S T d := by
  simp [Joined, hS, hT]

theorem joined_insert_left (h : S' d = insert x (S d)) :
    Joined S' T d = insert (Sum.inl x) (Joined S T d) := by
  simp [Joined, h, Set.image_insert_eq, Set.insert_union]

theorem joined_insert_right (h : T' d = insert y (T d)) :
    Joined S T' d = insert (Sum.inr y) (Joined S T d) := by
  simp [Joined, h, Set.image_insert_eq, Set.union_insert]

theorem joined_diff_left (h : S' d = S d \ {x}) :
    Joined S' T d = Joined S T d \ {Sum.inl x} := by
  ext z
  cases z <;> simp [h]

theorem joined_diff_right (h : T' d = T d \ {y}) :
    Joined S T' d = Joined S T d \ {Sum.inr y} := by
  ext z
  cases z <;> simp [h]

/-- The number of references is the sum. -/
theorem ncard_joined (h : (Joined S T d).Finite) :
    (Joined S T d).ncard = (S d).ncard + (T d).ncard := by
  have hS : (Sum.inl '' S d : Set (ι ⊕ κ)).Finite := h.subset Set.subset_union_left
  have hT : (Sum.inr '' T d : Set (ι ⊕ κ)).Finite := h.subset Set.subset_union_right
  have hdisj : Disjoint (Sum.inl '' S d : Set (ι ⊕ κ)) (Sum.inr '' T d) := by
    rw [Set.disjoint_left]
    rintro _ ⟨x, -, rfl⟩ ⟨y, -, hy⟩
    simp at hy
  unfold Joined
  rw [Set.ncard_union_eq hdisj hS hT, Set.ncard_image_of_injective _ Sum.inl_injective,
    Set.ncard_image_of_injective _ Sum.inr_injective]

theorem joined_eq_empty : Joined S T d = ∅ ↔ S d = ∅ ∧ T d = ∅ := by
  simp [Joined]

end Joined

end Fishix
