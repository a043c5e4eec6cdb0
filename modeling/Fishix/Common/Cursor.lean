import Mathlib

/-!
# A position in a list that changes

A reader hands out a list from its head on, a part at a time, and remembers the position it came
to. In between, elements are put in front and taken out. `Scanned` relates the position to what
was handed out, for the elements that stay throughout.

* `Scanned.cons`, `Scanned.erase`: when a change keeps it.
* `Scanned.advance`: the next part.
* `Scanned.complete`: everything that stayed was handed out once.
-/

namespace Fishix

variable {α : Type} {l through returned : List α} {x y : α} {k j : ℕ}

/-! ## Before the position -/

/-- An element put in front moves the last one before the position behind it. -/
theorem mem_take_cons (hne : x ≠ y) (hlast : 0 < k → l[k - 1]? ≠ some x) :
    x ∈ (y :: l).take k ↔ x ∈ l.take k := by
  cases k with
  | zero => simp
  | succ k =>
    have hk : l[k]? ≠ some x := hlast (Nat.succ_pos k)
    rw [List.take_succ_cons, List.take_add_one, List.mem_cons, List.mem_append, Option.mem_toList]
    simp [hne, hk]

variable [DecidableEq α]

/-- An element taken out before the position moves the one at the position before it. -/
theorem mem_take_erase (hne : x ≠ y) (hnext : y ∈ l.take k → l[k]? ≠ some x) :
    x ∈ (l.erase y).take k ↔ x ∈ l.take k := by
  by_cases hy : y ∈ l.take k
  · have hlen : ((l.take k).erase y).length + 1 = (l.take k).length := by
      rw [List.length_erase_of_mem hy]
      have := List.length_pos_of_mem hy
      omega
    have hsplit : l.erase y = (l.take k).erase y ++ l.drop k := by
      rw [← List.erase_append_left _ hy, List.take_append_drop]
    rw [hsplit, List.take_append, List.mem_append]
    have htake : ((l.take k).erase y).take k = (l.take k).erase y := by
      refine List.take_of_length_le ?_
      rw [List.length_take] at hlen
      omega
    rw [htake, List.mem_erase_of_ne hne]
    constructor
    · rintro (hx | hx)
      · exact hx
      · -- one element is taken from behind the position
        rw [List.length_take] at hlen
        by_cases hk : k ≤ l.length
        · have hone : k - ((l.take k).erase y).length = 1 := by omega
          rw [hone, List.take_one, List.head?_drop] at hx
          exact absurd (by simpa using hx) (hnext hy)
        · rw [List.drop_eq_nil_of_le (by omega)] at hx
          simp at hx
    · exact .inl
  · by_cases hmem : y ∈ l
    · have hsplit : l.erase y = l.take k ++ (l.drop k).erase y := by
        rw [← List.erase_append_right _ hy, List.take_append_drop]
      have hlen : (l.take k).length = k := by
        rw [List.length_take, Nat.min_eq_left]
        by_contra hk
        exact hy (by rwa [List.take_of_length_le (by omega)])
      rw [hsplit, List.take_append_of_le_length (Nat.le_of_eq hlen.symm), List.take_take,
        Nat.min_self]
    · rw [List.erase_of_not_mem hmem]

/-! ## What was handed out -/

/-- Of the elements that stay, those before the position `k` were handed out, once each. -/
structure Scanned (l : List α) (k : ℕ) (through returned : List α) : Prop where
  distinct : l.Nodup
  listed : ∀ x ∈ through, x ∈ l
  before : ∀ x ∈ through, x ∈ returned ↔ x ∈ l.take k
  once : ∀ x ∈ through, returned.count x ≤ 1

namespace Scanned

theorem start (h : l.Nodup) (hthrough : ∀ x ∈ through, x ∈ l) : Scanned l 0 through [] :=
  ⟨h, hthrough, by simp, by simp⟩

section

variable (h : Scanned l k through returned)

include h

/-- Some of the elements go. -/
theorem mono {through' : List α} (hsub : ∀ x ∈ through', x ∈ through) :
    Scanned l k through' returned :=
  ⟨h.distinct, fun x hx => h.listed x (hsub x hx), fun x hx => h.before x (hsub x hx),
    fun x hx => h.once x (hsub x hx)⟩

theorem cons (hy : y ∉ l) (hlast : 0 < k → ∀ x ∈ through, l[k - 1]? ≠ some x) :
    Scanned (y :: l) k through returned := by
  refine ⟨List.nodup_cons.mpr ⟨hy, h.distinct⟩, ?_, ?_, h.once⟩
  · exact fun x hx => List.mem_cons_of_mem _ (h.listed x hx)
  · intro x hx
    have hne : x ≠ y := by
      rintro rfl
      exact hy (h.listed x hx)
    rw [mem_take_cons hne fun hk => hlast hk x hx]
    exact h.before x hx

theorem erase (hy : y ∉ through) (hnext : y ∈ l.take k → ∀ x ∈ through, l[k]? ≠ some x) :
    Scanned (l.erase y) k through returned := by
  have hne : ∀ x ∈ through, x ≠ y := by
    rintro x hx rfl
    exact hy hx
  refine ⟨h.distinct.erase y, ?_, ?_, h.once⟩
  · exact fun x hx => (List.mem_erase_of_ne (hne x hx)).mpr (h.listed x hx)
  · intro x hx
    rw [mem_take_erase (hne x hx) fun hmem => hnext hmem x hx]
    exact h.before x hx

/-- The part from `k` to `j` is handed out, but for elements that do not count. -/
theorem advance {p : α → Bool} (hp : ∀ x ∈ through, p x) (hj : k ≤ j ∨ l.length ≤ j) :
    Scanned l j through (returned ++ ((l.take j).drop k).filter p) := by
  have hnodup : ((l.take j).drop k).Nodup :=
    (h.distinct.sublist (List.take_sublist _ _)).sublist (List.drop_sublist _ _)
  have hsplit : ∀ x, x ∈ l.take j ↔ x ∈ l.take k ∨ x ∈ (l.take j).drop k := by
    intro x
    by_cases hkj : k ≤ j
    · have htake : (l.take j).take k = l.take k := by rw [List.take_take, Nat.min_eq_left hkj]
      rw [← htake, ← List.mem_append, List.take_append_drop]
    · have hlen : l.length ≤ j := hj.resolve_left hkj
      rw [List.take_of_length_le hlen, List.take_of_length_le (by omega),
        List.drop_eq_nil_of_le (by omega)]
      simp
  have hdisjoint : ∀ x, x ∈ l.take k → x ∉ (l.take j).drop k := by
    intro x hx hdrop
    have hmem : x ∈ l.drop k := by
      rw [List.drop_take] at hdrop
      exact List.mem_of_mem_take hdrop
    exact (List.disjoint_take_drop h.distinct (Nat.le_refl k)) hx hmem
  refine ⟨h.distinct, h.listed, ?_, ?_⟩
  · intro x hx
    rw [List.mem_append, h.before x hx, List.mem_filter, hsplit, hp x hx]
    simp
  · intro x hx
    rw [List.count_append]
    by_cases hk : x ∈ l.take k
    · have hzero : (((l.take j).drop k).filter p).count x = 0 :=
        List.count_eq_zero_of_not_mem fun hmem => hdisjoint x hk (List.mem_of_mem_filter hmem)
      have := h.once x hx
      omega
    · have hzero : returned.count x = 0 :=
        List.count_eq_zero_of_not_mem fun hmem => hk ((h.before x hx).mp hmem)
      have := List.nodup_iff_count_le_one.mp (hnodup.filter p) x
      omega

/-- Once nothing that stayed is behind the position, everything that stayed was handed out once. -/
theorem complete (hall : ∀ x ∈ through, x ∈ l.take k) : ∀ x ∈ through, returned.count x = 1 := by
  intro x hx
  have hpos := List.count_pos_iff.mpr ((h.before x hx).mpr (hall x hx))
  have := h.once x hx
  omega

end

end Scanned

end Fishix
