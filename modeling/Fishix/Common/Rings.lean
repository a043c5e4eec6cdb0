import Fishix.Common.Ring

/-!
# Families of circular lists

Objects that carry a `klib::ListHead` so that they can hang in one of many lists: every list has a
head, every element one link. `Rings l on members` says that the heads that are `on` carry the
elements `members` gives them, that no element hangs in two lists, and that an element in no list
has null links.

* `Rings.append`, `Rings.erase`, `Rings.init`: the three edits; `Rings.move`: two of them in a row.
* `walkRing_eq`: what a walk over a list finds.
-/

namespace Fishix

open Function (update update_self update_of_ne)

/-- A list head, or the link of an element. -/
inductive ListNode (η ε : Type)
  | head (h : η)
  | link (e : ε)
  deriving DecidableEq

variable {η ε : Type}

/-- The links `l` chain the lists `members`. -/
structure Rings (l : Links (ListNode η ε)) (on : η → Prop) (members : η → List ε) : Prop where
  ring : ∀ h, on h → IsRing l (.head h) ((members h).map .link)
  off : ∀ h, ¬on h → members h = []
  unique : ∀ h h' e, e ∈ members h → e ∈ members h' → h = h'
  unlinked : ∀ e, (∀ h, e ∉ members h) → l (.link e) = ⟨none, none⟩

section Rings

variable {l : Links (ListNode η ε)} {on : η → Prop} {members : η → List ε} {h h' : η} {e : ε}

theorem Rings.on_of_mem (hr : Rings l on members) (he : e ∈ members h) : on h := by
  by_contra hoff
  rw [hr.off h hoff] at he
  exact List.not_mem_nil he

theorem Rings.nodup (hr : Rings l on members) (h : η) : (members h).Nodup := by
  by_cases hon : on h
  · have hnd := (List.nodup_cons.mp (hr.ring h hon).nodup).2
    exact hnd.of_map
  · rw [hr.off h hon]
    exact List.nodup_nil

/-- The nodes of another list. -/
theorem Rings.notMem_node (hr : Rings l on members) (hne : h' ≠ h) {a : ListNode η ε}
    (ha : a ∈ ListNode.head h' :: (members h').map .link) :
    a ∉ ListNode.head h :: (members h).map .link := by
  intro hm
  rcases List.mem_cons.mp ha with rfl | ha
  · rcases List.mem_cons.mp hm with heq | hm
    · exact hne (ListNode.head.inj heq)
    · simp at hm
  · obtain ⟨e, he, rfl⟩ := List.mem_map.mp ha
    rcases List.mem_cons.mp hm with heq | hm
    · cases heq
    · have he' : e ∈ members h := by simpa using hm
      exact hne (hr.unique h' h e he he')

/-- The node with which the list of the elements `es` goes on. -/
def firstNode (h : η) : List ε → ListNode η ε
  | [] => .head h
  | e :: _ => .link e

theorem head_map_link (es : List ε) :
    (es.map ListNode.link ++ [ListNode.head h]).head (by simp) = firstNode h es := by
  cases es with
  | nil => rfl
  | cons e es => rfl

/-- What follows an element. -/
theorem next_link {xs ys : List ε} (hr : IsRing l (.head h) ((xs ++ e :: ys).map .link)) :
    (l (.link e)).next = some (firstNode h ys) := by
  rw [List.map_append, List.map_cons] at hr
  rw [hr.next, head_map_link]

theorem next_head {xs : List ε} (hr : IsRing l (.head h) (xs.map .link)) :
    (l (.head h)).next = some (firstNode h xs) := by
  rw [hr.head_next, head_map_link]

theorem Rings.empty (hhead : ∀ h, on h → l (.head h) = ⟨some (.head h), some (.head h)⟩)
    (hlink : ∀ e, l (.link e) = ⟨none, none⟩) : Rings l on fun _ => [] where
  ring := fun h hon => isRing_nil (hhead h hon)
  off := fun _ _ => rfl
  unique := fun _ _ _ he => absurd he List.not_mem_nil
  unlinked := fun e _ => hlink e

variable [DecidableEq η] [DecidableEq ε]

section

variable (hr : Rings l on members)

include hr

/-- An element that hangs nowhere is put at the end of a list. -/
theorem Rings.append (hon : on h) (he : ∀ h', e ∉ members h') :
    ∃ l', l.addBefore (.head h) (.link e) = some l' ∧
      Rings l' on (update members h (members h ++ [e])) := by
  have hnot : ListNode.link e ∉ ListNode.head h :: (members h).map .link := by
    simpa using he h
  obtain ⟨l', hl', hring, hframe⟩ := (hr.ring h hon).addBefore hnot
  refine ⟨l', hl', ⟨?_, ?_, ?_, ?_⟩⟩
  · intro h' hon'
    by_cases hne : h' = h
    · subst hne
      simpa using hring
    · rw [update_of_ne hne]
      apply (hr.ring h' hon').congr
      intro a ha
      refine hframe a (hr.notMem_node hne ha) ?_
      rintro rfl
      have hmem : e ∈ members h' := by simpa using ha
      exact he h' hmem
  · intro h' hoff
    have hne : h' ≠ h := by
      rintro rfl
      exact hoff hon
    rw [update_of_ne hne]
    exact hr.off h' hoff
  · intro h1 h2 a h1a h2a
    by_cases ha : a = e
    · have hall : ∀ h', a ∈ update members h (members h ++ [e]) h' → h' = h := by
        intro h' hm
        by_contra hne
        rw [update_of_ne hne, ha] at hm
        exact he h' hm
      rw [hall h1 h1a, hall h2 h2a]
    · have hold : ∀ h', a ∈ update members h (members h ++ [e]) h' → a ∈ members h' := by
        intro h' hm
        by_cases hne : h' = h
        · subst hne
          simpa [ha] using hm
        · rwa [update_of_ne hne] at hm
      exact hr.unique h1 h2 a (hold h1 h1a) (hold h2 h2a)
  · intro a ha
    have hae : a ≠ e := by
      rintro rfl
      exact ha h (by simp)
    have hout : ∀ h', a ∉ members h' := by
      intro h' hm
      apply ha h'
      by_cases hne : h' = h
      · subst hne
        simp [hm]
      · rwa [update_of_ne hne]
    rw [hframe (.link a) (by simpa using hout h) (by simpa using hae)]
    exact hr.unlinked a hout

/-- An element is taken out of its list. -/
theorem Rings.erase (he : e ∈ members h) :
    ∃ l', l.remove (.link e) = some l' ∧
      Rings l' on (update members h ((members h).erase e)) := by
  obtain ⟨xs, ys, hsplit⟩ := List.append_of_mem he
  have hnd := hr.nodup h
  have hexs : e ∉ xs := by
    rw [hsplit, List.nodup_append] at hnd
    intro hm
    exact hnd.2.2 e hm e List.mem_cons_self rfl
  have herase : (members h).erase e = xs ++ ys := by
    rw [hsplit, List.erase_append_right _ hexs, List.erase_cons_head]
  have hring := hr.ring h (hr.on_of_mem he)
  rw [hsplit, List.map_append, List.map_cons] at hring
  obtain ⟨l', hl', hring', hnull, hframe⟩ := hring.remove
  refine ⟨l', hl', ⟨?_, ?_, ?_, ?_⟩⟩
  · intro h' hon'
    by_cases hne : h' = h
    · subst hne
      rw [update_self, herase, List.map_append]
      exact hring'
    · rw [update_of_ne hne]
      apply (hr.ring h' hon').congr
      intro a ha
      apply hframe
      have hout := hr.notMem_node hne ha
      rwa [hsplit, List.map_append, List.map_cons] at hout
  · intro h' hoff
    have hne : h' ≠ h := by
      rintro rfl
      exact hoff (hr.on_of_mem he)
    rw [update_of_ne hne]
    exact hr.off h' hoff
  · have hold : ∀ h' a, a ∈ update members h ((members h).erase e) h' → a ∈ members h' := by
      intro h' a hm
      by_cases hne : h' = h
      · subst hne
        rw [update_self] at hm
        exact List.mem_of_mem_erase hm
      · rwa [update_of_ne hne] at hm
    intro h1 h2 a h1a h2a
    exact hr.unique h1 h2 a (hold h1 a h1a) (hold h2 a h2a)
  · intro a ha
    by_cases hae : a = e
    · subst hae
      exact hnull
    · have hout : ∀ h', a ∉ members h' := by
        intro h' hm
        apply ha h'
        by_cases hne : h' = h
        · subst hne
          rw [update_self]
          exact (List.mem_erase_of_ne hae).mpr hm
        · rwa [update_of_ne hne]
      rw [hframe (.link a)]
      · exact hr.unlinked a hout
      · have hnot := hout h
        rw [hsplit] at hnot
        simpa using hnot

/-- Who is left when an element has been taken out. -/
theorem Rings.mem_erased (he : e ∈ members h) (h1 : η) (a : ε) :
    a ∈ update members h ((members h).erase e) h1 ↔ a ≠ e ∧ a ∈ members h1 := by
  by_cases hh : h1 = h
  · subst hh
    rw [update_self]
    exact (hr.nodup h1).mem_erase_iff
  · rw [update_of_ne hh]
    constructor
    · intro ha
      refine ⟨?_, ha⟩
      rintro rfl
      exact hh (hr.unique h1 h a ha he)
    · exact fun ha => ha.2

/-- A head becomes an empty list. -/
theorem Rings.init (hoff : ¬on h) :
    Rings (l.init (.head h)) (fun h' => h' = h ∨ on h') members := by
  have hframe : ∀ a, a ≠ ListNode.head h → l.init (.head h) a = l a := by
    intro a ha
    unfold Links.init
    rw [update_of_ne ha]
  refine ⟨?_, ?_, hr.unique, ?_⟩
  · intro h' hon'
    by_cases hne : h' = h
    · subst hne
      rw [hr.off h' hoff]
      apply isRing_nil
      simp [Links.init]
    · apply (hr.ring h' (hon'.resolve_left hne)).congr
      intro a ha
      apply hframe
      rintro rfl
      rcases List.mem_cons.mp ha with heq | ha
      · exact hne (ListNode.head.inj heq).symm
      · simp at ha
  · intro h' hoff'
    exact hr.off h' fun hon => hoff' (.inr hon)
  · intro e he
    rw [hframe _ (by simp)]
    exact hr.unlinked e he

/-- An element goes to the end of another list, or of its own. -/
theorem Rings.move (he : e ∈ members h') (hon : on h) :
    ∃ l1 l2 members', l.remove (.link e) = some l1 ∧ l1.addBefore (.head h) (.link e) = some l2 ∧
      Rings l2 on members' ∧
      (∀ h1 a, a ∈ members' h1 ↔ a ≠ e ∧ a ∈ members h1 ∨ a = e ∧ h1 = h) ∧
      (h' ≠ h → members' h' = (members h').erase e) := by
  obtain ⟨l1, hl1, hr1⟩ := hr.erase he
  have hout := hr.mem_erased he
  obtain ⟨l2, hl2, hr2⟩ := hr1.append hon fun h1 hm => ((hout h1 e).mp hm).1 rfl
  refine ⟨l1, l2, _, hl1, hl2, hr2, ?_, ?_⟩
  · intro h1 a
    by_cases hh : h1 = h
    · subst hh
      rw [update_self, List.mem_append, hout, List.mem_singleton]
      simp
    · rw [update_of_ne hh, hout]
      simp [hh]
  · intro hne
    rw [update_of_ne hne, update_self]

end

/-! ## Walking over a list -/

/-- `LIST_FOR_EACH` (klib/list.hpp:10): the elements from `pos` up to the head `h`, or nothing if a
    null pointer or a foreign head is met or the list is longer than `fuel`. -/
def walkRing (l : Links (ListNode η ε)) (h : η) : ℕ → ListNode η ε → Option (List ε)
  | 0, _ => none
  | _ + 1, .head h' => if h' = h then some [] else none
  | fuel + 1, .link e => do
    let next ← (l (.link e)).next
    let rest ← walkRing l h fuel next
    return e :: rest

omit [DecidableEq ε] in
theorem walkRing_suffix {ys : List ε} :
    ∀ {xs : List ε} {fuel : ℕ}, IsRing l (.head h) ((xs ++ ys).map .link) → ys.length < fuel →
      walkRing l h fuel (firstNode h ys) = some ys := by
  induction ys with
  | nil =>
    intro xs fuel _ hfuel
    obtain ⟨n, rfl⟩ := Nat.exists_eq_succ_of_ne_zero (Nat.ne_of_gt hfuel)
    simp [walkRing, firstNode]
  | cons y ys ih =>
    intro xs fuel hr hfuel
    obtain ⟨n, rfl⟩ := Nat.exists_eq_succ_of_ne_zero (Nat.ne_of_gt (Nat.zero_lt_of_lt hfuel))
    have hrest : IsRing l (.head h) (((xs ++ [y]) ++ ys).map .link) := by
      simpa using hr
    have hwalk := @ih (xs ++ [y]) n hrest (by simpa using hfuel)
    show ((l (.link y)).next.bind fun next =>
      (walkRing l h n next).bind fun rest => some (y :: rest)) = some (y :: ys)
    rw [next_link hr, Option.bind_some, hwalk, Option.bind_some]

omit [DecidableEq ε] in
/-- A walk from the head finds the elements of the list. -/
theorem walkRing_eq (hr : Rings l on members) (hon : on h) {fuel : ℕ}
    (hfuel : (members h).length < fuel) :
    ((l (.head h)).next.bind (walkRing l h fuel)) = some (members h) := by
  have hring := hr.ring h hon
  rw [next_head hring, Option.bind_some]
  exact @walkRing_suffix _ _ l h _ (members h) [] fuel (by simpa using hring) hfuel

end Rings

end Fishix
