import Mathlib

/-!
# Circular doubly linked lists

`klib::ListHead` (klib/list.hpp:18-56): nodes that carry their own links, chained in a circle
through a head. `Links α` gives every node its two pointers; `addBefore` and `remove` assign
them in the order of the source and stop where the source follows a null pointer.

`IsRing l h xs` says that the nodes `xs` hang on the head `h` in this order.

* `IsRing.addBefore`: a node that is not in the ring is put at its end.
* `IsRing.remove`: a node is taken out and the rest stays in order.
* `IsRing.congr`: a ring is a matter of the links of its own nodes.
-/

namespace Fishix

/-- `klib::ListHead` (klib/list.hpp:18-19). -/
structure ListHead (α : Type) where
  next : Option α := none
  prev : Option α := none
  deriving DecidableEq

/-- The links of all nodes. -/
abbrev Links (α : Type) := α → ListHead α

namespace Links

variable {α : Type} [DecidableEq α]

def setNext (l : Links α) (a : α) (next : Option α) : Links α :=
  Function.update l a { l a with next }

def setPrev (l : Links α) (a : α) (prev : Option α) : Links α :=
  Function.update l a { l a with prev }

/-- `ListHead::init` (klib/list.hpp:22-25). -/
def init (l : Links α) (a : α) : Links α := Function.update l a ⟨some a, some a⟩

/-- `ListHead::add_before` (klib/list.hpp:36-41). -/
def addBefore (l : Links α) (head entry : α) : Option (Links α) :=
  (l head).prev.map fun p =>
    (((l.setNext p (some entry)).setPrev entry (some p)).setNext entry (some head)).setPrev head
      (some entry)

/-- `ListHead::remove` (klib/list.hpp:44-49). -/
def remove (l : Links α) (entry : α) : Option (Links α) :=
  match (l entry).next, (l entry).prev with
  | some n, some p =>
    some ((((l.setPrev n (some p)).setNext p (some n)).setNext entry none).setPrev entry none)
  | _, _ => none

section

variable (l : Links α) (a b : α) (x : Option α)

include l a b x

theorem setNext_next : ((l.setNext a x) b).next = if b = a then x else (l b).next := by
  unfold setNext
  by_cases h : b = a
  · subst h
    simp
  · simp [h]

theorem setNext_prev : ((l.setNext a x) b).prev = (l b).prev := by
  unfold setNext
  by_cases h : b = a
  · subst h
    simp
  · simp [h]

theorem setPrev_prev : ((l.setPrev a x) b).prev = if b = a then x else (l b).prev := by
  unfold setPrev
  by_cases h : b = a
  · subst h
    simp
  · simp [h]

theorem setPrev_next : ((l.setPrev a x) b).next = (l b).next := by
  unfold setPrev
  by_cases h : b = a
  · subst h
    simp
  · simp [h]

end

end Links

section Ring

variable {α : Type} {l l' : Links α} {h e a b : α} {xs ys zs : List α}

/-- `b` follows `a`. -/
def Linked (l : Links α) (a b : α) : Prop := (l a).next = some b ∧ (l b).prev = some a

/-- The nodes `xs` hang in a circle on the head `h`. -/
structure IsRing (l : Links α) (h : α) (xs : List α) : Prop where
  chain : List.IsChain (Linked l) (h :: (xs ++ [h]))
  nodup : (h :: xs).Nodup

theorem IsRing.congr (hr : IsRing l h xs) (hl : ∀ a ∈ h :: xs, l' a = l a) : IsRing l' h xs := by
  refine ⟨?_, hr.nodup⟩
  have hmem : ∀ a ∈ h :: (xs ++ [h]), a ∈ h :: xs := by
    intro a ha
    simp only [List.mem_cons, List.mem_append, List.not_mem_nil, or_false] at ha ⊢
    tauto
  apply hr.chain.imp_of_mem_imp
  intro a b ha hb hab
  unfold Linked
  rw [hl a (hmem a ha), hl b (hmem b hb)]
  exact hab

theorem isRing_nil (hl : l h = ⟨some h, some h⟩) : IsRing l h [] := by
  refine ⟨?_, by simp⟩
  simp [Linked, hl]

/-- What follows the head. -/
theorem IsRing.head_next (hr : IsRing l h xs) : (l h).next = some ((xs ++ [h]).head (by simp)) := by
  cases xs with
  | nil => exact (List.rel_of_isChain_cons_cons hr.chain).1
  | cons x xs => exact (List.rel_of_isChain_cons_cons hr.chain).1

/-- What follows a node. -/
theorem IsRing.next (hr : IsRing l h (xs ++ e :: ys)) :
    (l e).next = some ((ys ++ [h]).head (by simp)) := by
  have hc := hr.chain
  rw [List.append_assoc, List.cons_append, ← List.cons_append] at hc
  have := hc.right_of_append
  cases ys with
  | nil => exact (List.rel_of_isChain_cons_cons this).1
  | cons y ys => exact (List.rel_of_isChain_cons_cons this).1

/-- A node of a ring is linked to the one that follows it. -/
theorem IsRing.linked (hr : IsRing l h xs) (he : e ∈ xs) : ∃ b, Linked l e b := by
  obtain ⟨pre, post, rfl⟩ := List.append_of_mem he
  have hc := hr.chain
  rw [List.append_assoc, List.cons_append, ← List.cons_append] at hc
  have := hc.right_of_append
  cases post with
  | nil => exact ⟨h, List.rel_of_isChain_cons_cons this⟩
  | cons y post => exact ⟨y, List.rel_of_isChain_cons_cons this⟩

theorem IsRing.last (hr : IsRing l h xs) :
    ∃ zs p, h :: xs = zs ++ [p] ∧ Linked l p h ∧ List.IsChain (Linked l) (h :: xs) := by
  have hne : h :: xs ≠ [] := by simp
  refine ⟨(h :: xs).dropLast, (h :: xs).getLast hne, (List.dropLast_append_getLast hne).symm, ?_, ?_⟩
  · have hc := hr.chain
    rw [← List.cons_append, ← List.dropLast_append_getLast hne, List.append_assoc] at hc
    exact List.rel_of_isChain_cons_cons hc.right_of_append
  · have hc := hr.chain
    rw [← List.cons_append] at hc
    exact hc.left_of_append

variable [DecidableEq α]

/-- A new node goes to the end of the ring; nodes of other rings keep their links. -/
theorem IsRing.addBefore (hr : IsRing l h xs) (he : e ∉ h :: xs) :
    ∃ l', l.addBefore h e = some l' ∧ IsRing l' h (xs ++ [e]) ∧
      ∀ a, a ∉ h :: xs → a ≠ e → l' a = l a := by
  obtain ⟨zs, p, hsplit, hlast, hchain⟩ := hr.last
  have hp : p ∈ h :: xs := by
    rw [hsplit]
    simp
  have hpe : p ≠ e := fun hpe => he (hpe ▸ hp)
  have hhe : h ≠ e := fun hhe => he (hhe ▸ List.mem_cons_self)
  have hadd : l.addBefore h e = some
      ((((l.setNext p (some e)).setPrev e (some p)).setNext e (some h)).setPrev h (some e)) := by
    unfold Links.addBefore
    rw [hlast.2]
    rfl
  refine ⟨_, hadd, ⟨?_, ?_⟩, ?_⟩
  · -- the old ring up to its last node, then the new node, then the head
    have hform : h :: (xs ++ [e] ++ [h]) = zs ++ p :: e :: [h] := by
      rw [List.append_assoc, ← List.cons_append, hsplit]
      simp
    rw [hform, List.isChain_append_cons_cons, ← hsplit]
    refine ⟨?_, ?_, ?_⟩
    · apply hchain.imp_of_mem_tail_imp
      intro a b ha hb hab
      have hbh : b ≠ h := by
        rintro rfl
        exact (List.nodup_cons.mp hr.nodup).1 hb
      have hbe : b ≠ e := fun h => he (h ▸ List.mem_cons_of_mem _ hb)
      have hae : a ≠ e := fun h => he (h ▸ ha)
      have hap : a ≠ p := by
        rintro rfl
        have := hab.1.symm.trans hlast.1
        exact hbh (Option.some.inj this)
      unfold Linked
      simp only [Links.setPrev_next, Links.setNext_next, Links.setPrev_prev, Links.setNext_prev,
        hae, hap, hbh, hbe, if_false]
      exact hab
    · unfold Linked
      simp [Links.setPrev_next, Links.setNext_next, Links.setPrev_prev, Links.setNext_prev, hpe,
        hhe.symm]
    · rw [List.isChain_pair]
      unfold Linked
      simp [Links.setPrev_next, Links.setNext_next, Links.setPrev_prev]
  · rw [← List.cons_append, List.nodup_append]
    refine ⟨hr.nodup, by simp, ?_⟩
    intro a ha b hb
    obtain rfl : b = e := by simpa using hb
    rintro rfl
    exact he ha
  · intro a ha hae
    have hah : a ≠ h := fun h => ha (h ▸ List.mem_cons_self)
    have hap : a ≠ p := fun h => ha (h ▸ hp)
    simp [Links.setPrev, Links.setNext, Function.update_of_ne, hah, hae, hap]

theorem IsRing.remove (hr : IsRing l h (xs ++ e :: ys)) :
    ∃ l', l.remove e = some l' ∧ IsRing l' h (xs ++ ys) ∧ l' e = ⟨none, none⟩ ∧
      ∀ a, a ∉ h :: (xs ++ e :: ys) → l' a = l a := by
  have hnd := hr.nodup
  obtain ⟨zs, p, hsplit⟩ : ∃ zs p, h :: xs = zs ++ [p] :=
    ⟨(h :: xs).dropLast, (h :: xs).getLast (by simp), (List.dropLast_append_getLast (by simp)).symm⟩
  obtain ⟨n, ws, hrest⟩ : ∃ n ws, ys ++ [h] = n :: ws := by
    cases ys with
    | nil => exact ⟨h, [], rfl⟩
    | cons y ys => exact ⟨y, ys ++ [h], rfl⟩
  have hform : h :: (xs ++ e :: ys ++ [h]) = zs ++ p :: e :: n :: ws := by
    rw [List.append_assoc, List.cons_append, hrest, ← List.cons_append, hsplit]
    simp
  have hc := hr.chain
  rw [hform, List.isChain_append_cons_cons, List.isChain_cons_cons] at hc
  obtain ⟨hleft, hpe, hen, hright⟩ := hc
  have hnotin : e ∉ h :: xs ∧ e ∉ ys := by
    rw [← List.cons_append, List.nodup_append] at hnd
    exact ⟨fun hm => hnd.2.2 e hm e List.mem_cons_self rfl, (List.nodup_cons.mp hnd.2.1).1⟩
  have hdisj : ∀ a ∈ h :: xs, a ∉ ys := by
    rw [← List.cons_append, List.nodup_append] at hnd
    intro a ha hb
    exact hnd.2.2 a ha a (List.mem_cons_of_mem _ hb) rfl
  have hp : p ∈ h :: xs := by
    rw [hsplit]
    simp
  have hpne : p ≠ e := fun h => hnotin.1 (h ▸ hp)
  have hnmem : n ∈ ys ++ [h] := by
    rw [hrest]
    exact List.mem_cons_self
  have hnne : n ≠ e := by
    rintro rfl
    rcases List.mem_append.mp hnmem with hm | hm
    · exact hnotin.2 hm
    · obtain rfl : n = h := by simpa using hm
      exact hnotin.1 List.mem_cons_self
  have hwsnd : (n :: ws).Nodup := by
    rw [← hrest, List.nodup_append]
    rw [← List.cons_append, List.nodup_append] at hnd
    refine ⟨(List.nodup_cons.mp hnd.2.1).2, by simp, ?_⟩
    intro a ha b hb
    obtain rfl : b = h := by simpa using hb
    rintro rfl
    exact hdisj a List.mem_cons_self ha
  have hremove : l.remove e = some
      ((((l.setPrev n (some p)).setNext p (some n)).setNext e none).setPrev e none) := by
    unfold Links.remove
    rw [hen.1, hpe.2]
  refine ⟨_, hremove, ⟨?_, ?_⟩, ?_, ?_⟩
  · have hnew : h :: (xs ++ ys ++ [h]) = zs ++ p :: n :: ws := by
      rw [List.append_assoc, hrest, ← List.cons_append, hsplit]
      simp
    rw [hnew, List.isChain_append_cons_cons]
    refine ⟨?_, ?_, ?_⟩
    · rw [← hsplit] at hleft ⊢
      apply hleft.imp_of_mem_tail_imp
      intro a b ha hb hab
      have hae : a ≠ e := fun h => hnotin.1 (h ▸ ha)
      have hbe : b ≠ e := fun h => hnotin.1 (h ▸ List.mem_cons_of_mem _ hb)
      have hap : a ≠ p := by
        rintro rfl
        exact hbe (Option.some.inj (hab.1.symm.trans hpe.1))
      have hbn : b ≠ n := by
        rintro rfl
        rcases List.mem_append.mp hnmem with hm | hm
        · exact hdisj b (List.mem_cons_of_mem _ hb) hm
        · obtain rfl : b = h := by simpa using hm
          exact (List.nodup_cons.mp hnd).1 (List.mem_append_left _ hb)
      unfold Linked
      simp only [Links.setPrev_next, Links.setNext_next, Links.setPrev_prev, Links.setNext_prev,
        hae, hap, hbe, hbn, if_false]
      exact hab
    · unfold Linked
      simp [Links.setPrev_next, Links.setNext_next, Links.setPrev_prev, Links.setNext_prev, hpne,
        hnne]
    · apply hright.imp_of_mem_tail_imp
      intro a b ha hb hab
      have hbn : b ≠ n := by
        rintro rfl
        exact (List.nodup_cons.mp hwsnd).1 hb
      have hmem : ∀ c ∈ n :: ws, c ≠ e := by
        intro c hc
        rintro rfl
        rw [← hrest] at hc
        rcases List.mem_append.mp hc with hm | hm
        · exact hnotin.2 hm
        · obtain rfl : c = h := by simpa using hm
          exact hnotin.1 List.mem_cons_self
      have hae := hmem a ha
      have hbe := hmem b (List.mem_cons_of_mem _ hb)
      have hap : a ≠ p := by
        rintro rfl
        exact hbe (Option.some.inj (hab.1.symm.trans hpe.1))
      unfold Linked
      simp only [Links.setPrev_next, Links.setNext_next, Links.setPrev_prev, Links.setNext_prev,
        hae, hap, hbe, hbn, if_false]
      exact hab
  · rw [← List.cons_append, List.nodup_append] at hnd ⊢
    refine ⟨hnd.1, (List.nodup_cons.mp hnd.2.1).2, ?_⟩
    intro a ha b hb
    exact hnd.2.2 a ha b (List.mem_cons_of_mem _ hb)
  · simp [Links.setPrev, Links.setNext]
  · intro a ha
    have hae : a ≠ e := fun h => ha (h ▸ by simp)
    have hap : a ≠ p := by
      rintro rfl
      rcases List.mem_cons.mp hp with rfl | hp
      · exact ha List.mem_cons_self
      · exact ha (List.mem_cons_of_mem _ (List.mem_append_left _ hp))
    have han : a ≠ n := by
      rintro rfl
      rcases List.mem_append.mp hnmem with hm | hm
      · exact ha (List.mem_cons_of_mem _ (List.mem_append_right _ (List.mem_cons_of_mem _ hm)))
      · obtain rfl : a = h := by simpa using hm
        exact ha List.mem_cons_self
    simp [Links.setPrev, Links.setNext, Function.update_of_ne, hae, hap, han]

end Ring

end Fishix
