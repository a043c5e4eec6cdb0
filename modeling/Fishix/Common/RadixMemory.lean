import Fishix.Common.Radix

/-!
# Radix tables in a memory of pages

A memory `w` gives every page one word per index, and `next` reads the page that a word
names, if it names one. The pages reached from a root through `depth` levels of such words
are the tables of a radix tree; the words of a page at level `0` are entries, whatever
`next` makes of them.

* `walk`: the page at level `0` on a path; `tree` is the tree of `Radix` that the memory
  holds, and `lookup_tree` says that both find the same entry.
* `Unshared`: the pages of a tree, each at one level and named by one word of one table.
* `Unshared.agrees`: what is written outside the tables above level `0` changes nothing.
* `Unshared.link`: a fresh page below a word that named none.
-/

namespace Fishix

namespace RadixMemory

variable {ρ ι σ : Type} (next : σ → Option ρ)

/-- The page at level `0` on path `p` from table `t` at level `n`. -/
def walk (w : ρ → ι → σ) (p : ℕ → ι) : ℕ → ρ → Option ρ
  | 0, t => some t
  | n + 1, t =>
    match next (w t (p (n + 1))) with
    | none => none
    | some c => walk w p n c

/-- `t` is a table with `n` levels below it, of the tree at `root`. -/
inductive TableAt (root : ρ) (depth : ℕ) (w : ρ → ι → σ) : ℕ → ρ → Prop
  | root : TableAt root depth w depth root
  | child {n : ℕ} {t c : ρ} {i : ι} (table : TableAt root depth w (n + 1) t)
      (names : next (w t i) = some c) : TableAt root depth w n c

/-- The word at index `i` of the table `t` names `c`. -/
def Parent (root : ρ) (depth : ℕ) (w : ρ → ι → σ) (t : ρ) (i : ι) (c : ρ) : Prop :=
  (∃ n, TableAt next root depth w (n + 1) t) ∧ next (w t i) = some c

/-- The tables of the tree are `pages`, and no two words name the same one. -/
structure Unshared (root : ρ) (depth : ℕ) (w : ρ → ι → σ) (pages : Set ρ) : Prop where
  mem : ∀ {n t}, TableAt next root depth w n t → t ∈ pages
  tableAt : ∀ {t}, t ∈ pages → ∃ n, TableAt next root depth w n t
  level : ∀ {n k t}, TableAt next root depth w n t → TableAt next root depth w k t → n = k
  parent : ∀ {t i t' i' c}, Parent next root depth w t i c → Parent next root depth w t' i' c →
    t = t' ∧ i = i'

/-- The tree that the memory holds below `t`; `flags` is what a slot keeps of a word that
    names a page. -/
def tree (flags : σ → σ) (w : ρ → ι → σ) : (n : ℕ) → ρ → Radix ρ ι σ n
  | 0, t => (t, w t)
  | n + 1, t =>
    (t, fun i =>
      match next (w t i) with
      | none => .absent (w t i)
      | some c => .next (flags (w t i)) (tree flags w n c))

/-- The entry that the walk finds is the entry of the tree. -/
theorem lookup_tree (flags : σ → σ) (w : ρ → ι → σ) (p : ℕ → ι) (n : ℕ) (t : ρ) :
    Radix.lookup (tree next flags w n t) p = (walk next w p n t).map fun q => w q (p 0) := by
  induction n generalizing t with
  | zero => rfl
  | succ n ih =>
    simp only [tree, Radix.lookup, walk]
    cases next (w t (p (n + 1))) with
    | none => rfl
    | some c => exact ih c

variable {next} {root : ρ} {depth : ℕ} {w w' : ρ → ι → σ} {pages : Set ρ}

/-! ## Walks -/

theorem TableAt.le {n : ℕ} {t : ρ} (h : TableAt next root depth w n t) : n ≤ depth := by
  induction h with
  | root => exact le_rfl
  | child _ _ ih => omega

theorem TableAt.of_walk {p : ℕ → ι} {n : ℕ} {t q : ρ} (ht : TableAt next root depth w n t)
    (h : walk next w p n t = some q) : TableAt next root depth w 0 q := by
  induction n generalizing t with
  | zero =>
    cases h
    exact ht
  | succ n ih =>
    unfold walk at h
    cases hc : next (w t (p (n + 1))) with
    | none => simp [hc] at h
    | some c =>
      rw [hc] at h
      exact ih (.child ht hc) h

section

variable (hu : Unshared next root depth w pages)

include hu

/-- Two walks that end in the same page took the same way. -/
theorem Unshared.walk_inj {p p' : ℕ → ι} {n : ℕ} {t t' q : ρ} (ht : TableAt next root depth w n t)
    (ht' : TableAt next root depth w n t') (h : walk next w p n t = some q)
    (h' : walk next w p' n t' = some q) : t = t' ∧ ∀ k, 1 ≤ k → k ≤ n → p k = p' k := by
  induction n generalizing t t' with
  | zero =>
    cases h
    cases h'
    exact ⟨rfl, fun k h1 h2 => by omega⟩
  | succ n ih =>
    unfold walk at h h'
    cases hc : next (w t (p (n + 1))) with
    | none => simp [hc] at h
    | some c =>
      cases hc' : next (w t' (p' (n + 1))) with
      | none => simp [hc'] at h'
      | some c' =>
        rw [hc] at h
        rw [hc'] at h'
        obtain ⟨rfl, hbelow⟩ := ih (.child ht hc) (.child ht' hc') h h'
        obtain ⟨rfl, hi⟩ := hu.parent ⟨⟨n, ht⟩, hc⟩ ⟨⟨n, ht'⟩, hc'⟩
        refine ⟨rfl, fun k h1 hk => ?_⟩
        by_cases hlast : k = n + 1
        · exact hlast ▸ hi
        · exact hbelow k h1 (by omega)

/-- Every table but the root is named by exactly one word, the root by none. -/
theorem Unshared.existsUnique_parent {t : ρ} (ht : t ∈ pages) (hroot : t ≠ root) :
    ∃! e : ρ × ι, Parent next root depth w e.1 e.2 t := by
  obtain ⟨n, hn⟩ := hu.tableAt ht
  cases hn with
  | root => exact absurd rfl hroot
  | @child n s _ i hs hc =>
    refine ⟨(s, i), ⟨⟨n, hs⟩, hc⟩, fun e he => ?_⟩
    obtain ⟨h1, h2⟩ := hu.parent he ⟨⟨n, hs⟩, hc⟩
    exact Prod.ext h1 h2

theorem Unshared.root_parent (t : ρ) (i : ι) : ¬ Parent next root depth w t i root := by
  rintro ⟨⟨n, ht⟩, hc⟩
  have hlevel := hu.level (.child ht hc) .root
  have hle := ht.le
  omega

end

/-! ## Writes outside the tables above level `0` -/

/-- `w'` has the tables of `w` above level `0`. -/
def Agrees (next : σ → Option ρ) (root : ρ) (depth : ℕ) (w w' : ρ → ι → σ) : Prop :=
  ∀ n t, TableAt next root depth w (n + 1) t → w' t = w t

section

variable (h : Agrees next root depth w w')

include h

theorem Agrees.tableAt_of {n : ℕ} {t : ρ} (ht : TableAt next root depth w' n t) :
    TableAt next root depth w n t := by
  induction ht with
  | root => exact .root
  | child _ hc ih =>
    rw [h _ _ ih] at hc
    exact .child ih hc

theorem Agrees.tableAt_iff (n : ℕ) (t : ρ) :
    TableAt next root depth w' n t ↔ TableAt next root depth w n t := by
  refine ⟨h.tableAt_of, fun ht => ?_⟩
  induction ht with
  | root => exact .root
  | child hs hc ih =>
    rw [← h _ _ hs] at hc
    exact .child ih hc

theorem Agrees.walk_eq {p : ℕ → ι} {n : ℕ} {t : ρ} (ht : TableAt next root depth w n t) :
    walk next w' p n t = walk next w p n t := by
  induction n generalizing t with
  | zero => rfl
  | succ n ih =>
    unfold walk
    rw [h n t ht]
    cases hc : next (w t (p (n + 1))) with
    | none => rfl
    | some c => exact ih (.child ht hc)

theorem Agrees.parent_of {t c : ρ} {i : ι} (hp : Parent next root depth w' t i c) :
    Parent next root depth w t i c := by
  obtain ⟨⟨n, ht⟩, hc⟩ := hp
  have hold := h.tableAt_of ht
  rw [h n t hold] at hc
  exact ⟨⟨n, hold⟩, hc⟩

end

theorem Unshared.agrees (hu : Unshared next root depth w pages)
    (h : Agrees next root depth w w') : Unshared next root depth w' pages where
  mem ht := hu.mem (h.tableAt_of ht)
  tableAt ht := by
    obtain ⟨n, hn⟩ := hu.tableAt ht
    exact ⟨n, (h.tableAt_iff n _).mpr hn⟩
  level hn hk := hu.level (h.tableAt_of hn) (h.tableAt_of hk)
  parent hp hp' := hu.parent (h.parent_of hp) (h.parent_of hp')

/-- A write to an entry leaves the tables above level `0`. -/
theorem Unshared.agrees_entry (hu : Unshared next root depth w pages) {q : ρ}
    (hq : TableAt next root depth w 0 q) (hother : ∀ t, t ≠ q → w' t = w t) :
    Agrees next root depth w w' := by
  intro n t ht
  refine hother t fun heq => ?_
  subst heq
  exact absurd (hu.level ht hq) (by omega)

/-! ## A new table -/

/-- `w'` is `w` with the fresh page `f` below the word at index `i` of `t`. -/
structure Linked (next : σ → Option ρ) (w w' : ρ → ι → σ) (t : ρ) (i : ι) (f : ρ) : Prop where
  missing : next (w t i) = none
  entry : next (w' t i) = some f
  fresh : ∀ j, next (w' f j) = none
  other : ∀ q j, q ≠ f → (q, j) ≠ (t, i) → w' q j = w q j

section Linked

variable {t f : ρ} {i : ι} {n : ℕ}

theorem Linked.names (h : Linked next w w' t i f) {q c : ρ} {j : ι} (hq : q ≠ f)
    (hc : next (w q j) = some c) : next (w' q j) = some c := by
  rw [h.other q j hq, hc]
  rintro ⟨rfl, rfl⟩
  rw [h.missing] at hc
  cases hc

variable (hu : Unshared next root depth w pages) (ht : TableAt next root depth w (n + 1) t)
  (hf : f ∉ pages) (h : Linked next w w' t i f)
include hu hf h

theorem Linked.tableAt_old {k : ℕ} {q : ρ} (hq : TableAt next root depth w k q) :
    TableAt next root depth w' k q := by
  induction hq with
  | root => exact .root
  | child hs hc ih =>
    refine .child ih (h.names ?_ hc)
    rintro rfl
    exact hf (hu.mem hs)

include ht

theorem Linked.tableAt_new : TableAt next root depth w' n f :=
  .child (h.tableAt_old hu hf ht) h.entry

theorem Linked.tableAt_iff (k : ℕ) (q : ρ) :
    TableAt next root depth w' k q ↔ TableAt next root depth w k q ∨ k = n ∧ q = f := by
  constructor
  · intro hq
    induction hq with
    | root => exact Or.inl .root
    | @child k s c j hs hc ih =>
      rcases ih with hold | ⟨-, rfl⟩
      · by_cases hsj : (s, j) = (t, i)
        · cases hsj
          have hlevel := hu.level hold ht
          rw [h.entry] at hc
          exact Or.inr ⟨by omega, (Option.some.inj hc).symm⟩
        · rw [h.other s j (fun hsf => hf (hsf ▸ hu.mem hold)) hsj] at hc
          exact Or.inl (.child hold hc)
      · rw [h.fresh j] at hc
        cases hc
  · rintro (hold | ⟨rfl, rfl⟩)
    · exact h.tableAt_old hu hf hold
    · exact h.tableAt_new hu ht hf

/-- What a word names after the new table: the new table, or what it named before. -/
theorem Linked.parent_cases {s c : ρ} {j : ι} (hp : Parent next root depth w' s j c) :
    (s, j) = (t, i) ∧ c = f ∨ Parent next root depth w s j c := by
  obtain ⟨⟨k, hs⟩, hc⟩ := hp
  rcases (h.tableAt_iff hu ht hf _ _).mp hs with hold | ⟨-, rfl⟩
  · by_cases hsj : (s, j) = (t, i)
    · cases hsj
      rw [h.entry] at hc
      exact Or.inl ⟨rfl, (Option.some.inj hc).symm⟩
    · rw [h.other s j (fun hsf => hf (hsf ▸ hu.mem hold)) hsj] at hc
      exact Or.inr ⟨⟨k, hold⟩, hc⟩
  · rw [h.fresh j] at hc
    cases hc

theorem Unshared.link : Unshared next root depth w' (insert f pages) where
  mem hq := by
    rcases (h.tableAt_iff hu ht hf _ _).mp hq with hold | ⟨-, rfl⟩
    · exact Or.inr (hu.mem hold)
    · exact Or.inl rfl
  tableAt hq := by
    rcases hq with rfl | hq
    · exact ⟨n, h.tableAt_new hu ht hf⟩
    · obtain ⟨k, hk⟩ := hu.tableAt hq
      exact ⟨k, h.tableAt_old hu hf hk⟩
  level hk hl := by
    rcases (h.tableAt_iff hu ht hf _ _).mp hk with hold | ⟨rfl, rfl⟩
    · rcases (h.tableAt_iff hu ht hf _ _).mp hl with hold' | ⟨rfl, rfl⟩
      · exact hu.level hold hold'
      · exact absurd (hu.mem hold) hf
    · rcases (h.tableAt_iff hu ht hf _ _).mp hl with hold' | ⟨rfl, -⟩
      · exact absurd (hu.mem hold') hf
      · rfl
  parent hp hp' := by
    have hmem : ∀ {s j c}, Parent next root depth w s j c → c ∈ pages :=
      fun hp => hu.mem (.child hp.1.choose_spec hp.2)
    rcases h.parent_cases hu ht hf hp with ⟨hsj, rfl⟩ | hold
    · rcases h.parent_cases hu ht hf hp' with ⟨hsj', -⟩ | hold'
      · exact Prod.mk.inj (hsj.trans hsj'.symm)
      · exact absurd (hmem hold') hf
    · rcases h.parent_cases hu ht hf hp' with ⟨-, rfl⟩ | hold'
      · exact absurd (hmem hold) hf
      · exact hu.parent hold hold'

/-- A walk ends where it ended, or it ended nowhere and ends now in the new table. -/
theorem Linked.walk_cases (p : ℕ → ι) {k : ℕ} {q : ρ} (hq : TableAt next root depth w k q) :
    walk next w' p k q = walk next w p k q ∨
      walk next w p k q = none ∧ walk next w' p k q = some f := by
  induction k generalizing q with
  | zero => exact Or.inl rfl
  | succ k ih =>
    have hqf : q ≠ f := fun hqf => hf (hqf ▸ hu.mem hq)
    unfold walk
    by_cases hqi : (q, p (k + 1)) = (t, i)
    · cases hqi
      rw [h.missing, h.entry]
      -- the new table is the last one of the path, or names nothing
      cases k with
      | zero => exact Or.inr ⟨rfl, rfl⟩
      | succ k =>
        left
        unfold walk
        dsimp only
        rw [h.fresh]
    · rw [h.other q _ hqf hqi]
      cases hc : next (w q (p (k + 1))) with
      | none => exact Or.inl rfl
      | some c => exact ih (.child hq hc)

end Linked

end RadixMemory

end Fishix
