import Fishix.Common.Outcome

/-!
# Radix tables

A radix table of depth `n` is a page holding one slot per index; at depth `0` the
slots are entries (words), above that each slot is either absent (some word that
does not name a table) or names a table one level below. Every table carries the
name of the page it is stored in. An entry is addressed by one index per level.

* `lookup`, `write`: reading and overwriting an entry on an existing path.
* `ensure`: creating the missing tables of a path, taking pages from an allocator.
* `copySlot`, `copy`: rebuilding a tree in fresh pages, keeping only the entries a
  predicate rejects.
* `Allocs`: the pages an allocator handed out between two states; `ensure_spec` and
  `copy_spec` say which pages the new tables occupy and what is found in them.
-/

namespace Fishix

/-- One slot of a table above the last level. -/
inductive Slot (σ α : Type) where
  | absent (raw : σ)
  | next (flags : σ) (child : α)

/-- A table with `n` levels below it. -/
def Radix (ρ ι σ : Type) : ℕ → Type
  | 0 => ρ × (ι → σ)
  | n + 1 => ρ × (ι → Slot σ (Radix ρ ι σ n))

namespace Radix

variable {ρ ι σ S ε : Type} [DecidableEq ι]

/-- The page a table is stored in. -/
def page : {n : ℕ} → Radix ρ ι σ n → ρ
  | 0, t => t.1
  | _ + 1, t => t.1

/-- A table all of whose slots hold the word `zero`. -/
def empty (zero : σ) : (n : ℕ) → ρ → Radix ρ ι σ n
  | 0, pg => (pg, fun _ => zero)
  | _ + 1, pg => (pg, fun _ => .absent zero)

/-- Replaces one slot. -/
def setSlot {n : ℕ} (t : Radix ρ ι σ (n + 1)) (i : ι) (s : Slot σ (Radix ρ ι σ n)) :
    Radix ρ ι σ (n + 1) :=
  (t.1, fun j => if j = i then s else t.2 j)

/-- The entry at path `p` (`p k` is the index at level `k`), if every table on the
    path exists. -/
def lookup : {n : ℕ} → Radix ρ ι σ n → (ℕ → ι) → Option σ
  | 0, t, p => some (t.2 (p 0))
  | n + 1, t, p =>
    match t.2 (p (n + 1)) with
    | .absent _ => none
    | .next _ c => lookup c p

/-- Overwrites the entry at path `p`, if every table on the path exists. -/
def write : {n : ℕ} → Radix ρ ι σ n → (ℕ → ι) → σ → Radix ρ ι σ n
  | 0, t, p, x => (t.1, fun j => if j = p 0 then x else t.2 j)
  | n + 1, t, p, x =>
    match t.2 (p (n + 1)) with
    | .absent _ => t
    | .next fl c => t.setSlot (p (n + 1)) (.next fl (write c p x))

/-- Creates the missing tables on path `p`, each in a page from `alloc`, zero-filled
    and linked with `flags`. -/
def ensure (alloc : S → Except ε (ρ × S)) (zero flags : σ) :
    {n : ℕ} → Radix ρ ι σ n → (ℕ → ι) → S → Except ε (Radix ρ ι σ n × S)
  | 0, t, _, s => .ok (t, s)
  | n + 1, t, p, s =>
    match t.2 (p (n + 1)) with
    | .next fl c => do
      let (c, s) ← ensure alloc zero flags c p s
      .ok (t.setSlot (p (n + 1)) (.next fl c), s)
    | .absent _ => do
      let (pg, s) ← alloc s
      let (c, s) ← ensure alloc zero flags (empty zero n pg) p s
      .ok (t.setSlot (p (n + 1)) (.next flags c), s)

/-- One iteration of the loop that copies the slots of `t` into `r`: an absent slot is
    copied, a table is copied into a fresh page. -/
def copySlot {n : ℕ} (alloc : S → Except ε (ρ × S))
    (copyChild : Radix ρ ι σ n → ρ → S → Except ε (Radix ρ ι σ n × S))
    (t : Radix ρ ι σ (n + 1)) (rs : Radix ρ ι σ (n + 1) × S) (i : ι) :
    Except ε (Radix ρ ι σ (n + 1) × S) :=
  match t.2 i with
  | .absent raw => .ok (rs.1.setSlot i (.absent raw), rs.2)
  | .next fl c => do
    let (pg, s) ← alloc rs.2
    let (c, s) ← copyChild c pg s
    .ok (rs.1.setSlot i (.next fl c), s)

/-- Copies a tree into fresh pages, the root into `pg`. Entries for which `drop` holds
    become `zero`. -/
def copy (alloc : S → Except ε (ρ × S)) (zero : σ) (drop : σ → Bool) (idxs : List ι) :
    {n : ℕ} → Radix ρ ι σ n → ρ → S → Except ε (Radix ρ ι σ n × S)
  | 0, t, pg, s => .ok ((pg, fun i => if drop (t.2 i) then zero else t.2 i), s)
  | n + 1, t, pg, s =>
    idxs.foldlM (copySlot alloc (copy alloc zero drop idxs) t) (empty zero (n + 1) pg, s)

/-- `g` is the page of a table of the tree. -/
def HasPage : {n : ℕ} → Radix ρ ι σ n → ρ → Prop
  | 0, t, g => t.1 = g
  | _ + 1, t, g => t.1 = g ∨ ∃ i fl c, t.2 i = .next fl c ∧ HasPage c g

/-- The number of tables behind a slot, `below` counting those below a table. -/
def slotTables {n : ℕ} (below : Radix ρ ι σ n → ℕ) : Slot σ (Radix ρ ι σ n) → ℕ
  | .absent _ => 0
  | .next _ c => below c + 1

/-- The number of tables below the root of a tree. -/
def tablesBelow (idxs : List ι) : {n : ℕ} → Radix ρ ι σ n → ℕ
  | 0, _ => 0
  | _ + 1, t => (idxs.map fun i => slotTables (tablesBelow idxs) (t.2 i)).sum

/-! ## Reading and writing -/

omit [DecidableEq ι] in
theorem lookup_empty (zero : σ) (n : ℕ) (pg : ρ) (p : ℕ → ι) :
    lookup (empty zero n pg) p = none ∨ lookup (empty zero n pg) p = some zero := by
  cases n with
  | zero => exact Or.inr rfl
  | succ n => exact Or.inl rfl

@[simp] theorem setSlot_snd {n : ℕ} (t : Radix ρ ι σ (n + 1)) (i j : ι)
    (s : Slot σ (Radix ρ ι σ n)) : (t.setSlot i s).2 j = if j = i then s else t.2 j := rfl

@[simp] theorem setSlot_fst {n : ℕ} (t : Radix ρ ι σ (n + 1)) (i : ι)
    (s : Slot σ (Radix ρ ι σ n)) : (t.setSlot i s).1 = t.1 := rfl

omit [DecidableEq ι] in
/-- Only the indices at the levels of the table matter. -/
theorem lookup_congr : ∀ {n : ℕ} (t : Radix ρ ι σ n) {p q : ℕ → ι}, (∀ k ≤ n, p k = q k) →
    lookup t p = lookup t q
  | 0, t, p, q, h => by simp only [lookup, h 0 le_rfl]
  | n + 1, t, p, q, h => by
    simp only [lookup, h (n + 1) le_rfl]
    cases t.2 (q (n + 1)) with
    | absent raw => rfl
    | next fl c => exact lookup_congr c fun k hk => h k (by omega)

/-- Writing one entry changes what is found on the same path and nothing else. -/
theorem lookup_write : ∀ {n : ℕ} (t : Radix ρ ι σ n) (p q : ℕ → ι) (x : σ),
    lookup (write t p x) q =
      if ∀ k ≤ n, q k = p k then (lookup t q).map (fun _ => x) else lookup t q
  | 0, t, p, q, x => by
    by_cases h : q 0 = p 0
    · simp [lookup, write, h]
    · simp [lookup, write, h]
  | n + 1, t, p, q, x => by
    cases hs : t.2 (p (n + 1)) with
    | absent raw =>
      have hw : write t p x = t := by simp [write, hs]
      rw [hw]
      split_ifs with h
      · have hq : lookup t q = none := by
          simp only [lookup]
          rw [h (n + 1) le_rfl, hs]
        simp [hq]
      · rfl
    | next fl c =>
      have hw : write t p x = t.setSlot (p (n + 1)) (.next fl (write c p x)) := by
        simp only [write, hs]
      rw [hw]
      by_cases hq : q (n + 1) = p (n + 1)
      · have hl : lookup t q = lookup c q := by simp only [lookup, hq, hs]
        have hl' : lookup (t.setSlot (p (n + 1)) (.next fl (write c p x))) q =
            lookup (write c p x) q := by
          simp only [lookup, setSlot_snd, hq, if_true]
        rw [hl, hl', lookup_write c p q x]
        have hiff : (∀ k ≤ n, q k = p k) ↔ ∀ k ≤ n + 1, q k = p k := by
          constructor
          · intro h k hk
            rcases Nat.lt_or_ge n k with hnk | hnk
            · rw [show k = n + 1 by omega, hq]
            · exact h k hnk
          · exact fun h k hk => h k (by omega)
        simp only [hiff]
      · have hne : ¬ ∀ k ≤ n + 1, q k = p k := fun h => hq (h _ le_rfl)
        rw [if_neg hne]
        simp only [lookup, setSlot_snd, if_neg hq]

theorem hasPage_write : ∀ {n : ℕ} (t : Radix ρ ι σ n) (p : ℕ → ι) (x : σ) (g : ρ),
    HasPage (write t p x) g ↔ HasPage t g
  | 0, t, p, x, g => by simp [write, HasPage]
  | n + 1, t, p, x, g => by
    cases hs : t.2 (p (n + 1)) with
    | absent raw => simp [write, hs]
    | next fl c =>
      simp only [write, hs, HasPage, setSlot_snd, setSlot_fst]
      apply or_congr Iff.rfl
      constructor
      · rintro ⟨i, fl', c', hi, hg⟩
        split_ifs at hi with h
        · cases hi
          exact ⟨p (n + 1), fl, c, hs, (hasPage_write c p x g).mp hg⟩
        · exact ⟨i, fl', c', hi, hg⟩
      · rintro ⟨i, fl', c', hi, hg⟩
        by_cases h : i = p (n + 1)
        · subst h
          rw [hs] at hi
          cases hi
          exact ⟨_, fl, _, by rw [if_pos rfl], (hasPage_write c p x g).mpr hg⟩
        · exact ⟨i, fl', c', by rw [if_neg h]; exact hi, hg⟩

/-! ## Allocation -/

/-- `s'` is the state after allocating the pages `fs`, in this order, from `s`. -/
inductive Allocs (alloc : S → Except ε (ρ × S)) : S → List ρ → S → Prop
  | nil (s : S) : Allocs alloc s [] s
  | cons {s s1 s2 : S} {pg : ρ} {fs : List ρ} :
      alloc s = .ok (pg, s1) → Allocs alloc s1 fs s2 → Allocs alloc s (pg :: fs) s2

omit [DecidableEq ι] in
theorem Allocs.append {alloc : S → Except ε (ρ × S)} {s s1 s2 : S} {fs gs : List ρ}
    (h : Allocs alloc s fs s1) (h' : Allocs alloc s1 gs s2) : Allocs alloc s (fs ++ gs) s2 := by
  induction h with
  | nil s => exact h'
  | cons ha _ ih => exact .cons ha (ih h')

omit [DecidableEq ι] in
theorem hasPage_empty (zero : σ) (n : ℕ) (pg g : ρ) :
    HasPage (ι := ι) (empty zero n pg) g ↔ pg = g := by
  cases n with
  | zero => rfl
  | succ n => simp [HasPage, empty]

theorem hasPage_setSlot {n : ℕ} (t : Radix ρ ι σ (n + 1)) (i : ι) (fl : σ)
    (c : Radix ρ ι σ n) (g : ρ) :
    HasPage (t.setSlot i (.next fl c)) g ↔
      HasPage c g ∨ t.1 = g ∨ ∃ j fl' c', j ≠ i ∧ t.2 j = .next fl' c' ∧ HasPage c' g := by
  simp only [HasPage, setSlot_snd, setSlot_fst]
  constructor
  · rintro (h | ⟨j, fl', c', hj, hg⟩)
    · exact Or.inr (Or.inl h)
    · split_ifs at hj with hji
      · cases hj
        exact Or.inl hg
      · exact Or.inr (Or.inr ⟨j, fl', c', hji, hj, hg⟩)
  · rintro (h | h | ⟨j, fl', c', hji, hj, hg⟩)
    · exact Or.inr ⟨i, fl, c, by rw [if_pos rfl], h⟩
    · exact Or.inl h
    · exact Or.inr ⟨j, fl', c', by rw [if_neg hji]; exact hj, hg⟩

/-- Creating the tables of a path: the path exists afterwards, an entry that was found
    before is found unchanged, an entry in a new table is `zero`, and the pages of the
    tree grow by the pages allocated. -/
theorem ensure_spec (alloc : S → Except ε (ρ × S)) (zero flags : σ) :
    ∀ {n : ℕ} (t t' : Radix ρ ι σ n) (p : ℕ → ι) (s s' : S),
      ensure alloc zero flags t p s = .ok (t', s') →
      ∃ fs, Allocs alloc s fs s' ∧ (lookup t' p).isSome ∧
        (∀ q, lookup t' q = lookup t q ∨ lookup t q = none ∧ lookup t' q = some zero) ∧
        ∀ g, HasPage t' g ↔ HasPage t g ∨ g ∈ fs
  | 0, t, t', p, s, s', h => by
    simp only [ensure] at h
    cases h
    exact ⟨[], .nil s, rfl, fun q => Or.inl rfl, fun g => by simp⟩
  | n + 1, t, t', p, s, s', h => by
    unfold ensure at h
    cases hs : t.2 (p (n + 1)) with
    | next fl c =>
      rw [hs] at h
      obtain ⟨⟨c', s1⟩, h1, h⟩ := bind_ok h
      cases h
      obtain ⟨fs, hfs, hp, hq, hg⟩ := ensure_spec alloc zero flags c c' p s s' h1
      refine ⟨fs, hfs, ?_, fun q => ?_, fun g => ?_⟩
      · simpa only [lookup, setSlot_snd, if_true] using hp
      · by_cases hi : q (n + 1) = p (n + 1)
        · simp only [lookup, setSlot_snd, hi, if_true, hs]
          exact hq q
        · simp only [lookup, setSlot_snd, if_neg hi]
          exact Or.inl trivial
      · rw [hasPage_setSlot, hg]
        simp only [HasPage]
        constructor
        · rintro ((h | h) | h | ⟨j, fl', c'', hji, hj, h⟩)
          · exact Or.inl (Or.inr ⟨_, _, _, hs, h⟩)
          · exact Or.inr h
          · exact Or.inl (Or.inl h)
          · exact Or.inl (Or.inr ⟨j, fl', c'', hj, h⟩)
        · rintro ((h | ⟨j, fl', c'', hj, h⟩) | h)
          · exact Or.inr (Or.inl h)
          · by_cases hji : j = p (n + 1)
            · subst hji
              rw [hs] at hj
              cases hj
              exact Or.inl (Or.inl h)
            · exact Or.inr (Or.inr ⟨j, fl', c'', hji, hj, h⟩)
          · exact Or.inl (Or.inr h)
    | absent raw =>
      rw [hs] at h
      obtain ⟨⟨pg, s1⟩, ha, h⟩ := bind_ok h
      obtain ⟨⟨c', s2⟩, h1, h⟩ := bind_ok h
      cases h
      obtain ⟨fs, hfs, hp, hq, hg⟩ := ensure_spec alloc zero flags _ c' p s1 s' h1
      refine ⟨pg :: fs, .cons ha hfs, ?_, fun q => ?_, fun g => ?_⟩
      · simpa only [lookup, setSlot_snd, if_true] using hp
      · by_cases hi : q (n + 1) = p (n + 1)
        · simp only [lookup, setSlot_snd, hi, if_true, hs]
          rcases hq q with h | ⟨-, h⟩
          · rw [h]
            rcases lookup_empty zero n pg q with h0 | h0
            · exact Or.inl h0
            · exact Or.inr ⟨trivial, h0⟩
          · exact Or.inr ⟨trivial, h⟩
        · simp only [lookup, setSlot_snd, if_neg hi]
          exact Or.inl trivial
      · rw [hasPage_setSlot, hg, hasPage_empty]
        simp only [HasPage, List.mem_cons]
        constructor
        · rintro ((h | h) | h | ⟨j, fl', c'', hji, hj, h⟩)
          · exact Or.inr (Or.inl h.symm)
          · exact Or.inr (Or.inr h)
          · exact Or.inl (Or.inl h)
          · exact Or.inl (Or.inr ⟨j, fl', c'', hj, h⟩)
        · rintro ((h | ⟨j, fl', c'', hj, h⟩) | h | h)
          · exact Or.inr (Or.inl h)
          · refine Or.inr (Or.inr ⟨j, fl', c'', ?_, hj, h⟩)
            rintro rfl
            rw [hs] at hj
            cases hj
          · exact Or.inl (Or.inl h.symm)
          · exact Or.inl (Or.inr h)

/-! ## Copying -/

/-- `t'` has the tables of `t`, with the entries for which `drop` holds zeroed. -/
def CopyOf (zero : σ) (drop : σ → Bool) {n : ℕ} (t t' : Radix ρ ι σ n) : Prop :=
  ∀ q, lookup t' q = (lookup t q).map fun e => if drop e then zero else e

/-- A slot of the copy: an absent slot is kept, a table is copied into the pages `fs`. -/
def SlotCopy (zero : σ) (drop : σ → Bool) {n : ℕ} (fs : List ρ) :
    Slot σ (Radix ρ ι σ n) → Slot σ (Radix ρ ι σ n) → Prop
  | .absent raw, s => s = .absent raw
  | .next fl c, s => ∃ c', s = .next fl c' ∧ CopyOf zero drop c c' ∧ ∀ g, HasPage c' g → g ∈ fs

omit [DecidableEq ι] in
theorem SlotCopy.mono {zero : σ} {drop : σ → Bool} {n : ℕ} {fs gs : List ρ}
    {s s' : Slot σ (Radix ρ ι σ n)} (h : SlotCopy zero drop fs s s') (hsub : fs ⊆ gs) :
    SlotCopy zero drop gs s s' := by
  cases s with
  | absent raw => exact h
  | next fl c =>
    obtain ⟨c', h1, h2, h3⟩ := h
    exact ⟨c', h1, h2, fun g hg => hsub (h3 g hg)⟩

/-- A child copied by `copyChild` into page `pg` is a copy in `pg` and newly allocated pages,
    as many as there are tables below the child. -/
def CopiesChild (alloc : S → Except ε (ρ × S)) (zero : σ) (drop : σ → Bool) {n : ℕ}
    (below : Radix ρ ι σ n → ℕ)
    (copyChild : Radix ρ ι σ n → ρ → S → Except ε (Radix ρ ι σ n × S)) : Prop :=
  ∀ c c' pg s s', copyChild c pg s = .ok (c', s') →
    ∃ fs, Allocs alloc s fs s' ∧ fs.length = below c ∧ CopyOf zero drop c c' ∧
      ∀ g, HasPage c' g → g ∈ pg :: fs

/-- `copyChild` fails only when the allocator does, before it has given out all the pages
    the child needs. -/
def FailsShort (alloc : S → Except ε (ρ × S)) {n : ℕ} (below : Radix ρ ι σ n → ℕ)
    (copyChild : Radix ρ ι σ n → ρ → S → Except ε (Radix ρ ι σ n × S)) : Prop :=
  ∀ c pg s e, copyChild c pg s = .error e →
    ∃ fs s1, Allocs alloc s fs s1 ∧ alloc s1 = .error e ∧ fs.length < below c

/-- The loop that copies the slots `idxs`: these are copied into the pages it allocates, and
    the others stay. -/
theorem copySlots_spec {alloc : S → Except ε (ρ × S)} {zero : σ} {drop : σ → Bool} {n : ℕ}
    {below : Radix ρ ι σ n → ℕ}
    {copyChild : Radix ρ ι σ n → ρ → S → Except ε (Radix ρ ι σ n × S)}
    (hchild : CopiesChild alloc zero drop below copyChild) (t : Radix ρ ι σ (n + 1)) :
    ∀ (idxs : List ι), idxs.Nodup → ∀ (r r' : Radix ρ ι σ (n + 1)) (s s' : S),
      idxs.foldlM (copySlot alloc copyChild t) (r, s) = .ok (r', s') →
      ∃ fs, Allocs alloc s fs s' ∧
        fs.length = (idxs.map fun i => slotTables below (t.2 i)).sum ∧ r'.1 = r.1 ∧
        (∀ i ∉ idxs, r'.2 i = r.2 i) ∧ ∀ i ∈ idxs, SlotCopy zero drop fs (t.2 i) (r'.2 i)
  | [], _, r, r', s, s', h => by
    rw [List.foldlM_nil] at h
    cases h
    exact ⟨[], .nil s, rfl, rfl, fun _ _ => rfl, by simp⟩
  | i :: idxs, hnd, r, r', s, s', h => by
    rw [List.nodup_cons] at hnd
    rw [List.foldlM_cons] at h
    obtain ⟨⟨r1, s1⟩, h1, h⟩ := bind_ok h
    obtain ⟨gs, hgs, hlen, hpg, hout, hin⟩ := copySlots_spec hchild t idxs hnd.2 r1 r' s1 s' h
    unfold copySlot at h1
    cases hs : t.2 i with
    | absent raw =>
      rw [hs] at h1
      cases h1
      refine ⟨gs, hgs, by simp [hs, slotTables, hlen], hpg, ?_, ?_⟩
      · intro j hj
        rw [List.mem_cons, not_or] at hj
        rw [hout j hj.2, setSlot_snd, if_neg hj.1]
      · intro j hj
        rcases List.mem_cons.mp hj with rfl | hj
        · rw [hs, hout j hnd.1, setSlot_snd, if_pos rfl]
          rfl
        · exact hin j hj
    | next fl c =>
      rw [hs] at h1
      obtain ⟨⟨pg, s2⟩, ha, h1⟩ := bind_ok h1
      obtain ⟨⟨c', s3⟩, hc, h1⟩ := bind_ok h1
      cases h1
      obtain ⟨fs, hfs, hfl, hcopy, hpages⟩ := hchild c c' pg s2 s1 hc
      refine ⟨(pg :: fs) ++ gs, (Allocs.cons ha hfs).append hgs, ?_, hpg, ?_, ?_⟩
      · simp only [List.map_cons, List.sum_cons, hs, slotTables, List.cons_append,
          List.length_cons, List.length_append, hfl, hlen]
        omega
      · intro j hj
        rw [List.mem_cons, not_or] at hj
        rw [hout j hj.2, setSlot_snd, if_neg hj.1]
      · intro j hj
        rcases List.mem_cons.mp hj with rfl | hj
        · rw [hs, hout j hnd.1, setSlot_snd, if_pos rfl]
          exact ⟨c', rfl, hcopy, fun g hg => List.mem_append_left _ (hpages g hg)⟩
        · exact (hin j hj).mono (List.subset_append_right _ _)

/-- The loop that copies slots fails only when the allocator does, before it has given out
    all the pages the slots need. -/
theorem copySlots_fails {alloc : S → Except ε (ρ × S)} {zero : σ} {drop : σ → Bool} {n : ℕ}
    {below : Radix ρ ι σ n → ℕ}
    {copyChild : Radix ρ ι σ n → ρ → S → Except ε (Radix ρ ι σ n × S)}
    (hchild : CopiesChild alloc zero drop below copyChild)
    (hfail : FailsShort alloc below copyChild) (t : Radix ρ ι σ (n + 1)) :
    ∀ (idxs : List ι) (r : Radix ρ ι σ (n + 1)) (s : S) (e : ε),
      idxs.foldlM (copySlot alloc copyChild t) (r, s) = .error e →
      ∃ fs s1, Allocs alloc s fs s1 ∧ alloc s1 = .error e ∧
        fs.length < (idxs.map fun i => slotTables below (t.2 i)).sum
  | [], r, s, e, h => by
    rw [List.foldlM_nil] at h
    cases h
  | i :: idxs, r, s, e, h => by
    rw [List.foldlM_cons, List.map_cons, List.sum_cons] at *
    rcases bind_error_iff.mp h with h1 | ⟨⟨r1, s1⟩, h1, h⟩
    · unfold copySlot at h1
      cases hs : t.2 i with
      | absent raw =>
        rw [hs] at h1
        cases h1
      | next fl c =>
        rw [hs] at h1
        simp only [slotTables]
        rcases bind_error_iff.mp h1 with ha | ⟨⟨pg, s2⟩, ha, h1⟩
        · exact ⟨[], s, .nil s, ha, by simp only [List.length_nil]; omega⟩
        · rcases bind_error_iff.mp h1 with hc | ⟨⟨c', s3⟩, -, h1⟩
          · obtain ⟨fs, s3, hfs, herr, hlen⟩ := hfail c pg s2 e hc
            exact ⟨pg :: fs, s3, .cons ha hfs, herr, by simp only [List.length_cons]; omega⟩
          · cases h1
    · obtain ⟨gs, s3, hgs, herr, hlen⟩ := copySlots_fails hchild hfail t idxs r1 s1 e h
      unfold copySlot at h1
      cases hs : t.2 i with
      | absent raw =>
        rw [hs] at h1
        cases h1
        exact ⟨gs, s3, hgs, herr, by omega⟩
      | next fl c =>
        have hcost : slotTables below (.next fl c) = below c + 1 := rfl
        rw [hs] at h1
        obtain ⟨⟨pg, s2⟩, ha, h1⟩ := bind_ok h1
        obtain ⟨⟨c', s4⟩, hc, h1⟩ := bind_ok h1
        cases h1
        obtain ⟨fs, hfs, hfl, -, -⟩ := hchild c c' pg s2 s1 hc
        refine ⟨(pg :: fs) ++ gs, s3, (Allocs.cons ha hfs).append hgs, herr, ?_⟩
        simp only [List.cons_append, List.length_cons, List.length_append]
        omega

omit [DecidableEq ι] in
theorem lookup_of_slotCopy {zero : σ} {drop : σ → Bool} {n : ℕ} {fs : List ρ}
    {t t' : Radix ρ ι σ (n + 1)} {q : ℕ → ι}
    (h : SlotCopy zero drop fs (t.2 (q (n + 1))) (t'.2 (q (n + 1)))) :
    lookup t' q = (lookup t q).map fun e => if drop e then zero else e := by
  simp only [lookup]
  cases hs : t.2 (q (n + 1)) with
  | absent raw =>
    rw [hs] at h
    rw [show t'.2 (q (n + 1)) = .absent raw from h]
    rfl
  | next fl c =>
    rw [hs] at h
    obtain ⟨c', h1, h2, -⟩ := h
    rw [h1]
    exact h2 q

/-- A copied tree holds the entries that are not dropped, in newly allocated pages. -/
theorem copy_spec (alloc : S → Except ε (ρ × S)) (zero : σ) (drop : σ → Bool) {idxs : List ι}
    (hnd : idxs.Nodup) (hall : ∀ i, i ∈ idxs) :
    ∀ n : ℕ, CopiesChild alloc zero drop (tablesBelow idxs) (copy alloc zero drop idxs (n := n))
  | 0, t, t', pg, s, s', h => by
    simp only [copy] at h
    cases h
    refine ⟨[], .nil _, rfl, fun q => by simp [lookup], fun g hg => ?_⟩
    have : pg = g := hg
    simp [this]
  | n + 1, t, t', pg, s, s', h => by
    unfold copy at h
    obtain ⟨fs, hfs, hlen, hpg, -, hin⟩ :=
      copySlots_spec (copy_spec alloc zero drop hnd hall n) t idxs hnd _ _ _ _ h
    refine ⟨fs, hfs, hlen, fun q => lookup_of_slotCopy (hin _ (hall _)), fun g hg => ?_⟩
    rcases hg with hg | ⟨i, fl, c', hi, hg⟩
    · rw [hpg] at hg
      have : pg = g := hg
      simp [this]
    · have hcopy := hin i (hall i)
      cases hs : t.2 i with
      | absent raw =>
        rw [hs, hi] at hcopy
        cases hcopy
      | next fl' c =>
        rw [hs, hi] at hcopy
        obtain ⟨c'', h1, -, h3⟩ := hcopy
        cases h1
        exact List.mem_cons_of_mem _ (h3 g hg)

theorem copy_fails (alloc : S → Except ε (ρ × S)) (zero : σ) (drop : σ → Bool) {idxs : List ι}
    (hnd : idxs.Nodup) (hall : ∀ i, i ∈ idxs) :
    ∀ n : ℕ, FailsShort alloc (tablesBelow idxs) (copy alloc zero drop idxs (n := n))
  | 0, t, pg, s, e, h => by
    simp only [copy] at h
    cases h
  | n + 1, t, pg, s, e, h => by
    unfold copy at h
    exact copySlots_fails (copy_spec alloc zero drop hnd hall n)
      (copy_fails alloc zero drop hnd hall n) t idxs _ s e h

/-- No table is created on a path that exists. -/
theorem ensure_of_isSome (alloc : S → Except ε (ρ × S)) (zero flags : σ) :
    ∀ {n : ℕ} (t : Radix ρ ι σ n) (p : ℕ → ι) (s : S), (lookup t p).isSome →
      ensure alloc zero flags t p s = .ok (t, s)
  | 0, t, p, s, _ => rfl
  | n + 1, t, p, s, h => by
    unfold ensure
    simp only [lookup] at h
    cases hs : t.2 (p (n + 1)) with
    | absent raw => simp [hs] at h
    | next fl c =>
      rw [hs] at h
      dsimp only
      rw [ensure_of_isSome alloc zero flags c p s h]
      have hset : t.setSlot (p (n + 1)) (.next fl c) = t := by
        refine Prod.ext rfl (funext fun j => ?_)
        rw [setSlot_snd]
        split_ifs with hj
        · rw [hj, hs]
        · rfl
      show Except.ok _ = _
      rw [hset]

/-- The entries found after the tables of a path were created: those found before, and those of
    the last table on the path. -/
theorem isSome_lookup_ensure (alloc : S → Except ε (ρ × S)) (zero flags : σ) :
    ∀ {n : ℕ} {t t' : Radix ρ ι σ n} {p : ℕ → ι} {s s' : S},
      ensure alloc zero flags t p s = .ok (t', s') → ∀ q : ℕ → ι,
        (lookup t' q).isSome ↔ (lookup t q).isSome ∨ ∀ k, 1 ≤ k → k ≤ n → q k = p k
  | 0, t, t', p, s, s', h, q => by
    simp only [ensure, Except.ok.injEq, Prod.mk.injEq] at h
    rw [← h.1]
    simp [lookup]
  | n + 1, t, t', p, s, s', h, q => by
    have hpath : ∀ c c' : Radix ρ ι σ n, q (n + 1) = p (n + 1) →
        ((lookup c' q).isSome ↔ (lookup c q).isSome ∨ ∀ k, 1 ≤ k → k ≤ n → q k = p k) →
        ((lookup c' q).isSome ↔ (lookup c q).isSome ∨ ∀ k, 1 ≤ k → k ≤ n + 1 → q k = p k) := by
      intro c c' hq hc
      refine hc.trans (or_congr_right ⟨fun h k h1 hk => ?_, fun h k h1 hk => h k h1 (by omega)⟩)
      rcases Nat.lt_or_ge n k with hnk | hnk
      · rw [show k = n + 1 by omega, hq]
      · exact h k h1 hnk
    unfold ensure at h
    cases hs : t.2 (p (n + 1)) with
    | next fl c =>
      rw [hs] at h
      obtain ⟨⟨c', s1⟩, hc, h⟩ := bind_ok h
      obtain ⟨rfl, -⟩ := pure_pair h
      by_cases hq : q (n + 1) = p (n + 1)
      · have hnew : lookup (t.setSlot (p (n + 1)) (.next fl c')) q = lookup c' q := by
          simp only [lookup, setSlot_snd, hq, if_true]
        have hold : lookup t q = lookup c q := by simp only [lookup, hq, hs]
        rw [hnew, hold]
        exact hpath c c' hq (isSome_lookup_ensure alloc zero flags hc q)
      · have hsame : lookup (t.setSlot (p (n + 1)) (.next fl c')) q = lookup t q := by
          simp only [lookup, setSlot_snd, if_neg hq]
        rw [hsame]
        exact (or_iff_left fun h => hq (h (n + 1) (by omega) le_rfl)).symm
    | absent raw =>
      rw [hs] at h
      obtain ⟨⟨pg, s1⟩, -, h⟩ := bind_ok h
      obtain ⟨⟨c', s2⟩, hc, h⟩ := bind_ok h
      obtain ⟨rfl, -⟩ := pure_pair h
      by_cases hq : q (n + 1) = p (n + 1)
      · have hnew : lookup (t.setSlot (p (n + 1)) (.next flags c')) q = lookup c' q := by
          simp only [lookup, setSlot_snd, hq, if_true]
        have hold : lookup t q = none := by simp only [lookup, hq, hs]
        have hc' := hpath _ c' hq (isSome_lookup_ensure alloc zero flags hc q)
        rw [hnew, hold, hc']
        cases n with
        | zero =>
          have hall : ∀ k, 1 ≤ k → k ≤ 0 + 1 → q k = p k := by
            intro k h1 hk
            rw [show k = 0 + 1 by omega, hq]
          exact iff_of_true (.inr hall) (.inr hall)
        | succ n => rfl
      · have hsame : lookup (t.setSlot (p (n + 1)) (.next flags c')) q = lookup t q := by
          simp only [lookup, setSlot_snd, if_neg hq]
        rw [hsame]
        exact (or_iff_left fun h => hq (h (n + 1) (by omega) le_rfl)).symm

end Radix

end Fishix
