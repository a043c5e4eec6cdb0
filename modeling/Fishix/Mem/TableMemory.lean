import Fishix.Mem.PageTable
import Fishix.Common.RadixMemory

/-!
# Page tables as they stand in memory

The model of `mem/vmm.cpp` lines 119-145 and 160-180 with the tables where the source has
them: in pages of physical memory, found through the frame addresses in their entries
(`Mem.PageTable` has them as a tree). A frame address may stand in any number of words; an
entry of the last level in particular may hold the frame of a table, as those of the direct
map of the kernel do.

The three steps of `find_page_table_entry` have one text, and are one recursion on the level.
Addresses of tables are page frame numbers (`phy + hhdm`). The TLB is not modelled.

* `Unshared.descend`: what the walk that creates missing tables leaves behind.
* `map_page_maps`: in every state reached from an empty root, the table is a map, and its
  pages form a tree.
-/

namespace Fishix.Mem

open RadixMemory
open Machine

/-! ## Model -/

/-- The table an entry of an upper level names, if `entry & PAGE_PRESENT`. -/
def nextTable (entry : U64) : Option Pfn := if isPresent entry then some (frameOf entry) else none

/-- A `Pagemap` (mem/vmm.hpp:80-84) with the memory that its tables are in. -/
structure TableMemory where
  /-- The state of the physical memory manager, with `page_table_pages_list`. -/
  machine : Machine
  /-- Physical memory as page-table words. -/
  word : Pfn → Fin 512 → U64
  /-- The page map itself. -/
  this : PagemapId
  /-- The frame of `pml4`. -/
  pml4 : Pfn

namespace TableMemory

/-- `page_table_pages_list`. -/
def pages (m : TableMemory) : List Pfn := m.machine.list (.tables m.this)

/-- `*entry = x` for the entry at index `i` of table `t`. -/
def setWord (m : TableMemory) (t : Pfn) (i : Fin 512) (x : U64) : TableMemory :=
  { m with word := Function.update m.word t (Function.update (m.word t) i x) }

/-- `create_next_page_table` (mem/vmm.cpp:125-130). -/
def createNextPageTable (m : TableMemory) (t : Pfn) (i : Fin 512) :
    Except Panic (Pfn × TableMemory) := do
  let (newPage, k) ← m.machine.allocPageForPageTable m.this
  let m := { m with machine := k, word := Function.update m.word newPage fun _ => 0#64 }
  .ok (newPage, m.setWord t i (newPage.phy ||| (pagePresent ||| pageWritable ||| pageUser)))

/-- The steps of `find_page_table_entry` (mem/vmm.cpp:160-180) from table `t` at a level. -/
def descend (createMissing : Bool) (virt : U64) :
    ℕ → Pfn → TableMemory → Except Panic (Option (Pfn × Fin 512) × TableMemory)
  | 0, t, m => .ok (some (t, tableIndex virt 0), m)
  | n + 1, t, m =>
    let i := tableIndex virt (n + 1)
    if isPresent (m.word t i) then descend createMissing virt n (frameOf (m.word t i)) m
    else if createMissing then do
      let (t, m) ← m.createNextPageTable t i
      descend createMissing virt n t m
    else .ok (none, m)

/-- `find_page_table_entry` (mem/vmm.cpp:160-180): the entry's place, `none` for a null
    pointer. -/
def findPageTableEntry (m : TableMemory) (virt : U64) (createMissing : Bool) :
    Except Panic (Option (Pfn × Fin 512) × TableMemory) :=
  m.descend createMissing virt 3 m.pml4

/-- `map_page` (mem/vmm.cpp:132-138). -/
def mapPage (m : TableMemory) (phy virt flags : U64) : Except Panic TableMemory := do
  match ← m.findPageTableEntry virt true with
  | (some e, m) => .ok (m.setWord e.1 e.2 ((phy &&& frameMask) ||| flags))
  | (none, _) => .error .badPointer

end TableMemory

/-! ## The state between two calls -/

namespace TableMemory

/-- The place of `virt` in the table at the last level, if every table above it is there. -/
def lastTable (m : TableMemory) (virt : U64) : Option Pfn :=
  walk nextTable m.word (tableIndex virt) 3 m.pml4

/-- `t` is a table of the page map, `n` levels above the entries. -/
abbrev TableAt (m : TableMemory) (n : ℕ) (t : Pfn) : Prop :=
  RadixMemory.TableAt nextTable m.pml4 3 m.word n t

/-- The entry at index `i` of table `t` above the last level names the table `c`. -/
abbrev ParentEntry (m : TableMemory) (t : Pfn) (i : Fin 512) (c : Pfn) : Prop :=
  Parent nextTable m.pml4 3 m.word t i c

/-- The tables are the pages of `page_table_pages_list`, none of them free or shared. -/
structure Sound (m : TableMemory) : Prop where
  unshared : Unshared nextTable m.pml4 3 m.word {t | t ∈ m.pages}
  used : ∀ t ∈ m.pages, (m.machine.page t).free = false

/-- An empty root: `Pagemap::Pagemap` (mem/vmm.cpp:100-104) and the `memset` after it. -/
structure EmptyRoot (m : TableMemory) : Prop where
  pages : m.pages = [m.pml4]
  used : (m.machine.page m.pml4).free = false
  zero : ∀ i, m.word m.pml4 i = 0#64

/-- What the rest of the kernel does between two calls: it takes and returns pages and writes
    to them, the tables apart. -/
structure Elsewhere (m m' : TableMemory) : Prop where
  this : m'.this = m.this
  pml4 : m'.pml4 = m.pml4
  pages : m'.pages = m.pages
  word : ∀ t ∈ m.pages, m'.word t = m.word t
  used : ∀ t ∈ m.pages, (m'.machine.page t).free = (m.machine.page t).free

/-- The states reached by `map_page` from an empty root. -/
inductive Reached : TableMemory → Prop
  | emptyRoot {m : TableMemory} (root : EmptyRoot m) : Reached m
  | mapPage {m m' : TableMemory} {phy virt flags : U64} (before : Reached m)
      (call : m.mapPage phy virt flags = .ok m') : Reached m'
  | elsewhere {m m' : TableMemory} (before : Reached m) (other : Elsewhere m m') : Reached m'

end TableMemory

/-! ## Single entries -/

@[simp] theorem nextTable_zero : nextTable 0#64 = none := by
  unfold nextTable
  simp

/-- The entry that `create_next_page_table` writes names the new table. -/
theorem nextTable_newPage (f : Pfn) :
    nextTable (f.phy ||| (pagePresent ||| pageWritable ||| pageUser)) = some f := by
  unfold nextTable
  rw [isPresent_phy_or, frameOf_phy_or (by decide), if_pos (by decide)]

/-- Addresses of one page number agree in bits 12-47. -/
theorem getLsbD_of_vpn {v w : U64} (h : vpn v = vpn w) {k : ℕ} (h1 : 12 ≤ k) (h2 : k < 48) :
    v.getLsbD k = w.getLsbD k := by
  have hbits : v.extractLsb' 12 36 = w.extractLsb' 12 36 := by
    apply BitVec.eq_of_toNat_eq
    rw [BitVec.extractLsb'_toNat, BitVec.extractLsb'_toNat, Nat.shiftRight_eq_div_pow,
      Nat.shiftRight_eq_div_pow]
    exact h
  have hk := congrArg (fun x => x.getLsbD (k - 12)) hbits
  have hadd : 12 + (k - 12) = k := by omega
  have hlt : k - 12 < 36 := by omega
  simpa [hadd, hlt] using hk

namespace TableMemory

variable {m m1 m' : TableMemory}

@[simp] theorem setWord_machine (m : TableMemory) (t : Pfn) (i : Fin 512) (x : U64) :
    (m.setWord t i x).machine = m.machine := rfl

@[simp] theorem setWord_this (m : TableMemory) (t : Pfn) (i : Fin 512) (x : U64) :
    (m.setWord t i x).this = m.this := rfl

@[simp] theorem setWord_pml4 (m : TableMemory) (t : Pfn) (i : Fin 512) (x : U64) :
    (m.setWord t i x).pml4 = m.pml4 := rfl

@[simp] theorem setWord_pages (m : TableMemory) (t : Pfn) (i : Fin 512) (x : U64) :
    (m.setWord t i x).pages = m.pages := rfl

theorem setWord_word (m : TableMemory) (t q : Pfn) (i j : Fin 512) (x : U64) :
    (m.setWord t i x).word q j = if (q, j) = (t, i) then x else m.word q j := by
  unfold setWord
  dsimp only
  by_cases hq : q = t
  · subst hq
    rw [Function.update_self, Function.update_apply]
    simp
  · rw [Function.update_of_ne hq, if_neg fun h => hq (Prod.mk.inj h).1]

theorem setWord_word_of_ne (m : TableMemory) {t q : Pfn} (i : Fin 512) (x : U64) (h : q ≠ t) :
    (m.setWord t i x).word q = m.word q :=
  Function.update_of_ne h _ _

/-- The walk without `create_missing` changes nothing. -/
theorem descend_false (m : TableMemory) (virt : U64) (n : ℕ) (t : Pfn) :
    m.descend false virt n t =
      .ok ((walk nextTable m.word (tableIndex virt) n t).map (·, tableIndex virt 0), m) := by
  induction n generalizing t with
  | zero => rfl
  | succ n ih =>
    unfold descend walk nextTable
    dsimp only
    split_ifs with hp h
    · rw [ih]
      rfl
    · cases h
    · rfl

theorem findPageTableEntry_false (m : TableMemory) (virt : U64) :
    m.findPageTableEntry virt false =
      .ok ((m.lastTable virt).map (·, tableIndex virt 0), m) :=
  m.descend_false virt 3 m.pml4

/-! ## Creating tables -/

theorem Sound.createNextPageTable (hs : m.Sound) {n : ℕ} {t f : Pfn} {i : Fin 512}
    (ht : m.TableAt (n + 1) t) (hmissing : nextTable (m.word t i) = none)
    (h : m.createNextPageTable t i = .ok (f, m')) :
    m'.Sound ∧ f ∉ m.pages ∧ m'.pages = m.pages ++ [f] ∧ m'.this = m.this ∧ m'.pml4 = m.pml4 ∧
      RadixMemory.Linked nextTable m.word m'.word t i f ∧ ∀ j, m'.word f j = 0#64 := by
  unfold TableMemory.createNextPageTable at h
  obtain ⟨⟨g, k⟩, hk, h⟩ := bind_ok h
  cases h
  have htook := allocPageForPageTable_spec hk
  have hfree : (m.machine.page f).free = true := htook.free f (List.mem_singleton_self f)
  have hf : f ∉ m.pages := by
    intro hmem
    rw [hs.used f hmem] at hfree
    cases hfree
  have htf : t ≠ f := fun heq => hf (heq ▸ hs.unshared.mem ht)
  have hpages : k.list (.tables m.this) = m.pages ++ [f] := htook.tables
  generalize hm' : TableMemory.setWord _ t i _ = m'
  have hword : ∀ q j, m'.word q j =
      if (q, j) = (t, i) then f.phy ||| (pagePresent ||| pageWritable ||| pageUser)
      else if q = f then 0#64 else m.word q j := by
    intro q j
    rw [← hm', setWord_word]
    dsimp only
    rw [Function.update_apply]
    split_ifs <;> rfl
  have hfresh : ∀ j, m'.word f j = 0#64 := by
    intro j
    rw [hword, if_neg fun h => htf (Prod.mk.inj h).1.symm, if_pos rfl]
  have hlink : RadixMemory.Linked nextTable m.word m'.word t i f := by
    refine ⟨hmissing, ?_, fun j => ?_, fun q j hq hne => ?_⟩
    · rw [hword, if_pos rfl]
      exact nextTable_newPage f
    · rw [hfresh j]
      exact nextTable_zero
    · rw [hword, if_neg hne, if_neg hq]
  subst hm'
  refine ⟨⟨?_, ?_⟩, hf, hpages, rfl, rfl, hlink, hfresh⟩
  · have hu := hs.unshared.link ht hf hlink
    have hset : insert f {t | t ∈ m.pages} = {t | t ∈ k.list (.tables m.this)} := by
      ext q
      rw [hpages]
      simp [or_comm]
    rw [hset] at hu
    exact hu
  · intro q hq
    replace hq : q ∈ m.pages ++ [f] := hpages ▸ hq
    change (k.page q).free = false
    rcases List.mem_append.mp hq with hq | hq
    · rw [htook.page_other q]
      · exact hs.used q hq
      · intro hqf
        exact hf (List.mem_singleton.mp hqf ▸ hq)
    · rw [htook.page_took q hq]

/-- What tables are missing is there in `m'`, and empty; the rest is as before. -/
structure Grown (m m' : TableMemory) : Prop where
  sound : m'.Sound
  this : m'.this = m.this
  pml4 : m'.pml4 = m.pml4
  pages : m.pages ⊆ m'.pages
  table : ∀ {n t}, m.TableAt n t → m'.TableAt n t
  names : ∀ {n t i c}, m.TableAt (n + 1) t → nextTable (m.word t i) = some c →
    nextTable (m'.word t i) = some c
  entry : ∀ {t}, m.TableAt 0 t → m'.word t = m.word t
  lastTable : ∀ virt, m'.lastTable virt = m.lastTable virt ∨
    m.lastTable virt = none ∧
      ∃ f ∉ m.pages, m'.lastTable virt = some f ∧ ∀ j, m'.word f j = 0#64

theorem Sound.grown_refl (hs : m.Sound) : Grown m m where
  sound := hs
  this := rfl
  pml4 := rfl
  pages := fun _ h => h
  table h := h
  names _ h := h
  entry _ := rfl
  lastTable _ := Or.inl rfl

theorem tableAt_lastTable {virt : U64} {q : Pfn} (h : m.lastTable virt = some q) :
    m.TableAt 0 q :=
  TableAt.of_walk .root h

theorem Grown.trans (h : Grown m m1) (h' : Grown m1 m') : Grown m m' where
  sound := h'.sound
  this := h'.this.trans h.this
  pml4 := h'.pml4.trans h.pml4
  pages := fun _ hq => h'.pages (h.pages hq)
  table ht := h'.table (h.table ht)
  names ht hc := h'.names (h.table ht) (h.names ht hc)
  entry ht := (h'.entry (h.table ht)).trans (h.entry ht)
  lastTable virt := by
    rcases h.lastTable virt with heq | ⟨hnone, f, hnew, hf, hzero⟩
    · rw [← heq]
      rcases h'.lastTable virt with heq' | ⟨hnone, f, hnew, hf⟩
      · exact Or.inl heq'
      · exact Or.inr ⟨hnone, f, fun hmem => hnew (h.pages hmem), hf⟩
    · refine Or.inr ⟨hnone, f, hnew, ?_, fun j => ?_⟩
      · rcases h'.lastTable virt with heq | ⟨hnone', -⟩
        · rw [heq, hf]
        · rw [hf] at hnone'
          cases hnone'
      · rw [h'.entry (tableAt_lastTable hf), hzero j]

theorem Sound.grown_createNextPageTable (hs : m.Sound) {n : ℕ} {t f : Pfn} {i : Fin 512}
    (ht : m.TableAt (n + 1) t) (hmissing : nextTable (m.word t i) = none)
    (h : m.createNextPageTable t i = .ok (f, m')) :
    Grown m m' ∧ m'.TableAt n f ∧ nextTable (m'.word t i) = some f := by
  obtain ⟨hs', hf, hpages, hthis, hroot, hlink, hzero⟩ := hs.createNextPageTable ht hmissing h
  have hne : ∀ {k q}, m.TableAt k q → q ≠ f := fun hq heq => hf (heq ▸ hs.unshared.mem hq)
  have htable : ∀ {k q}, m.TableAt k q → m'.TableAt k q := by
    intro k q hq
    unfold TableMemory.TableAt
    rw [hroot]
    exact hlink.tableAt_old hs.unshared hf hq
  refine ⟨⟨hs', hthis, hroot, ?_, htable, fun hq hc => hlink.names (hne hq) hc, ?_, ?_⟩, ?_,
    hlink.entry⟩
  · intro q hq
    rw [hpages]
    exact List.mem_append_left _ hq
  · intro q hq
    funext j
    refine hlink.other q j (hne hq) fun hqt => ?_
    rw [(Prod.mk.inj hqt).1] at hq
    exact absurd (hs.unshared.level hq ht) (by omega)
  · intro virt
    unfold TableMemory.lastTable
    rw [hroot]
    rcases hlink.walk_cases hs.unshared ht hf (tableIndex virt) .root with heq | ⟨hnone, hsome⟩
    · exact Or.inl heq
    · exact Or.inr ⟨hnone, f, hf, hsome, hzero⟩
  · exact .child (htable ht) hlink.entry

/-- What the walk that creates the missing tables leaves behind. -/
theorem Sound.descend (hs : m.Sound) {virt : U64} {n : ℕ} {t : Pfn} (ht : m.TableAt n t)
    {r : Option (Pfn × Fin 512)} (h : m.descend true virt n t = .ok (r, m')) :
    Grown m m' ∧ ∃ q, r = some (q, tableIndex virt 0) ∧
      walk nextTable m'.word (tableIndex virt) n t = some q := by
  induction n generalizing m t with
  | zero =>
    cases h
    exact ⟨hs.grown_refl, t, rfl, rfl⟩
  | succ n ih =>
    unfold TableMemory.descend at h
    dsimp only at h
    unfold walk
    split_ifs at h with hp hc
    · have hnext : nextTable (m.word t (tableIndex virt (n + 1))) =
          some (frameOf (m.word t (tableIndex virt (n + 1)))) := if_pos hp
      obtain ⟨hgrown, q, hr, hq⟩ := ih hs (.child ht hnext) h
      refine ⟨hgrown, q, hr, ?_⟩
      rw [hgrown.names ht hnext]
      exact hq
    · obtain ⟨⟨f, m1⟩, h1, h⟩ := bind_ok h
      obtain ⟨hgrown1, hf, hnext⟩ := hs.grown_createNextPageTable ht (if_neg hp) h1
      obtain ⟨hgrown, q, hr, hq⟩ := ih hgrown1.sound hf h
      refine ⟨hgrown1.trans hgrown, q, hr, ?_⟩
      rw [hgrown.names (hgrown1.table ht) hnext]
      exact hq
    · exact absurd rfl hc

/-! ## The states reached -/

/-- The tables stay sound where no word above the last level changes. -/
theorem Sound.agrees (hs : m.Sound) (hroot : m'.pml4 = m.pml4) (hpages : m'.pages = m.pages)
    (hword : Agrees nextTable m.pml4 3 m.word m'.word)
    (hused : ∀ t ∈ m.pages, (m'.machine.page t).free = (m.machine.page t).free) :
    m'.Sound where
  unshared := by
    rw [hroot, hpages]
    exact hs.unshared.agrees hword
  used t ht := by
    rw [hpages] at ht
    rw [hused t ht]
    exact hs.used t ht

theorem Sound.agrees_setWord (hs : m.Sound) {q : Pfn} (hq : m.TableAt 0 q) (i : Fin 512)
    (x : U64) : Agrees nextTable m.pml4 3 m.word (m.setWord q i x).word :=
  hs.unshared.agrees_entry hq fun _ ht => setWord_word_of_ne m i x ht

theorem Sound.lastTable_setWord (hs : m.Sound) {q : Pfn} (hq : m.TableAt 0 q) (i : Fin 512)
    (x : U64) (virt : U64) : (m.setWord q i x).lastTable virt = m.lastTable virt :=
  (hs.agrees_setWord hq i x).walk_eq .root

/-- The steps of `map_page`: the walk, and the write to the entry that it finds. -/
theorem Sound.mapPage (hs : m.Sound) {phy virt flags : U64}
    (h : m.mapPage phy virt flags = .ok m') :
    ∃ m1 q, Grown m m1 ∧ m1.lastTable virt = some q ∧
      m' = m1.setWord q (tableIndex virt 0) ((phy &&& frameMask) ||| flags) := by
  unfold TableMemory.mapPage TableMemory.findPageTableEntry at h
  obtain ⟨⟨r, m1⟩, h1, h⟩ := bind_ok h
  obtain ⟨hgrown, q, rfl, hq⟩ := hs.descend .root h1
  cases h
  refine ⟨m1, q, hgrown, ?_, rfl⟩
  unfold TableMemory.lastTable
  rw [hgrown.pml4]
  exact hq

theorem EmptyRoot.sound (h : m.EmptyRoot) : m.Sound := by
  have hroot : ∀ {n t}, m.TableAt n t → n = 3 ∧ t = m.pml4 := by
    intro n t ht
    induction ht with
    | root => exact ⟨rfl, rfl⟩
    | child _ hc ih =>
      rw [ih.2, h.zero, nextTable_zero] at hc
      cases hc
  refine ⟨⟨?_, ?_, ?_, ?_⟩, ?_⟩
  · intro n t ht
    change t ∈ m.pages
    rw [h.pages, (hroot ht).2]
    exact List.mem_singleton_self _
  · intro t ht
    change t ∈ m.pages at ht
    rw [h.pages, List.mem_singleton] at ht
    exact ⟨3, ht ▸ .root⟩
  · intro n k t hn hk
    rw [(hroot hn).1, (hroot hk).1]
  · rintro t i t' i' c ⟨⟨n, hn⟩, hc⟩ -
    rw [(hroot hn).2, h.zero, nextTable_zero] at hc
    cases hc
  · intro t ht
    rw [h.pages, List.mem_singleton] at ht
    rw [ht]
    exact h.used

theorem Reached.sound (h : m.Reached) : m.Sound := by
  induction h with
  | emptyRoot root => exact root.sound
  | mapPage _ call ih =>
    obtain ⟨m1, q, hgrown, hq, rfl⟩ := ih.mapPage call
    exact hgrown.sound.agrees rfl rfl
      (hgrown.sound.agrees_setWord (tableAt_lastTable hq) _ _) fun _ _ => rfl
  | elsewhere _ other ih =>
    exact ih.agrees other.pml4 other.pages
      (fun n t ht => other.word t (ih.unshared.mem ht)) other.used

/-! ## `map_page` returns while there are pages -/

/-- The free list holds at least `n` pages, and every page on it is free, once. -/
structure FreePages (n : ℕ) (m : TableMemory) : Prop where
  length : n ≤ (m.machine.list .freelist).length
  nodup : (m.machine.list .freelist).Nodup
  free : ∀ f ∈ m.machine.list .freelist, (m.machine.page f).free = true

theorem FreePages.createNextPageTable {n : ℕ} (h : FreePages (n + 1) m) (t : Pfn)
    (i : Fin 512) : ∃ f m', m.createNextPageTable t i = .ok (f, m') ∧ FreePages n m' := by
  obtain ⟨hlength, hnodup, hfree⟩ := h
  unfold TableMemory.createNextPageTable allocPageForPageTable allocPage
  cases hlist : m.machine.list .freelist with
  | nil =>
    rw [hlist] at hlength
    cases hlength
  | cons f rest =>
    rw [hlist, List.length_cons] at hlength
    rw [hlist, List.nodup_cons] at hnodup
    have hf : (m.machine.page f).free = true := hfree f (hlist ▸ List.mem_cons_self)
    simp only [assert, hf, if_true]
    refine ⟨f, _, rfl, ?_, ?_, ?_⟩
    · simp [linkLast, setList, setPage]
      omega
    · simpa [linkLast, setList, setPage] using hnodup.2
    · intro g hg
      have hg' : g ∈ rest := by
        simpa [linkLast, setList, setPage] using hg
      have hgf : g ≠ f := fun heq => hnodup.1 (heq ▸ hg')
      have hold := hfree g (hlist ▸ List.mem_cons_of_mem f hg')
      simpa [linkLast, setList, setPage,
        Function.update_of_ne hgf] using hold

theorem FreePages.descend {n : ℕ} (h : FreePages n m) (virt : U64) (t : Pfn) :
    ∃ e m', m.descend true virt n t = .ok (some e, m') := by
  induction n generalizing m t with
  | zero => exact ⟨_, m, rfl⟩
  | succ n ih =>
    unfold TableMemory.descend
    dsimp only
    split_ifs with hp hc
    · exact ih ⟨by have := h.length; omega, h.nodup, h.free⟩ _
    · obtain ⟨f, m1, h1, hfree⟩ := h.createNextPageTable t (tableIndex virt (n + 1))
      obtain ⟨e, m', h'⟩ := ih hfree f
      refine ⟨e, m', ?_⟩
      rw [h1]
      exact h'
    · exact absurd rfl hc

theorem FreePages.mapPage (h : FreePages 3 m) (phy virt flags : U64) :
    ∃ m', m.mapPage phy virt flags = .ok m' := by
  obtain ⟨e, m1, h1⟩ := h.descend virt m.pml4
  refine ⟨m1.setWord e.1 e.2 ((phy &&& frameMask) ||| flags), ?_⟩
  unfold TableMemory.mapPage TableMemory.findPageTableEntry
  rw [h1]
  rfl

/-! ## The table as a map -/

/-- `find_page_table_entry(virt)` returns the place `e`. -/
def Finds (m : TableMemory) (virt : U64) (e : Option (Pfn × Fin 512)) : Prop :=
  m.findPageTableEntry virt false = .ok (e, m)

/-- The addresses are of two pages: they differ in bits 12-47. -/
def OtherPage (v w : U64) : Prop := ∃ k, 12 ≤ k ∧ k < 48 ∧ v.getLsbD k ≠ w.getLsbD k

/-- `m'` is `m` after `map_page(phy, virt, flags)`. -/
structure Mapped (m m' : TableMemory) (phy virt flags : U64) : Prop where
  /-- The entry of the address holds the frame and the flags. -/
  entry : ∃ e, m'.Finds virt (some e) ∧ m'.word e.1 e.2 = (phy &&& frameMask) ||| flags
  /-- The entry found for an address of another page is where and what it was. -/
  kept : ∀ w, OtherPage virt w → ∀ e, m.Finds w (some e) →
    m'.Finds w (some e) ∧ m'.word e.1 e.2 = m.word e.1 e.2
  /-- Where none was found, none is found, or one in a new table that is empty. -/
  missing : ∀ w, OtherPage virt w → m.Finds w none →
    m'.Finds w none ∨ ∃ e, m'.Finds w (some e) ∧ e.1 ∉ m.pages ∧ m'.word e.1 e.2 = 0#64

theorem finds_iff (m : TableMemory) (virt : U64) (e : Option (Pfn × Fin 512)) :
    m.Finds virt e ↔ (m.lastTable virt).map (·, tableIndex virt 0) = e := by
  unfold Finds
  rw [findPageTableEntry_false]
  simp

theorem finds_some_iff (m : TableMemory) (virt : U64) (q : Pfn) (i : Fin 512) :
    m.Finds virt (some (q, i)) ↔ m.lastTable virt = some q ∧ tableIndex virt 0 = i := by
  rw [finds_iff]
  simp

theorem finds_none_iff (m : TableMemory) (virt : U64) :
    m.Finds virt none ↔ m.lastTable virt = none := by
  rw [finds_iff]
  simp

/-- Two addresses with one entry are of one page. -/
theorem Sound.vpn_eq (hs : m.Sound) {v w : U64} {q : Pfn} (hv : m.lastTable v = some q)
    (hw : m.lastTable w = some q) (hi : tableIndex v 0 = tableIndex w 0) : vpn v = vpn w := by
  obtain ⟨-, hupper⟩ := hs.unshared.walk_inj .root .root hv hw
  refine (tableIndex_eq_iff v w).mp fun k hk => ?_
  cases k with
  | zero => exact hi
  | succ k => exact hupper (k + 1) (by omega) hk

theorem Sound.mapped (hs : m.Sound) {phy virt flags : U64}
    (h : m.mapPage phy virt flags = .ok m') : Mapped m m' phy virt flags := by
  obtain ⟨m1, q, hgrown, hq, rfl⟩ := hs.mapPage h
  have hlast := hgrown.sound.lastTable_setWord (tableAt_lastTable hq) (tableIndex virt 0)
    ((phy &&& frameMask) ||| flags)
  have hother : ∀ w p, OtherPage virt w → m1.lastTable w = some p →
      (m1.setWord q (tableIndex virt 0) ((phy &&& frameMask) ||| flags)).word p
        (tableIndex w 0) = m1.word p (tableIndex w 0) := by
    rintro w p ⟨k, h1, h2, hne⟩ hp
    rw [setWord_word, if_neg]
    intro heq
    obtain ⟨rfl, hi⟩ := Prod.mk.inj heq
    exact hne (getLsbD_of_vpn (hgrown.sound.vpn_eq hq hp hi.symm) h1 h2)
  refine ⟨⟨(q, tableIndex virt 0), ?_, ?_⟩, ?_, ?_⟩
  · rw [finds_some_iff, hlast]
    exact ⟨hq, rfl⟩
  · rw [setWord_word, if_pos rfl]
  · rintro w hw ⟨p, i⟩ hp
    obtain ⟨hold, rfl⟩ := (finds_some_iff m w p i).mp hp
    have hp1 : m1.lastTable w = some p := by
      rcases hgrown.lastTable w with heq | ⟨hnone, -⟩
      · rw [heq, hold]
      · rw [hold] at hnone
        cases hnone
    refine ⟨?_, ?_⟩
    · rw [finds_some_iff, hlast]
      exact ⟨hp1, rfl⟩
    · rw [hother w p hw hp1, hgrown.entry (tableAt_lastTable hold)]
  · intro w hw hnone
    rw [finds_none_iff] at hnone
    rcases hgrown.lastTable w with heq | ⟨-, f, hnew, hf, hzero⟩
    · left
      rw [finds_none_iff, hlast, heq, hnone]
    · refine Or.inr ⟨(f, tableIndex w 0), ?_, hnew, ?_⟩
      · rw [finds_some_iff, hlast]
        exact ⟨hf, rfl⟩
      · rw [hother w f hw hf, hzero]

/-- The page table is a map: in every state that `map_page` reaches from an empty root, each
    table but the root is named by exactly one entry of a table, and the root by none; a call
    sets the entry of its page, leaves those of all others, and returns while three pages are
    free. -/
theorem map_page_maps (h : m.Reached) :
    (∀ t ∈ m.pages, t ≠ m.pml4 → ∃! e : Pfn × Fin 512, m.ParentEntry e.1 e.2 t) ∧
    (∀ t i, ¬ m.ParentEntry t i m.pml4) ∧
    ∀ phy virt flags,
      (FreePages 3 m → ∃ m', m.mapPage phy virt flags = .ok m') ∧
      ∀ m', m.mapPage phy virt flags = .ok m' → Mapped m m' phy virt flags :=
  ⟨fun _ ht hroot => h.sound.unshared.existsUnique_parent ht hroot,
    fun t i => h.sound.unshared.root_parent t i,
    fun phy virt flags => ⟨fun hfree => hfree.mapPage phy virt flags,
      fun _ call => h.sound.mapped call⟩⟩

/-- A page map with an empty root in frame 1, and four free pages. -/
def emptyTable : TableMemory where
  machine := { blank with
    page := fun f => { free := 2#40 ≤ f, mappedAddr := 0#64, link := none }
    list := fun l => if l = .freelist then [2#40, 3#40, 4#40, 5#40] else [1#40] }
  word := fun _ _ => 0#64
  this := .user 0
  pml4 := 1#40

theorem emptyRoot_emptyTable : EmptyRoot emptyTable := ⟨rfl, rfl, fun _ => rfl⟩

/-- The page at `0x400000` mapped to the frame at `0x5000`. -/
theorem map_page_maps_one :
    ∃ m', emptyTable.mapPage 0x5000#64 0x400000#64 0x7#64 = .ok m' ∧
      Mapped emptyTable m' 0x5000#64 0x400000#64 0x7#64 := by
  obtain ⟨-, -, hcall⟩ := map_page_maps (.emptyRoot emptyRoot_emptyTable)
  obtain ⟨hreturns, hmapped⟩ := hcall 0x5000#64 0x400000#64 0x7#64
  obtain ⟨m', h⟩ := hreturns ⟨by decide, by decide, by simp [emptyTable]⟩
  exact ⟨m', h, hmapped m' h⟩

end TableMemory
end Fishix.Mem
