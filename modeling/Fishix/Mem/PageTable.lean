import Fishix.Mem.Pmm

/-!
# The four-level page table

Model of `mem/vmm.cpp` lines 119-145 and 160-180: `alloc_page_for_page_table`,
`create_next_page_table`, `find_page_table_entry` and `map_page`. The source walks
from the PML4 down with the indices `(virt >> 39) & 0x1FF`, `(virt >> 30) & 0x1FF`,
`(virt >> 21) & 0x1FF`, `(virt >> 12) & 0x1FF`; bits 48-63 of the address play no
part, so the walk depends on `vpn virt` only (`tableIndex_eq_iff`).

`find_page_table_entry(virt)` is `findEntry`, with `create_missing` it is
`createEntry`, and an assignment `*entry = x` through the returned pointer is
`writeEntry`. `entry` reads a missing table as `0`, which is not present.

* `entry_writeEntry`, `entry_createEntry`: the table is a map from page numbers to
  entries; creating tables does not change it.
* `createEntry_spec`: which pages `create_missing` takes and where they are linked.
-/

namespace Fishix.Mem

open Machine

/-! ## Indices -/

/-- The index into the table at `level` (`3` for the PML4, `0` for the last level):
    `(virt >> (12 + 9 * level)) & 0x1FF`. -/
def tableIndex (virt : U64) (level : ℕ) : Fin 512 := Fin.ofNat 512 (virt.toNat / 2 ^ (12 + 9 * level))

/-- The page number the walk uses: bits 12-47. -/
def vpn (virt : U64) : ℕ := virt.toNat / 4096 % 2 ^ 36

/-- The walk goes through one of the upper 256 slots of the PML4. -/
def UpperHalf (virt : U64) : Prop := 256 ≤ (tableIndex virt 3).val

instance (virt : U64) : Decidable (UpperHalf virt) := inferInstanceAs (Decidable (_ ≤ _))

/-- The page map that holds the tables of an address: the upper half is shared with the
    kernel. -/
def tablesOf (p : PagemapId) (virt : U64) : PagemapId := if UpperHalf virt then .kernel else p

theorem tableIndex_val (virt : U64) (level : ℕ) :
    (tableIndex virt level).val = virt.toNat / 2 ^ (12 + 9 * level) % 512 := rfl

theorem upperHalf_iff (virt : U64) : UpperHalf virt ↔ 2 ^ 35 ≤ vpn virt := by
  unfold UpperHalf vpn
  rw [tableIndex_val]
  norm_num
  omega

/-- Two addresses share all four indices iff they share the page number. -/
theorem tableIndex_eq_iff (v w : U64) :
    (∀ k ≤ 3, tableIndex v k = tableIndex w k) ↔ vpn v = vpn w := by
  unfold vpn
  constructor
  · intro h
    have h0 := congrArg Fin.val (h 0 (by omega))
    have h1 := congrArg Fin.val (h 1 (by omega))
    have h2 := congrArg Fin.val (h 2 (by omega))
    have h3 := congrArg Fin.val (h 3 (by omega))
    simp only [tableIndex_val] at h0 h1 h2 h3
    norm_num at h0 h1 h2 h3 ⊢
    omega
  · intro h k hk
    apply Fin.ext
    rw [tableIndex_val, tableIndex_val]
    interval_cases k <;> norm_num at h ⊢ <;> omega

theorem tablesOf_of_vpn {v w : U64} (p : PagemapId) (h : vpn v = vpn w) :
    tablesOf p v = tablesOf p w := by
  unfold tablesOf
  simp only [upperHalf_iff, h]

@[simp] theorem tablesOf_kernel (v : U64) : tablesOf .kernel v = .kernel := by
  unfold tablesOf
  split_ifs <;> rfl

/-! ## Model -/

namespace Machine

/-- `alloc_page_for_page_table` (mem/vmm.cpp:119-123). -/
def allocPageForPageTable (m : Machine) (p : PagemapId) : Except Panic (Pfn × Machine) := do
  let (f, m) ← m.allocPage
  .ok (f, m.linkLast (.tables p) f)

/-- `find_page_table_entry(virt)` (mem/vmm.cpp:160-180): the entry's value, `none` for a
    null pointer. -/
def findEntry (m : Machine) (p : PagemapId) (virt : U64) : Option U64 :=
  Radix.lookup (m.pagemap (tablesOf p virt)).pml4 (tableIndex virt)

/-- Replaces the tables of a page map. -/
def setTables (m : Machine) (o : PagemapId) (t : PageTable) : Machine :=
  m.setPagemap o { m.pagemap o with pml4 := t }

/-- `find_page_table_entry(virt, true)`: each missing table is made by
    `create_next_page_table` (mem/vmm.cpp:125-130), with `this == p` owning its page. -/
def createEntry (m : Machine) (p : PagemapId) (virt : U64) : Except Panic Machine := do
  let o := tablesOf p virt
  let (t, m) ← Radix.ensure (fun m => m.allocPageForPageTable p) 0#64
    (pagePresent ||| pageWritable ||| pageUser) (m.pagemap o).pml4 (tableIndex virt) m
  .ok (m.setTables o t)

/-- `*entry = x` for the entry of `virt`. -/
def writeEntry (m : Machine) (p : PagemapId) (virt x : U64) : Machine :=
  let o := tablesOf p virt
  m.setTables o (Radix.write (m.pagemap o).pml4 (tableIndex virt) x)

/-- `map_page` (mem/vmm.cpp:132-138); the TLB is not modelled. -/
def mapPage (m : Machine) (p : PagemapId) (phy virt flags : U64) : Except Panic Machine := do
  let m ← m.createEntry p virt
  .ok (m.writeEntry p virt ((phy &&& frameMask) ||| flags))

/-- The entry of `virt`, `0` where a table is missing. -/
def entry (m : Machine) (p : PagemapId) (virt : U64) : U64 := (m.findEntry p virt).getD 0#64

/-- The page of `virt` is present. -/
def Present (m : Machine) (p : PagemapId) (virt : U64) : Prop := isPresent (m.entry p virt) = true

instance (m : Machine) (p : PagemapId) (virt : U64) : Decidable (m.Present p virt) :=
  inferInstanceAs (Decidable (_ = true))

/-- The frame holds one of the tables of a page map. -/
def HasTable (m : Machine) (p : PagemapId) (f : Pfn) : Prop := Radix.HasPage (m.pagemap p).pml4 f

end Machine

/-! ## The table as a map -/

theorem findEntry_congr (m : Machine) {p p' : PagemapId} {v w : U64}
    (ho : tablesOf p v = tablesOf p' w) (hv : vpn v = vpn w) :
    m.findEntry p v = m.findEntry p' w := by
  unfold findEntry
  rw [ho]
  exact Radix.lookup_congr _ ((tableIndex_eq_iff v w).mpr hv)

theorem entry_congr (m : Machine) {p p' : PagemapId} {v w : U64}
    (ho : tablesOf p v = tablesOf p' w) (hv : vpn v = vpn w) : m.entry p v = m.entry p' w := by
  unfold entry
  rw [findEntry_congr m ho hv]

theorem findEntry_writeEntry (m : Machine) (p p' : PagemapId) (v w x : U64) :
    (m.writeEntry p v x).findEntry p' w =
      if tablesOf p' w = tablesOf p v ∧ vpn w = vpn v then (m.findEntry p' w).map (fun _ => x)
      else m.findEntry p' w := by
  unfold findEntry writeEntry setTables setPagemap
  dsimp only
  by_cases ho : tablesOf p' w = tablesOf p v
  · rw [ho, Function.update_self, Radix.lookup_write]
    simp only [tableIndex_eq_iff, true_and]
  · rw [Function.update_of_ne ho, if_neg (fun h => ho h.1)]

theorem isSome_findEntry_of_present {m : Machine} {p : PagemapId} {v : U64}
    (h : m.Present p v) : (m.findEntry p v).isSome := by
  unfold Machine.Present entry at h
  cases hf : m.findEntry p v with
  | none => simp [hf] at h
  | some e => rfl

/-- Writing through the pointer to the entry of `v` changes the entry of the page of `v`
    and no other. -/
theorem entry_writeEntry {m : Machine} {p : PagemapId} {v : U64} (h : (m.findEntry p v).isSome)
    (p' : PagemapId) (w x : U64) :
    (m.writeEntry p v x).entry p' w =
      if tablesOf p' w = tablesOf p v ∧ vpn w = vpn v then x else m.entry p' w := by
  unfold entry
  rw [findEntry_writeEntry]
  split_ifs with hc
  · rw [findEntry_congr m hc.1 hc.2]
    obtain ⟨e, he⟩ := Option.isSome_iff_exists.mp h
    rw [he]
    rfl
  · rfl

theorem isSome_findEntry_writeEntry (m : Machine) (p p' : PagemapId) (v w x : U64) :
    ((m.writeEntry p v x).findEntry p' w).isSome = (m.findEntry p' w).isSome := by
  rw [findEntry_writeEntry]
  split_ifs <;> simp

theorem hasTable_writeEntry (m : Machine) (p p' : PagemapId) (v x : U64) (f : Pfn) :
    (m.writeEntry p v x).HasTable p' f ↔ m.HasTable p' f := by
  unfold Machine.HasTable writeEntry setTables setPagemap
  dsimp only
  by_cases ho : p' = tablesOf p v
  · subst ho
    rw [Function.update_self]
    exact Radix.hasPage_write _ _ _ _
  · rw [Function.update_of_ne ho]

/-! ## Creating tables -/

/-- `m'` is `m` after `alloc_page_for_page_table` has taken the pages `fs` for page map `p`. -/
structure TookTables (p : PagemapId) (m : Machine) (fs : List Pfn) (m' : Machine) : Prop where
  freelist : m.list .freelist = fs ++ m'.list .freelist
  tables : m'.list (.tables p) = m.list (.tables p) ++ fs
  list_other : ∀ l, l ≠ .freelist → l ≠ .tables p → m'.list l = m.list l
  nodup : fs.Nodup
  free : ∀ f ∈ fs, (m.page f).free = true
  page_took : ∀ f ∈ fs, m'.page f = { m.page f with free := false, link := some (.tables p) }
  page_other : ∀ f, f ∉ fs → m'.page f = m.page f
  same : m' = { m with page := m'.page, list := m'.list }

theorem TookTables.refl (p : PagemapId) (m : Machine) : TookTables p m [] m :=
  ⟨rfl, by simp, fun _ _ _ => rfl, List.nodup_nil, by simp, by simp, fun _ _ => rfl, rfl⟩

theorem allocPageForPageTable_spec {m m' : Machine} {p : PagemapId} {f : Pfn}
    (h : m.allocPageForPageTable p = .ok (f, m')) : TookTables p m [f] m' := by
  unfold allocPageForPageTable at h
  obtain ⟨⟨g, m1⟩, h1, h⟩ := bind_ok h
  cases h
  obtain ⟨rest, hl, hfree, rfl⟩ := allocPage_spec h1
  refine ⟨?_, ?_, ?_, by simp, by simpa using hfree, ?_, ?_, rfl⟩
  · simp [linkLast, setList, setPage, hl]
  · simp [linkLast, setList, setPage]
  · intro l h1 h2
    simp [linkLast, setList, setPage, h1, h2]
  · intro g hg
    rw [List.mem_singleton] at hg
    subst hg
    simp [linkLast, setList, setPage]
  · intro g hg
    rw [List.mem_singleton] at hg
    simp [linkLast, setList, setPage, Function.update_of_ne hg]

theorem TookTables.trans {p : PagemapId} {m m1 m2 : Machine} {fs gs : List Pfn}
    (h : TookTables p m fs m1) (h' : TookTables p m1 gs m2) : TookTables p m (fs ++ gs) m2 := by
  have hdisj : ∀ f ∈ fs, f ∉ gs := by
    intro f hf hg
    have h1 := h'.free f hg
    rw [h.page_took f hf] at h1
    simp at h1
  refine ⟨?_, ?_, ?_, ?_, ?_, ?_, ?_, ?_⟩
  · rw [h.freelist, h'.freelist, List.append_assoc]
  · rw [h'.tables, h.tables, List.append_assoc]
  · intro l h1 h2
    rw [h'.list_other l h1 h2, h.list_other l h1 h2]
  · exact List.nodup_append.mpr ⟨h.nodup, h'.nodup, fun a ha b hb hab => hdisj a ha (hab ▸ hb)⟩
  · intro f hf
    rcases List.mem_append.mp hf with hf | hf
    · exact h.free f hf
    · have := h'.free f hf
      rwa [h.page_other f (fun hf' => hdisj f hf' hf)] at this
  · intro f hf
    rcases List.mem_append.mp hf with hf | hf
    · rw [h'.page_other f (hdisj f hf), h.page_took f hf]
    · rw [h'.page_took f hf, h.page_other f (fun hf' => hdisj f hf' hf)]
  · intro f hf
    rw [List.mem_append, not_or] at hf
    rw [h'.page_other f hf.2, h.page_other f hf.1]
  · rw [h'.same, h.same]

theorem tookTables_of_allocs {p : PagemapId} {m m' : Machine} {fs : List Pfn}
    (h : Radix.Allocs (fun m => allocPageForPageTable m p) m fs m') :
    TookTables p m fs m' := by
  induction h with
  | nil m => exact .refl p m
  | cons ha _ ih => exact (allocPageForPageTable_spec ha).trans ih

/-- What `find_page_table_entry(virt, true)` does: the page map takes the pages `fs` for
    the missing tables of the path, and the entries found are those found before. -/
theorem createEntry_spec {m m' : Machine} {p : PagemapId} {v : U64}
    (h : m.createEntry p v = .ok m') :
    ∃ fs m1 t, TookTables p m fs m1 ∧ m' = m1.setTables (tablesOf p v) t ∧
      (m'.findEntry p v).isSome ∧ (∀ p' w, m'.entry p' w = m.entry p' w) ∧
      (∀ p' w, (m.findEntry p' w).isSome → m'.findEntry p' w = m.findEntry p' w) ∧
      (∀ p' f, m'.HasTable p' f ↔ m.HasTable p' f ∨ p' = tablesOf p v ∧ f ∈ fs) := by
  unfold createEntry at h
  obtain ⟨⟨t, m1⟩, h1, h⟩ := bind_ok h
  cases h
  obtain ⟨fs, hfs, hp, hq, hg⟩ := Radix.ensure_spec _ _ _ _ _ _ _ _ h1
  have ht := tookTables_of_allocs hfs
  have hpm : m1.pagemap = m.pagemap := by rw [ht.same]
  have hlook : ∀ p' w, (m1.setTables (tablesOf p v) t).findEntry p' w = m.findEntry p' w ∨
      m.findEntry p' w = none ∧ (m1.setTables (tablesOf p v) t).findEntry p' w = some 0#64 := by
    intro p' w
    unfold findEntry setTables setPagemap
    dsimp only
    by_cases ho : tablesOf p' w = tablesOf p v
    · rw [ho, Function.update_self]
      exact hq (tableIndex w)
    · rw [Function.update_of_ne ho, hpm]
      exact Or.inl rfl
  refine ⟨fs, m1, t, ht, rfl, ?_, ?_, ?_, ?_⟩
  · unfold findEntry setTables setPagemap
    dsimp only
    rw [Function.update_self]
    exact hp
  · intro p' w
    unfold entry
    rcases hlook p' w with h | ⟨h0, h⟩
    · rw [h]
    · rw [h, h0]
      rfl
  · intro p' w hw
    rcases hlook p' w with h | ⟨h0, -⟩
    · exact h
    · rw [h0] at hw
      cases hw
  · intro p' f
    unfold Machine.HasTable setTables setPagemap
    dsimp only
    by_cases ho : p' = tablesOf p v
    · subst ho
      rw [Function.update_self, hg]
      simp
    · rw [Function.update_of_ne ho, hpm]
      simp [ho]

end Fishix.Mem
