import Fishix.Mem.Ownership
import Fishix.Mem.Fault

/-!
# What `fork` does

`fork` rebuilds the tables of the lower half without their present entries, then copies
the ranges one by one and, for an ANONYMOUS or FILE range, the pages of its list, mapping
each copy at the `mapped_addr` of the original. `Forking` is the state in the middle of
the copying: which ranges and which pages have been copied so far.

* `forkStart_yields`: the table phase.
* `Forking.copyPage`, `Forking.newRange`: one page, one range.
* `fork_copies`: the whole call, which returns unless the freelist is too short for the
  pages it needs (`forkCost`).
-/

namespace Fishix.Mem

open Function (update update_self update_of_ne update_apply)

/-! ## Allocation -/

/-- The freelist holds distinct pages, all of them marked free. -/
structure FreelistOk (m : Machine) : Prop where
  nodup : (m.list .freelist).Nodup
  free : ∀ f ∈ m.list .freelist, (m.page f).free = true

/-- `alloc_page` fails only on an empty freelist. -/
theorem FreelistOk.alloc_error {m : Machine} (h : FreelistOk m) {e : Panic}
    (he : m.allocPage = .error e) : e = .outOfPhysicalMemory ∧ m.list .freelist = [] := by
  unfold Machine.allocPage at he
  split at he
  · rename_i hnil
    cases he
    exact ⟨rfl, hnil⟩
  · rename_i f rest hl
    rw [h.free f (by rw [hl]; simp)] at he
    cases he

/-- An address whose tables exist needs no new ones. -/
theorem createEntry_of_isSome {m : Machine} {p : PagemapId} {v : U64}
    (h : (m.findEntry p v).isSome) : m.createEntry p v = .ok m := by
  unfold Machine.createEntry
  dsimp only
  rw [Radix.ensure_of_isSome _ _ _ _ _ _ h]
  show Except.ok (m.setTables _ _) = _
  unfold Machine.setTables Machine.setPagemap
  rw [Function.update_eq_self]

theorem phy_and_frameMask (f : Pfn) : f.phy &&& frameMask = f.phy := by
  rw [and_frameMask]
  have h : frameOf (f.phy ||| 0#64) = f := frameOf_phy_or (by decide)
  rw [BitVec.or_zero] at h
  rw [h]

/-! ## Copying one page -/

/-- `m1` with the copy `f` of page `old` of `m` in range `new` of `q`. -/
def copiedPage (m m1 : Machine) (q : PagemapId) (new : RangeId) (old f : Pfn) : Machine :=
  (relinked m1 q (m.page old).mappedAddr new f).setFrame f (m.frame old)

theorem mapPage_of_isSome {m : Machine} {p : PagemapId} {v : U64}
    (h : (m.findEntry p v).isSome) (f : Pfn) (flags : U64) :
    m.mapPage p f.phy v flags = .ok (m.writeEntry p v (f.phy ||| flags)) := by
  unfold Machine.mapPage
  rw [createEntry_of_isSome h, ok_bind, phy_and_frameMask]

/-- The loop over `page_list` for an address whose tables exist. -/
theorem forkPage_eq {m : Machine} {q : PagemapId} {new : RangeId} {old : Pfn}
    (h : (m.findEntry q (m.page old).mappedAddr).isSome) :
    Machine.forkPage q new m old =
      m.allocPage >>= fun fm => .ok (copiedPage m fm.2 q new old fm.1) := by
  unfold Machine.forkPage
  cases ha : m.allocPage with
  | error e => rfl
  | ok fm =>
    obtain ⟨f, m1⟩ := fm
    have hmaps : m1.pagemap = m.pagemap := by
      obtain ⟨-, -, -, rfl⟩ := allocPage_spec ha
      rfl
    have haddr : (m1.page old).mappedAddr = (m.page old).mappedAddr := by
      obtain ⟨rest, -, -, rfl⟩ := allocPage_spec ha
      simp only [Machine.setPage, Machine.setList, update_apply]
      split_ifs with ho
      · rw [ho]
      · rfl
    simp only [ok_bind]
    have hpage : (((m1.setPage f { m1.page f with mappedAddr := (m1.page old).mappedAddr }).linkLast
        (.range new) f).page f).mappedAddr = (m.page old).mappedAddr := by
      rw [← haddr]
      simp [Machine.linkLast, Machine.setPage, Machine.setList]
    have hsome : (((m1.setPage f { m1.page f with mappedAddr := (m1.page old).mappedAddr }).linkLast
        (.range new) f).findEntry q (m.page old).mappedAddr).isSome := by
      unfold Machine.findEntry at h ⊢
      rw [← hmaps] at h
      exact h
    rw [hpage, mapPage_of_isSome hsome, haddr, ok_bind]
    have hframe : m1.frame = m.frame := (pagesOnly_allocPage ha).frame
    unfold copiedPage
    rw [← hframe]
    rfl

section CopiedPage

variable {m m1 : Machine} {f : Pfn} (ha : m.allocPage = .ok (f, m1)) (q : PagemapId)
  (new : RangeId) (g : Pfn)

include ha

theorem list_copiedPage (l : ListId) : (copiedPage m m1 q new g f).list l =
    if l = .range new then m.list l ++ [f]
    else if l = .freelist then (m.list .freelist).tail else m.list l := by
  obtain ⟨rest, hl, -, rfl⟩ := allocPage_spec ha
  show update (update m.list .freelist rest) (.range new)
    (update m.list .freelist rest (.range new) ++ [f]) l = _
  rw [update_apply]
  split_ifs with h1 h2
  · rw [h1, update_of_ne (by simp)]
  · rw [h2, update_self, hl]
    rfl
  · rw [update_of_ne h2]

theorem page_copiedPage {x : Pfn} (hx : x ≠ f) :
    (copiedPage m m1 q new g f).page x = m.page x := by
  obtain ⟨rest, -, -, rfl⟩ := allocPage_spec ha
  show update (update (update m.page f _) f _) f _ x = _
  rw [update_of_ne hx, update_of_ne hx, update_of_ne hx]

theorem frame_copiedPage (x : Pfn) :
    (copiedPage m m1 q new g f).frame x = if x = f then m.frame g else m.frame x := by
  obtain ⟨rest, -, -, rfl⟩ := allocPage_spec ha
  show update m.frame f (m.frame g) x = _
  rw [update_apply]

theorem pagemap_copiedPage (hv : LowerPage (m.page g).mappedAddr) {p : PagemapId} (hp : p ≠ q) :
    (copiedPage m m1 q new g f).pagemap p = m.pagemap p := by
  obtain ⟨rest, -, -, rfl⟩ := allocPage_spec ha
  show update m.pagemap (tablesOf q (m.page g).mappedAddr) _ p = _
  rw [hv.tablesOf, update_of_ne hp]

theorem entry_copiedPage (hsome : (m.findEntry q (m.page g).mappedAddr).isSome) (w : U64) :
    (copiedPage m m1 q new g f).entry q w =
      if tablesOf q w = tablesOf q (m.page g).mappedAddr ∧ vpn w = vpn (m.page g).mappedAddr then
        f.phy ||| (m.range new).pageFlags else m.entry q w := by
  obtain ⟨rest, -, -, rfl⟩ := allocPage_spec ha
  show (Machine.writeEntry _ q (m.page g).mappedAddr (f.phy ||| (m.range new).pageFlags)).entry
    q w = _
  rw [entry_writeEntry]
  · rfl
  · exact hsome

theorem cache_copiedPage (p : PagemapId) :
    ((copiedPage m m1 q new g f).pagemap p).cachedRangeLookup =
      (m.pagemap p).cachedRangeLookup :=
  ((pagesOnly_allocPage ha).trans (pagesOnly_relinked m1 q (m.page g).mappedAddr new
    f)).cachedRangeLookup p

theorem sameRanges_copiedPage : SameRanges q m (copiedPage m m1 q new g f) :=
  ((pagesOnly_allocPage ha).trans (pagesOnly_relinked m1 q _ new f)).sameRanges q |>.trans
    ⟨rfl, rfl, fun _ => rfl, rfl, rfl, rfl, rfl, rfl, fun _ _ => rfl⟩

theorem isSome_findEntry_copiedPage (v : U64) :
    ((copiedPage m m1 q new g f).findEntry q v).isSome = (m.findEntry q v).isSome := by
  obtain ⟨rest, -, -, rfl⟩ := allocPage_spec ha
  show ((Machine.writeEntry _ q _ _).findEntry q v).isSome = _
  rw [isSome_findEntry_writeEntry]
  rfl

theorem hasTable_copiedPage (x : Pfn) :
    (copiedPage m m1 q new g f).HasTable q x ↔ m.HasTable q x := by
  obtain ⟨rest, -, -, rfl⟩ := allocPage_spec ha
  show (Machine.writeEntry _ q _ _).HasTable q x ↔ _
  rw [hasTable_writeEntry]
  rfl

end CopiedPage

/-! ## The table phase -/

/-- The number of tables of the lower half below the PML4. -/
def lowerTables (t : PageTable) : ℕ :=
  (((List.finRange 512).take 256).map fun i =>
    Radix.slotTables (Radix.tablesBelow (List.finRange 512)) (t.2 i)).sum

theorem mem_take_finRange (i : Fin 512) : i ∈ (List.finRange 512).take 256 ↔ i.val < 256 := by
  rw [List.mem_iff_getElem]
  constructor
  · rintro ⟨j, hj, rfl⟩
    simp only [List.length_take, List.length_finRange] at hj
    simp only [List.getElem_take, List.getElem_finRange, Fin.val_cast]
    omega
  · intro hi
    refine ⟨i.val, ?_, ?_⟩
    · simp only [List.length_take, List.length_finRange]
      omega
    · simp only [List.getElem_take, List.getElem_finRange]
      rfl

theorem FreelistOk.tookTables {m m' : Machine} {q : PagemapId} {fs : List Pfn} (h : FreelistOk m)
    (ht : TookTables q m fs m') : FreelistOk m' := by
  have hnd := h.nodup
  rw [ht.freelist, List.nodup_append] at hnd
  refine ⟨hnd.2.1, fun f hf => ?_⟩
  rw [ht.page_other f (fun hfs => hnd.2.2 f hfs f hf rfl)]
  exact h.free f (by rw [ht.freelist]; exact List.mem_append_right _ hf)

theorem FreelistOk.allocTable_error {m : Machine} {q : PagemapId} (h : FreelistOk m) {e : Panic}
    (he : m.allocPageForPageTable q = .error e) :
    e = .outOfPhysicalMemory ∧ m.list .freelist = [] := by
  unfold Machine.allocPageForPageTable at he
  rcases bind_error_iff.mp he with he | ⟨x, -, he⟩
  · exact h.alloc_error he
  · cases he

/-- `m0` is `m` with a new page map `q` that has the tables of the lower half of `p` and no
    present entry. -/
structure TablesForked (m : Machine) (p q : PagemapId) (m0 : Machine) : Prop where
  taken : ∃ fs, m.list .freelist = fs ++ m0.list .freelist ∧
    fs.length = 1 + lowerTables (m.pagemap p).pml4 ∧ m0.list (.tables q) = fs ∧
    (∀ f ∈ fs, m0.page f = { m.page f with free := false, link := some (.tables q) }) ∧
    (∀ f ∉ fs, m0.page f = m.page f) ∧ ∀ g, m0.HasTable q g → g ∈ fs
  lists : ∀ l, l ≠ .freelist → l ≠ .tables q → m0.list l = m.list l
  pagemap : ∀ r, r ≠ q → m0.pagemap r = m.pagemap r
  rangeList : m0.rangeList q = []
  cache : (m0.pagemap q).cachedRangeLookup = none
  live : m0.live = update m.live q true
  rest : m0 = { m with page := m0.page, list := m0.list, pagemap := m0.pagemap, live := m0.live }
  entry : ∀ v, LowerPage v → m0.findEntry q v =
    (m.findEntry p v).map fun e => if isPresent e then 0#64 else e

/-- The table phase of a completed `fork`. -/
theorem tablesForked_forkStart {m m0 : Machine} {p q : PagemapId}
    (h : m.forkStart p q = .ok m0) : TablesForked m p q m0 := by
  unfold Machine.forkStart at h
  dsimp only at h
  obtain ⟨⟨f, m1⟩, ha, h⟩ := bind_ok h
  obtain ⟨⟨t, m2⟩, hc, h⟩ := bind_ok h
  cases h
  have hlist1 : ∀ l, (m.setList (.tables q) []).list l = if l = .tables q then [] else m.list l := by
    intro l
    show update m.list (.tables q) [] l = _
    rw [update_apply]
  have hfree1 : (m.setList (.tables q) []).list .freelist = m.list .freelist := by
    rw [hlist1, if_neg (by simp)]
  have ht1 := allocPageForPageTable_spec ha
  have hmaps1 : m1.pagemap = m.pagemap := by rw [ht1.same]; rfl
  rw [hmaps1] at hc
  unfold Machine.forkTables at hc
  have hcopy := Radix.copy_spec (fun m => Machine.allocPageForPageTable m q) 0#64 isPresent
    (List.nodup_finRange 512) (fun i => List.mem_finRange i)
  obtain ⟨fs, hfs, hlen, hpg, hout, hin⟩ := Radix.copySlots_spec (hcopy 2)
    (m.pagemap p).pml4 _ ((List.nodup_finRange 512).sublist (List.take_sublist 256 _)) _ _ _ _ hc
  have ht2 := ht1.trans (tookTables_of_allocs hfs)
  have hmaps2 : m2.pagemap = m.pagemap := by rw [ht2.same]; rfl
  have hpm : ∀ r, update m2.pagemap q
      { pml4 := t, rangeList := [], cachedRangeLookup := none } r =
      if r = q then { pml4 := t, rangeList := [], cachedRangeLookup := none }
      else m.pagemap r := by
    intro r
    rw [update_apply, hmaps2]
  refine ⟨⟨[f] ++ fs, ?_, ?_, ?_, ?_, ?_, ?_⟩, ?_, ?_, ?_, ?_, ?_, ?_, ?_⟩
  · rw [← hfree1]
    exact ht2.freelist
  · rw [List.length_append, hlen]
    rfl
  · show m2.list (.tables q) = _
    rw [ht2.tables, hlist1, if_pos rfl, List.nil_append]
  · exact ht2.page_took
  · exact ht2.page_other
  · intro g hg
    have hg' : Radix.HasPage t g := by
      have hg0 : Radix.HasPage (update m2.pagemap q
          { pml4 := t, rangeList := [], cachedRangeLookup := none } q).pml4 g := hg
      rwa [update_self] at hg0
    rcases hg' with hg' | ⟨i, fl, c, hi, hg'⟩
    · rw [hpg] at hg'
      have : f = g := hg'
      simp [this]
    · by_cases hmem : i ∈ (List.finRange 512).take 256
      · have hslot := hin i hmem
        rw [hi] at hslot
        cases hs : (m.pagemap p).pml4.2 i with
        | absent raw =>
          rw [hs] at hslot
          cases hslot
        | next fl' c0 =>
          rw [hs] at hslot
          obtain ⟨c', h1, -, h3⟩ := hslot
          cases h1
          exact List.mem_append_right _ (h3 g hg')
      · rw [hout i hmem] at hi
        cases hi
  · intro l h1 h2
    show m2.list l = _
    rw [ht2.list_other l h1 h2, hlist1, if_neg h2]
  · intro r hr
    show update m2.pagemap q _ r = _
    rw [hpm, if_neg hr]
  · show (update m2.pagemap q _ q).rangeList = _
    rw [update_self]
  · show (update m2.pagemap q _ q).cachedRangeLookup = _
    rw [update_self]
  · show update m2.live q true = _
    rw [ht2.same]
    rfl
  · rw [ht2.same]
    rfl
  · intro v hv
    unfold Machine.findEntry
    rw [hv.tablesOf, hv.tablesOf]
    show Radix.lookup (update m2.pagemap q _ q).pml4 _ = _
    rw [update_self]
    refine Radix.lookup_of_slotCopy (hin _ ((mem_take_finRange _).mpr ?_))
    show (tableIndex v 3).val < 256
    have := hv.not_upper
    unfold UpperHalf at this
    omega

/-- The table phase fails only if the freelist is too short. -/
theorem forkStart_fails {m : Machine} {p q : PagemapId} (hfl : FreelistOk m) {e : Panic}
    (h : m.forkStart p q = .error e) : e = .outOfPhysicalMemory ∧
      (m.list .freelist).length < 1 + lowerTables (m.pagemap p).pml4 := by
  unfold Machine.forkStart at h
  dsimp only at h
  have hfree1 : (m.setList (.tables q) []).list .freelist = m.list .freelist := by
    show update m.list (.tables q) [] .freelist = _
    rw [update_of_ne (by simp)]
  have hfl1 : FreelistOk (m.setList (.tables q) []) := by
    refine ⟨?_, ?_⟩
    · rw [hfree1]
      exact hfl.nodup
    · rw [hfree1]
      exact hfl.free
  have hcopy := Radix.copy_spec (fun m => Machine.allocPageForPageTable m q) 0#64 isPresent
    (List.nodup_finRange 512) (fun i => List.mem_finRange i)
  have hfails := Radix.copy_fails (fun m => Machine.allocPageForPageTable m q) 0#64 isPresent
    (List.nodup_finRange 512) (fun i => List.mem_finRange i)
  rcases bind_error_iff.mp h with ha | ⟨⟨f, m1⟩, ha, h⟩
  · obtain ⟨h1, h2⟩ := hfl1.allocTable_error ha
    rw [hfree1] at h2
    refine ⟨h1, ?_⟩
    rw [h2, List.length_nil]
    omega
  · have ht1 := allocPageForPageTable_spec ha
    have hmaps1 : m1.pagemap = m.pagemap := by rw [ht1.same]; rfl
    rcases bind_error_iff.mp h with hc | ⟨x, -, hx⟩
    · dsimp only at hc
      rw [hmaps1] at hc
      unfold Machine.forkTables at hc
      obtain ⟨fs, m2, hfs, herr, hlen⟩ := Radix.copySlots_fails (hcopy 2) (hfails 2)
        (m.pagemap p).pml4 _ _ _ _ hc
      have ht2 := ht1.trans (tookTables_of_allocs hfs)
      obtain ⟨h1, h2⟩ := (hfl1.tookTables ht2).allocTable_error herr
      refine ⟨h1, ?_⟩
      rw [← hfree1, ht2.freelist, h2]
      simp only [List.cons_append, List.nil_append, List.append_nil, List.length_cons]
      unfold lowerTables
      omega
    · cases hx

theorem forkStart_yields {m : Machine} {p q : PagemapId} (hfl : FreelistOk m) :
    Yields (TablesForked m p q)
      (fun e => e = .outOfPhysicalMemory ∧
        (m.list .freelist).length < 1 + lowerTables (m.pagemap p).pml4)
      (m.forkStart p q) := by
  cases h : m.forkStart p q with
  | ok m0 => exact tablesForked_forkStart h
  | error e => exact forkStart_fails hfl h

/-! ## The state in the middle of the copying -/

/-- The copy of a range (mem/vmm.cpp:364). -/
def forkedRange (old : MappedRange) : MappedRange := (Machine.forkArgs old).toRange old.type_ne

/-- `m` with a copy of `old` linked into the list of `q`. -/
def linkedCopy (m : Machine) (q : PagemapId) (old : MappedRange) : Machine :=
  ((m.clearCache q).newRange q (Machine.forkArgs old) old.type_ne).2

section

variable (m : Machine) (q : PagemapId) (old : MappedRange)

include m q old

theorem linkedCopy_spec : NewRange (m.clearCache q) q (forkedRange old) (linkedCopy m q old) :=
  newRange_spec (m.clearCache q) q (Machine.forkArgs old) old.type_ne

theorem rangesOnly_linkedCopy : RangesOnly m (linkedCopy m q old) :=
  (rangesOnly_clearCache m q).trans (linkedCopy_spec m q old).only

theorem range_linkedCopy (s : RangeId) :
    (linkedCopy m q old).range s = if s = m.nextRange then forkedRange old else m.range s := by
  rw [(linkedCopy_spec m q old).range, nextRange_clearCache]
  rfl

theorem nextRange_linkedCopy :
    (linkedCopy m q old).nextRange = m.nextRange + 1 := (linkedCopy_spec m q old).nextRange

theorem mem_rangeList_linkedCopy (s : RangeId) :
    s ∈ (linkedCopy m q old).rangeList q ↔ s = m.nextRange ∨ s ∈ m.rangeList q := by
  have h := (linkedCopy_spec m q old).perm
  rw [nextRange_clearCache, rangeList_clearCache] at h
  rw [h.mem_iff, List.mem_cons]

end

theorem pagemap_linkedCopy (m : Machine) {p q : PagemapId} (old : MappedRange) (hp : p ≠ q) :
    (linkedCopy m q old).pagemap p = m.pagemap p := by
  have hspec := linkedCopy_spec m q old
  apply Pagemap.ext
  · exact (rangesOnly_linkedCopy m q old).pml4 p
  · exact (hspec.rangeList_other p hp).trans (rangeList_clearCache m q p)
  · rw [hspec.cache p]
    show (update m.pagemap q _ p).cachedRangeLookup = _
    rw [update_of_ne hp]

theorem cache_linkedCopy (m : Machine) (q : PagemapId) (old : MappedRange) :
    ((linkedCopy m q old).pagemap q).cachedRangeLookup = none :=
  ((linkedCopy_spec m q old).cache q).trans
    ((cachedRangeLookup_setCache m q q none).trans (if_pos rfl))

/-- The call of `add_range` that copies a range. -/
theorem addRange_forkArgs (m : Machine) (q : PagemapId) (old : MappedRange) :
    m.addRange q (Machine.forkArgs old) = .ok (some m.nextRange, linkedCopy m q old) := by
  unfold Machine.addRange
  have h : (Machine.forkArgs old).resolveOverlap = false := rfl
  rw [h]
  exact finishAddRange_link (m.clearCache q) q (a := Machine.forkArgs old) old.type_ne rfl

/-- Page `g` of range `r` has been copied: a page off the freelist with its contents is
    mapped in `q` at its address, with the flags of the range. -/
def CopiedAt (m0 : Machine) (q : PagemapId) (m : Machine) (r : RangeId) (g : Pfn) : Prop :=
  LowerPage (m0.page g).mappedAddr ∧ ∃ f, f ∈ m0.list .freelist ∧ f ∉ m.list .freelist ∧
    m.entry q (m0.page g).mappedAddr = f.phy ||| (m0.range r).pageFlags ∧ m.frame f = m0.frame g

/-- From `m0`, the ranges `rs` and the pages `cs` have been copied into page map `q`. -/
structure Forking (m0 : Machine) (q : PagemapId) (rs : List RangeId) (cs : List (RangeId × Pfn))
    (m : Machine) : Prop where
  taken : ∃ fs, m0.list .freelist = fs ++ m.list .freelist ∧ fs.length = cs.length
  page : ∀ g, g ∉ m0.list .freelist ∨ g ∈ m.list .freelist → m.page g = m0.page g
  frame : ∀ g, g ∉ m0.list .freelist → m.frame g = m0.frame g
  lists : ∀ l, l ≠ .freelist → (∀ r, l = .range r → r < m0.nextRange) → m.list l = m0.list l
  range : ∀ r, r < m0.nextRange → m.range r = m0.range r
  next : m0.nextRange ≤ m.nextRange
  pagemap : ∀ p, p ≠ q → m.pagemap p = m0.pagemap p
  found : ∀ v, (m.findEntry q v).isSome = (m0.findEntry q v).isSome
  table : ∀ g, m.HasTable q g ↔ m0.HasTable q g
  live : m.live = m0.live
  regions : m.regions = m0.regions
  fileRead : m.fileRead = m0.fileRead
  ranges : ∀ s ∈ m.rangeList q, m0.nextRange ≤ s ∧ s < m.nextRange ∧
    ∃ r ∈ rs, m.range s = forkedRange (m0.range r)
  copied : ∀ r ∈ rs, ∃ s ∈ m.rangeList q, m.range s = forkedRange (m0.range r)
  copies : ∀ c ∈ cs, CopiedAt m0 q m c.1 c.2
  present : ∀ v, LowerPage v → m.Present q v → ∃ c ∈ cs, (m0.page c.2).mappedAddr = v
  cache : (m.pagemap q).cachedRangeLookup = none

/-- The loop over `page_list` is about to copy page `g` of range `r` into range `new`. -/
structure CopyStep (m0 : Machine) (q : PagemapId) (rs : List RangeId) (cs : List (RangeId × Pfn))
    (m : Machine) (r new : RangeId) (g : Pfn) : Prop where
  forking : Forking m0 q rs cs m
  listed : g ∈ m0.list (.range r)
  used : g ∉ m0.list .freelist
  lower : LowerPage (m0.page g).mappedAddr
  found : (m0.findEntry q (m0.page g).mappedAddr).isSome
  fresh : ∀ c ∈ cs, (m0.page c.2).mappedAddr ≠ (m0.page g).mappedAddr
  mem : new ∈ m.rangeList q
  ge : m0.nextRange ≤ new
  range : m.range new = forkedRange (m0.range r)

namespace Forking

variable {m0 m m1 : Machine} {q : PagemapId} {rs : List RangeId} {cs : List (RangeId × Pfn)}

theorem freelist_sub (h : Forking m0 q rs cs m) {f : Pfn} (hf : f ∈ m.list .freelist) :
    f ∈ m0.list .freelist := by
  obtain ⟨fs, hfs, -⟩ := h.taken
  rw [hfs]
  exact List.mem_append_right _ hf

theorem freelistOk (h : Forking m0 q rs cs m) (h0 : FreelistOk m0) : FreelistOk m := by
  obtain ⟨fs, hfs, -⟩ := h.taken
  refine ⟨?_, fun f hf => ?_⟩
  · have := h0.nodup
    rw [hfs] at this
    exact (List.nodup_append.mp this).2.1
  · rw [h.page f (.inr hf)]
    exact h0.free f (h.freelist_sub hf)

/-- One iteration of the loop over `page_list`. -/
theorem copyPage {r new : RangeId} {g f : Pfn} (hstep : CopyStep m0 q rs cs m r new g)
    (h0 : FreelistOk m0) (ha : m.allocPage = .ok (f, m1)) :
    Forking m0 q rs (cs ++ [(r, g)]) (copiedPage m m1 q new g f) := by
  obtain ⟨h, -, hg, hv, hsome, hfresh, -, hnew, hrange⟩ := hstep
  obtain ⟨fs, hfs, hlen⟩ := h.taken
  obtain ⟨rest, hl, -, -⟩ := allocPage_spec ha
  have hfm : f ∈ m.list .freelist := by rw [hl]; simp
  have hf0 := h.freelist_sub hfm
  have hpg : m.page g = m0.page g := h.page g (.inl hg)
  have hnd : f ∉ rest := by
    have := (h.freelistOk h0).nodup
    rw [hl, List.nodup_cons] at this
    exact this.1
  have hfree : (copiedPage m m1 q new g f).list .freelist = rest := by
    rw [list_copiedPage ha, if_neg (by simp), if_pos rfl, hl]
    rfl
  have hframe := frame_copiedPage ha q new g
  rw [h.frame g hg] at hframe
  have hent : ∀ w, (copiedPage m m1 q new g f).entry q w =
      if tablesOf q w = tablesOf q (m0.page g).mappedAddr ∧ vpn w = vpn (m0.page g).mappedAddr then
        f.phy ||| (m0.range r).pageFlags else m.entry q w := by
    intro w
    rw [entry_copiedPage ha q new g, hrange, hpg]
    · rfl
    · rw [hpg, h.found]
      exact hsome
  have hother : ∀ w, LowerPage w → w ≠ (m0.page g).mappedAddr →
      (copiedPage m m1 q new g f).entry q w = m.entry q w := by
    intro w hw hne
    rw [hent, if_neg (fun hc => hne ((samePage_iff hv hw q q).mp hc).2)]
  have hsame := sameRanges_copiedPage ha q new g
  refine ⟨⟨fs ++ [f], ?_, by simp [hlen]⟩, ?_, ?_, ?_, ?_, ?_, ?_, ?_, ?_, ?_, ?_, ?_, ?_, ?_, ?_,
    ?_, by rw [cache_copiedPage ha, h.cache]⟩
  · rw [hfree, hfs, hl]
    simp
  · intro x hx
    rw [hfree] at hx
    have hxf : x ≠ f := by
      rintro rfl
      exact hx.elim (fun hx => hx hf0) hnd
    rw [page_copiedPage ha q new g hxf]
    refine h.page x (hx.imp id fun hx => ?_)
    rw [hl]
    exact List.mem_cons_of_mem _ hx
  · intro x hx
    rw [hframe, if_neg (fun he : x = f => hx (he ▸ hf0)), h.frame x hx]
  · intro l hlf hlr
    rw [list_copiedPage ha, if_neg, if_neg hlf, h.lists l hlf hlr]
    intro he
    exact absurd (hlr new he) (Nat.not_lt.mpr hnew)
  · intro x hx
    rw [hsame.range]
    exact h.range x hx
  · rw [hsame.nextRange]
    exact h.next
  · intro p hp
    rw [pagemap_copiedPage ha q new g (by rw [hpg]; exact hv) hp, h.pagemap p hp]
  · intro v
    rw [isSome_findEntry_copiedPage ha, h.found v]
  · intro x
    rw [hasTable_copiedPage ha, h.table x]
  · rw [hsame.live, h.live]
  · rw [hsame.regions, h.regions]
  · rw [hsame.fileRead, h.fileRead]
  · rw [hsame.rangeList, hsame.range, hsame.nextRange]
    exact h.ranges
  · rw [hsame.rangeList, hsame.range]
    exact h.copied
  · intro c hc
    rcases List.mem_append.mp hc with hc | hc
    · obtain ⟨hlow, f', h1, h2, h3, h4⟩ := h.copies c hc
      refine ⟨hlow, f', h1, ?_, ?_, ?_⟩
      · rw [hfree]
        intro hr
        exact h2 (by rw [hl]; exact List.mem_cons_of_mem _ hr)
      · rw [hother _ hlow (hfresh c hc), h3]
      · rw [hframe, if_neg (fun he : f' = f => h2 (he ▸ hfm)), h4]
    · rw [List.mem_singleton] at hc
      subst hc
      exact ⟨hv, f, hf0, by rw [hfree]; exact hnd, by rw [hent, if_pos ⟨rfl, rfl⟩],
        by rw [hframe, if_pos rfl]⟩
  · intro v hlow hp
    by_cases hvg : v = (m0.page g).mappedAddr
    · exact ⟨(r, g), by simp, hvg.symm⟩
    · unfold Machine.Present at hp
      rw [hother v hlow hvg] at hp
      obtain ⟨c, hc, h1⟩ := h.present v hlow hp
      exact ⟨c, List.mem_append_left _ hc, h1⟩

theorem newRange (h : Forking m0 q rs cs m) (r : RangeId) :
    Forking m0 q (rs ++ [r]) cs (linkedCopy m q (m0.range r)) := by
  have ho := rangesOnly_linkedCopy m q (m0.range r)
  have hold : ∀ s, s < m.nextRange → (linkedCopy m q (m0.range r)).range s = m.range s := by
    intro s hs
    rw [range_linkedCopy, if_neg hs.ne]
  have hnew : (linkedCopy m q (m0.range r)).range m.nextRange = forkedRange (m0.range r) := by
    rw [range_linkedCopy, if_pos rfl]
  refine ⟨?_, ?_, ?_, ?_, ?_, ?_, ?_, ?_, ?_, ?_, ?_, ?_, ?_, ?_, ?_, ?_, cache_linkedCopy m q _⟩
  · rw [ho.list]
    exact h.taken
  · rw [ho.list, ho.page]
    exact h.page
  · rw [ho.frame]
    exact h.frame
  · rw [ho.list]
    exact h.lists
  · intro s hs
    rw [hold s (hs.trans_le h.next), h.range s hs]
  · rw [nextRange_linkedCopy]
    exact h.next.trans (Nat.le_succ _)
  · intro p hp
    rw [pagemap_linkedCopy m _ hp, h.pagemap p hp]
  · intro v
    rw [ho.findEntry, h.found]
  · intro g
    unfold Machine.HasTable
    rw [ho.pml4]
    exact h.table g
  · rw [ho.live, h.live]
  · rw [ho.regions, h.regions]
  · rw [ho.fileRead, h.fileRead]
  · intro s hs
    rw [nextRange_linkedCopy]
    rcases (mem_rangeList_linkedCopy m q (m0.range r) s).mp hs with rfl | hs
    · exact ⟨h.next, Nat.lt_succ_self _, r, by simp, hnew⟩
    · obtain ⟨h1, h2, t, ht, h3⟩ := h.ranges s hs
      exact ⟨h1, h2.trans (Nat.lt_succ_self _), t, List.mem_append_left _ ht, by rw [hold s h2, h3]⟩
  · intro t ht
    rcases List.mem_append.mp ht with ht | ht
    · obtain ⟨s, hs, h1⟩ := h.copied t ht
      refine ⟨s, (mem_rangeList_linkedCopy _ _ _ _).mpr (.inr hs), ?_⟩
      rw [hold s (h.ranges s hs).2.1, h1]
    · rw [List.mem_singleton] at ht
      subst ht
      exact ⟨m.nextRange, (mem_rangeList_linkedCopy _ _ _ _).mpr (.inl rfl), hnew⟩
  · intro c hc
    obtain ⟨h1, f, h2, h3, h4, h5⟩ := h.copies c hc
    exact ⟨h1, f, h2, by rw [ho.list]; exact h3, by rw [ho.entry]; exact h4, by rw [ho.frame]; exact h5⟩
  · intro v hv hp
    unfold Machine.Present at hp
    rw [ho.entry] at hp
    exact h.present v hv hp

end Forking

/-! ## The copying loops -/

/-- The type of a range whose pages `fork` copies. -/
def MappedRange.Paged (e : MappedRange) : Prop := e.type = .anonymous ∨ e.type = .file

instance (e : MappedRange) : Decidable e.Paged := inferInstanceAs (Decidable (_ ∨ _))

/-- The pages `fork` copies, with their ranges, in the order it does. -/
def forkPairs (m : Machine) (rs : List RangeId) : List (RangeId × Pfn) :=
  rs.flatMap fun r => if (m.range r).Paged then (m.list (.range r)).map (Prod.mk r) else []

theorem forkPairs_append (m : Machine) (rs ss : List RangeId) :
    forkPairs m (rs ++ ss) = forkPairs m rs ++ forkPairs m ss := List.flatMap_append

theorem forkPairs_singleton (m : Machine) (r : RangeId) :
    forkPairs m [r] = if (m.range r).Paged then (m.list (.range r)).map (Prod.mk r) else [] := by
  unfold forkPairs
  rw [List.flatMap_singleton]

theorem mem_forkPairs {m : Machine} {rs : List RangeId} {c : RangeId × Pfn} :
    c ∈ forkPairs m rs ↔ c.1 ∈ rs ∧ (m.range c.1).Paged ∧ c.2 ∈ m.list (.range c.1) := by
  unfold forkPairs
  rw [List.mem_flatMap]
  constructor
  · rintro ⟨r, hr, hc⟩
    split_ifs at hc with hp
    · obtain ⟨g, hg, rfl⟩ := List.mem_map.mp hc
      exact ⟨hr, hp, hg⟩
    · cases hc
  · rintro ⟨hr, hp, hg⟩
    refine ⟨c.1, hr, ?_⟩
    rw [if_pos hp]
    exact List.mem_map.mpr ⟨c.2, hg, rfl⟩

theorem forkRange_eq (m : Machine) (q : PagemapId) (r : RangeId) :
    Machine.forkRange q m r =
      if (m.range r).Paged then
        ((linkedCopy m q (m.range r)).list (.range r)).foldlM (Machine.forkPage q m.nextRange)
          (linkedCopy m q (m.range r))
      else .ok (linkedCopy m q (m.range r)) := by
  have htype : ((linkedCopy m q (m.range r)).range m.nextRange).type = (m.range r).type := by
    rw [range_linkedCopy, if_pos rfl]
    rfl
  unfold Machine.forkRange
  rw [addRange_forkArgs, ok_bind]
  dsimp only
  rw [htype]
  show (if (m.range r).Paged then _ else _) = _
  by_cases hp : (m.range r).Paged
  · rw [if_pos hp, if_pos hp]
  · rw [if_neg hp, if_neg hp]
    have hassert : decide ((m.range r).type = .direct ∨ (m.range r).type = .directVirtual) = true := by
      unfold MappedRange.Paged at hp
      have hne := (m.range r).type_ne
      cases ht : (m.range r).type <;> simp_all
    rw [hassert]
    rfl

/-- What the copying of the pages of a page map relies on. -/
structure CopyReady (m0 : Machine) (q : PagemapId) (rs : List RangeId) : Prop where
  freelist : FreelistOk m0
  lt : ∀ r ∈ rs, r < m0.nextRange
  nodup : (forkPairs m0 rs).Nodup
  lower : ∀ c ∈ forkPairs m0 rs, LowerPage (m0.page c.2).mappedAddr
  found : ∀ c ∈ forkPairs m0 rs, (m0.findEntry q (m0.page c.2).mappedAddr).isSome
  used : ∀ c ∈ forkPairs m0 rs, c.2 ∉ m0.list .freelist
  inj : ∀ c ∈ forkPairs m0 rs, ∀ d ∈ forkPairs m0 rs,
    (m0.page c.2).mappedAddr = (m0.page d.2).mappedAddr → c = d

section Rule

variable {m0 : Machine} {q : PagemapId} {rs : List RangeId} {P : Machine → Prop}

/-- The rule for one range: `P` is kept by the link of the copied range and by the copy of
    each page. -/
theorem forkRange_rule (hready : CopyReady m0 q rs) {pre post : List RangeId} {r : RangeId}
    {s : Machine} (hrs : rs = pre ++ r :: post) (h : Forking m0 q pre (forkPairs m0 pre) s)
    (hlink : P (linkedCopy s q (m0.range r)))
    (hcopy : ∀ {cs s new g f s1}, (m0.range r).Paged → CopyStep m0 q (pre ++ [r]) cs s r new g →
      s.allocPage = .ok (f, s1) → P s → P (copiedPage s s1 q new g f)) :
    Yields (fun s' => Forking m0 q (pre ++ [r]) (forkPairs m0 (pre ++ [r])) s' ∧ P s')
      (fun e => e = .outOfPhysicalMemory ∧ (m0.list .freelist).length < (forkPairs m0 rs).length)
      (Machine.forkRange q s r) := by
  have hr : r ∈ rs := by rw [hrs]; simp
  have hlt := hready.lt r hr
  have hrange : s.range r = m0.range r := h.range r hlt
  have h1 := h.newRange r
  rw [forkRange_eq, forkPairs_append, forkPairs_singleton, hrange]
  by_cases hp : (m0.range r).Paged
  swap
  · rw [if_neg hp, if_neg hp, List.append_nil]
    exact ⟨h1, hlink⟩
  rw [if_pos hp, if_pos hp]
  have hnew : (linkedCopy s q (m0.range r)).range s.nextRange = forkedRange (m0.range r) := by
    rw [range_linkedCopy, if_pos rfl]
  have hmem : s.nextRange ∈ (linkedCopy s q (m0.range r)).rangeList q :=
    (mem_rangeList_linkedCopy _ _ _ _).mpr (.inl rfl)
  have hlist : (linkedCopy s q (m0.range r)).list (.range r) = m0.list (.range r) := by
    refine h1.lists _ (by simp) ?_
    intro t ht
    cases ht
    exact hlt
  rw [hlist]
  have hinner := yields_foldlM
    (R := fun ppre s' => Forking m0 q (pre ++ [r]) (forkPairs m0 pre ++ ppre.map (Prod.mk r)) s' ∧
      s'.range s.nextRange = forkedRange (m0.range r) ∧ s.nextRange ∈ s'.rangeList q ∧ P s')
    (E := fun e => e = .outOfPhysicalMemory ∧
      (m0.list .freelist).length < (forkPairs m0 rs).length)
    (f := Machine.forkPage q s.nextRange) (l := m0.list (.range r)) ?_
    (s := linkedCopy s q (m0.range r)) ⟨by simpa using h1, hnew, hmem, hlink⟩
  · exact hinner.mono (fun _ h => ⟨h.1, h.2.2.2⟩) (fun _ h => h)
  · rintro ppre g ppost s' hl ⟨hf, hn, hm, hP⟩
    have hpairs : forkPairs m0 rs = (forkPairs m0 pre ++ ppre.map (Prod.mk r)) ++
        (r, g) :: (ppost.map (Prod.mk r) ++ forkPairs m0 post) := by
      have hcons : r :: post = [r] ++ post := rfl
      rw [hrs, hcons, forkPairs_append, forkPairs_append, forkPairs_singleton, if_pos hp, hl]
      simp
    have hc : (r, g) ∈ forkPairs m0 rs := by rw [hpairs]; simp
    have hg := hready.used (r, g) hc
    have haddr : (s'.page g).mappedAddr = (m0.page g).mappedAddr := by rw [hf.page g (.inl hg)]
    have hfound : (m0.findEntry q (m0.page g).mappedAddr).isSome := hready.found (r, g) hc
    have hsome : (s'.findEntry q (s'.page g).mappedAddr).isSome := by
      rw [haddr, hf.found]
      exact hfound
    rw [forkPage_eq hsome]
    cases ha : s'.allocPage with
    | error e =>
      obtain ⟨he, hnil⟩ := (hf.freelistOk hready.freelist).alloc_error ha
      obtain ⟨fs, hfs, hlen⟩ := hf.taken
      refine ⟨he, ?_⟩
      rw [hfs, hnil, List.append_nil, hlen, hpairs]
      simp only [List.length_append, List.length_cons]
      omega
    | ok fm =>
      obtain ⟨f, m1⟩ := fm
      have hfresh : ∀ c ∈ forkPairs m0 pre ++ ppre.map (Prod.mk r),
          (m0.page c.2).mappedAddr ≠ (m0.page g).mappedAddr := by
        intro c hcm he
        have hcr : c ∈ forkPairs m0 rs := by
          rw [hpairs]
          exact List.mem_append_left _ hcm
        have := hready.inj c hcr _ hc he
        subst this
        have hnd := hready.nodup
        rw [hpairs, List.nodup_append] at hnd
        exact hnd.2.2 _ hcm _ (List.mem_cons_self ..) rfl
      have hstep : CopyStep m0 q (pre ++ [r]) (forkPairs m0 pre ++ ppre.map (Prod.mk r)) s' r
          s.nextRange g :=
        ⟨hf, by rw [hl]; simp, hg, hready.lower (r, g) hc, hfound, hfresh, hm, h.next, hn⟩
      have hsame := sameRanges_copiedPage ha q s.nextRange g
      rw [ok_bind]
      refine ⟨?_, ?_, ?_, hcopy hp hstep ha hP⟩
      · rw [List.map_append, ← List.append_assoc]
        exact Forking.copyPage hstep hready.freelist ha
      · rw [hsame.range]
        exact hn
      · rw [hsame.rangeList]
        exact hm

/-- The rule for the loop over the ranges. -/
theorem forkRanges_rule (hready : CopyReady m0 q rs) (hstart : Forking m0 q [] [] m0) (hP : P m0)
    (hlink : ∀ {pre r post s}, rs = pre ++ r :: post → Forking m0 q pre (forkPairs m0 pre) s →
      P s → P (linkedCopy s q (m0.range r)))
    (hcopy : ∀ {rs' cs s r new g f s1}, r ∈ rs → (m0.range r).Paged →
      CopyStep m0 q rs' cs s r new g → s.allocPage = .ok (f, s1) → P s →
      P (copiedPage s s1 q new g f)) :
    Yields (fun s => Forking m0 q rs (forkPairs m0 rs) s ∧ P s)
      (fun e => e = .outOfPhysicalMemory ∧ (m0.list .freelist).length < (forkPairs m0 rs).length)
      (rs.foldlM (Machine.forkRange q) m0) :=
  yields_foldlM (R := fun pre s => Forking m0 q pre (forkPairs m0 pre) s ∧ P s)
    (fun _ _ _ _ hrs h => forkRange_rule hready hrs h.1 (hlink hrs h.1 h.2)
      (fun hp => hcopy (by rw [hrs]; simp) hp)) ⟨hstart, hP⟩

end Rule

/-! ## The whole call -/

/-- The pages in the lists of the ANONYMOUS and FILE ranges of page map `n` are mapped there,
    and no frame of the page map is free; `k` is the name of the new page map. -/
structure ForkSource (m : Machine) (n k : ℕ) : Prop where
  heap : HeapOk m
  freelist : FreelistOk m
  ne : k ≠ n
  disj : DisjointRanges m (.user n)
  nodup : ∀ r ∈ m.rangeList (.user n), (m.range r).Paged → (m.list (.range r)).Nodup
  listed : ∀ r ∈ m.rangeList (.user n), (m.range r).Paged → ∀ g ∈ m.list (.range r),
    MappedAt m n g ∧ Fits m n r g
  mapped : ∀ v, LowerPage v → m.Present (.user n) v →
    frameOf (m.entry (.user n) v) ∉ m.list .freelist
  tables : ∀ g, m.HasTable (.user n) g → g ∉ m.list .freelist

/-- Moreover the present pages of these ranges are in their lists. -/
structure ForkReady (m : Machine) (n k : ℕ) : Prop extends ForkSource m n k where
  backed : ∀ r ∈ m.rangeList (.user n), (m.range r).Paged → ∀ v, LowerPage v →
    (m.range r).Contains v → m.Present (.user n) v →
    frameOf (m.entry (.user n) v) ∈ m.list (.range r) ∧
      (m.page (frameOf (m.entry (.user n) v))).mappedAddr = v

/-- The pages `fork` takes off the freelist. -/
def forkCost (m : Machine) (n : ℕ) : ℕ :=
  1 + lowerTables (m.pagemap (.user n)).pml4 + (forkPairs m (m.rangeList (.user n))).length

/-- Page map `k` of `m'` is a copy of page map `n` of `m`. -/
structure Forked (m : Machine) (n k : ℕ) (m' : Machine) : Prop where
  /-- Present pages of ANONYMOUS and FILE ranges are copied into frames `n` does not map. -/
  copied : ∀ v, LowerPage v → ∀ r ∈ m.rangeList (.user n), (m.range r).Paged →
    (m.range r).Contains v → m.Present (.user n) v →
    m'.Present (.user k) v ∧ flagsOf (m'.entry (.user k) v) = (m.range r).pageFlags ∧
    m'.frame (frameOf (m'.entry (.user k) v)) = m.frame (frameOf (m.entry (.user n) v)) ∧
    ∀ w, LowerPage w → m.Present (.user n) w →
      frameOf (m'.entry (.user k) v) ≠ frameOf (m.entry (.user n) w)
  /-- Nothing else is present. -/
  absent : ∀ v, LowerPage v → m'.Present (.user k) v → m.Present (.user n) v ∧
    ∃ r ∈ m.rangeList (.user n), (m.range r).Paged ∧ (m.range r).Contains v
  /-- The two page maps share no table. -/
  tables : ∀ g, m'.HasTable (.user k) g → ¬ m'.HasTable (.user n) g
  /-- The two page maps have the same ranges. -/
  ranges : ∀ v t fl, (∃ e ∈ m'.ranges (.user k), e.Contains v ∧ e.type = t ∧ e.pageFlags = fl) ↔
    ∃ e ∈ m.ranges (.user n), e.Contains v ∧ e.type = t ∧ e.pageFlags = fl
  /-- The page map that is copied is unchanged: its tables and list of ranges, ... -/
  pagemap : m'.pagemap (.user n) = m.pagemap (.user n)
  tableList : m'.list (.tables (.user n)) = m.list (.tables (.user n))
  /-- ... its ranges and their page lists, ... -/
  range : ∀ r ∈ m.rangeList (.user n), m'.range r = m.range r ∧
    m'.list (.range r) = m.list (.range r)
  /-- ... and every page in use, with its contents. -/
  page : ∀ g, g ∉ m.list .freelist → m'.page g = m.page g ∧ m'.frame g = m.frame g

section Fork

variable {m m0 m' : Machine} {n k : ℕ}

section

variable {p q : PagemapId} (h : TablesForked m p q m0)

include h

theorem TablesForked.frame : m0.frame = m.frame := by
  rw [h.rest]

theorem TablesForked.range : m0.range = m.range := by
  rw [h.rest]

theorem TablesForked.nextRange : m0.nextRange = m.nextRange := by rw [h.rest]

theorem TablesForked.freelist_sub {f : Pfn} (hf : f ∈ m0.list .freelist) :
    f ∈ m.list .freelist := by
  obtain ⟨fs, hfs, -⟩ := h.taken
  rw [hfs]
  exact List.mem_append_right _ hf

theorem TablesForked.page {f : Pfn} (hf : f ∉ m.list .freelist) : m0.page f = m.page f := by
  obtain ⟨fs, hfs, -, -, -, hout, -⟩ := h.taken
  refine hout f fun hmem => hf ?_
  rw [hfs]
  exact List.mem_append_left _ hmem

theorem TablesForked.freelistOk (hf : FreelistOk m) : FreelistOk m0 := by
  obtain ⟨fs, hfs, -, -, -, hout, -⟩ := h.taken
  have hnd := hf.nodup
  rw [hfs, List.nodup_append] at hnd
  refine ⟨hnd.2.1, fun f hf0 => ?_⟩
  rw [hout f (fun hmem => hnd.2.2 f hmem f hf0 rfl)]
  exact hf.free f (h.freelist_sub hf0)

theorem TablesForked.forkPairs (rs : List RangeId) : forkPairs m0 rs = forkPairs m rs := by
  unfold Mem.forkPairs
  rw [h.range]
  congr
  funext r
  rw [h.lists (.range r) (by simp) (by simp)]

end

theorem TablesForked.absent (h : TablesForked m (.user n) (.user k) m0) {v : U64}
    (hv : LowerPage v) : ¬ m0.Present (.user k) v := by
  unfold Machine.Present Machine.entry
  rw [h.entry v hv]
  cases m.findEntry (.user n) v with
  | none => simp
  | some e =>
    simp only [Option.map_some, Option.getD_some]
    split_ifs with he
    · simp
    · exact he

theorem TablesForked.start (h : TablesForked m (.user n) (.user k) m0) :
    Forking m0 (.user k) [] [] m0 := by
  refine ⟨⟨[], rfl, rfl⟩, fun _ _ => rfl, fun _ _ => rfl, fun _ _ _ => rfl, fun _ _ => rfl, le_rfl,
    fun _ _ => rfl, fun _ => rfl, fun _ => Iff.rfl, rfl, rfl, rfl, ?_, by simp, by simp, ?_, h.cache⟩
  · rw [h.rangeList]
    simp
  · intro v hv hp
    exact absurd hp (h.absent hv)

theorem nodup_forkPairs {rs : List RangeId} (hrs : rs.Nodup)
    (h : ∀ r ∈ rs, (m.range r).Paged → (m.list (.range r)).Nodup) : (forkPairs m rs).Nodup := by
  unfold forkPairs
  rw [List.nodup_flatMap]
  refine ⟨fun r hr => ?_, hrs.imp_of_mem fun {r s} _ _ hrs => ?_⟩
  · split_ifs with hp
    · exact (h r hr hp).map (Prod.mk_right_injective r)
    · exact List.nodup_nil
  · intro c hc hd
    dsimp only at hc hd
    split_ifs at hc hd
    · obtain ⟨g, -, rfl⟩ := List.mem_map.mp hc
      obtain ⟨g', -, he⟩ := List.mem_map.mp hd
      exact hrs (congrArg Prod.fst he).symm
    all_goals simp at hc hd

theorem ForkSource.used (h : ForkSource m n k) {c : RangeId × Pfn}
    (hc : c ∈ forkPairs m (m.rangeList (.user n))) : c.2 ∉ m.list .freelist := by
  obtain ⟨hr, hp, hg⟩ := mem_forkPairs.mp hc
  obtain ⟨hmap, -⟩ := h.listed c.1 hr hp c.2 hg
  have := h.mapped _ hmap.lower hmap.present
  rwa [hmap.frame] at this

theorem ForkSource.copyReady (h : ForkSource m n k) (h0 : TablesForked m (.user n) (.user k) m0) :
    CopyReady m0 (.user k) (m.rangeList (.user n)) := by
  have hpage : ∀ c ∈ forkPairs m (m.rangeList (.user n)), m0.page c.2 = m.page c.2 :=
    fun c hc => h0.page (h.used hc)
  have hmap : ∀ c ∈ forkPairs m (m.rangeList (.user n)),
      MappedAt m n c.2 ∧ Fits m n c.1 c.2 := by
    intro c hc
    obtain ⟨hr, hp, hg⟩ := mem_forkPairs.mp hc
    exact h.listed c.1 hr hp c.2 hg
  refine ⟨h0.freelistOk h.freelist, ?_, ?_, ?_, ?_, ?_, ?_⟩
  · intro r hr
    rw [h0.nextRange]
    exact h.heap.lt _ r hr
  · rw [h0.forkPairs]
    exact nodup_forkPairs (h.heap.nodup _) h.nodup
  · intro c hc
    rw [h0.forkPairs] at hc
    rw [hpage c hc]
    exact (hmap c hc).1.lower
  · intro c hc
    rw [h0.forkPairs] at hc
    rw [hpage c hc, h0.entry _ (hmap c hc).1.lower, Option.isSome_map]
    exact isSome_findEntry_of_present (hmap c hc).1.present
  · intro c hc hf
    rw [h0.forkPairs] at hc
    exact h.used hc (h0.freelist_sub hf)
  · intro c hc d hd he
    rw [h0.forkPairs] at hc hd
    rw [hpage c hc, hpage d hd] at he
    have h1 := (hmap c hc).1.frame
    have h2 := (hmap d hd).1.frame
    rw [he] at h1
    have hsnd : c.2 = d.2 := h1.symm.trans h2
    have hfst : c.1 = d.1 := by
      by_contra hne
      refine h.disj c.1 (mem_forkPairs.mp hc).1 d.1 (mem_forkPairs.mp hd).1 hne _ (hmap c hc).2.1 ?_
      rw [he]
      exact (hmap d hd).2.1
    exact Prod.ext hfst hsnd

theorem flagsOf_and_frameMask (e : U64) : flagsOf e &&& frameMask = 0#64 := by
  unfold flagsOf
  rw [BitVec.and_assoc, BitVec.and_comm (~~~frameMask)]
  simp

theorem isPresent_flagsOf (e : U64) : isPresent (flagsOf e) = isPresent e := by
  rw [Bool.eq_iff_iff, isPresent_iff, isPresent_iff]
  unfold flagsOf
  rw [BitVec.getLsbD_and, BitVec.getLsbD_not, getLsbD_frameMask]
  simp

theorem ForkReady.forked (h : ForkReady m n k) (h0 : TablesForked m (.user n) (.user k) m0)
    (hf : Forking m0 (.user k) (m.rangeList (.user n)) (forkPairs m0 (m.rangeList (.user n))) m') :
    Forked m n k m' := by
  have hne : PagemapId.user n ≠ .user k := by
    intro he
    cases he
    exact h.ne rfl
  have hpm : m'.pagemap (.user n) = m.pagemap (.user n) := by
    rw [hf.pagemap _ hne, h0.pagemap _ hne]
  have hfr : ∀ g, g ∉ m.list .freelist → g ∉ m0.list .freelist :=
    fun g hg hg0 => hg (h0.freelist_sub hg0)
  refine ⟨?_, ?_, ?_, ?_, hpm, ?_, ?_, ?_⟩
  · intro v hv r hr hp hc hpres
    obtain ⟨hg, haddr⟩ := h.backed r hr hp v hv hc hpres
    have hpair : (r, frameOf (m.entry (.user n) v)) ∈ forkPairs m (m.rangeList (.user n)) :=
      mem_forkPairs.mpr ⟨hr, hp, hg⟩
    obtain ⟨-, hfit⟩ := h.listed r hr hp _ hg
    have hflags : flagsOf (m.entry (.user n) v) = (m.range r).pageFlags := by
      have := hfit.2
      rwa [haddr] at this
    obtain ⟨-, f, h1, -, h3, h4⟩ := hf.copies (r, frameOf (m.entry (.user n) v))
      (by rw [h0.forkPairs]; exact hpair)
    have hpg : (m0.page (frameOf (m.entry (.user n) v))).mappedAddr = v := by
      rw [h0.page (h.mapped v hv hpres)]
      exact haddr
    dsimp only at h3 h4
    rw [hpg, h0.range, ← hflags] at h3
    have hframe : frameOf (m'.entry (.user k) v) = f := by
      rw [h3]
      exact frameOf_phy_or (flagsOf_and_frameMask _)
    refine ⟨?_, ?_, ?_, ?_⟩
    · unfold Machine.Present
      rw [h3, isPresent_phy_or, isPresent_flagsOf]
      exact hpres
    · rw [h3, flagsOf_phy_or (flagsOf_and_frameMask _), hflags]
    · rw [hframe, h4, h0.frame]
    · intro w hw hpw he
      rw [hframe] at he
      exact h.mapped w hw hpw (he ▸ h0.freelist_sub h1)
  · intro v hv hp
    obtain ⟨c, hc, haddr⟩ := hf.present v hv hp
    rw [h0.forkPairs] at hc
    obtain ⟨hr, hpg, hg⟩ := mem_forkPairs.mp hc
    obtain ⟨hmap, hfit⟩ := h.listed c.1 hr hpg c.2 hg
    rw [h0.page (h.used hc)] at haddr
    rw [← haddr]
    exact ⟨hmap.present, c.1, hr, hpg, hfit.1⟩
  · intro g hg hg'
    obtain ⟨fs, hfs, -, -, -, -, htab⟩ := h0.taken
    have hgs := htab g ((hf.table g).mp hg)
    refine h.tables g ?_ (by rw [hfs]; exact List.mem_append_left _ hgs)
    unfold Machine.HasTable at hg' ⊢
    rwa [hpm] at hg'
  · intro v t fl
    unfold Machine.ranges
    constructor
    · rintro ⟨e, he, h1, h2, h3⟩
      obtain ⟨s, hs, rfl⟩ := List.mem_map.mp he
      obtain ⟨-, -, r, hr, hrange⟩ := hf.ranges s hs
      rw [hrange, h0.range] at h1 h2 h3
      exact ⟨m.range r, List.mem_map.mpr ⟨r, hr, rfl⟩, h1, h2, h3⟩
    · rintro ⟨e, he, h1, h2, h3⟩
      obtain ⟨r, hr, rfl⟩ := List.mem_map.mp he
      obtain ⟨s, hs, hrange⟩ := hf.copied r hr
      rw [h0.range] at hrange
      refine ⟨m'.range s, List.mem_map.mpr ⟨s, hs, rfl⟩, ?_⟩
      rw [hrange]
      exact ⟨h1, h2, h3⟩
  · rw [hf.lists _ (by simp) (by simp), h0.lists _ (by simp)]
    intro he
    cases he
    exact h.ne rfl
  · intro r hr
    have hlt := h.heap.lt _ r hr
    rw [← h0.nextRange] at hlt
    refine ⟨by rw [hf.range r hlt, h0.range], ?_⟩
    rw [hf.lists _ (by simp) (by intro s hs; cases hs; exact hlt), h0.lists _ (by simp) (by simp)]
  · intro g hg
    exact ⟨by rw [hf.page g (.inl (hfr g hg)), h0.page hg], by rw [hf.frame g (hfr g hg), h0.frame]⟩

theorem ForkSource.rangeList (h : ForkSource m n k) (h0 : TablesForked m (.user n) (.user k) m0) :
    m0.rangeList (.user n) = m.rangeList (.user n) := by
  unfold Machine.rangeList
  rw [h0.pagemap]
  intro he
  cases he
  exact h.ne rfl

/-- The rule for `fork`: `P` holds after the table phase and is kept by the copying. The call
    ends early only if the freelist is too short. -/
theorem ForkSource.fork_rule {P : Machine → Machine → Prop} (h : ForkSource m n k)
    (hstart : ∀ m0, TablesForked m (.user n) (.user k) m0 → P m0 m0)
    (hlink : ∀ {m0 pre r post s}, TablesForked m (.user n) (.user k) m0 →
      m.rangeList (.user n) = pre ++ r :: post →
      Forking m0 (.user k) pre (forkPairs m0 pre) s → P m0 s →
      P m0 (linkedCopy s (.user k) (m0.range r)))
    (hcopy : ∀ {m0 rs' cs s r new g f s1}, TablesForked m (.user n) (.user k) m0 →
      r ∈ m.rangeList (.user n) → (m0.range r).Paged →
      CopyStep m0 (.user k) rs' cs s r new g → s.allocPage = .ok (f, s1) → P m0 s →
      P m0 (copiedPage s s1 (.user k) new g f)) :
    Yields (fun m' => ∃ m0, TablesForked m (.user n) (.user k) m0 ∧
        Forking m0 (.user k) (m.rangeList (.user n)) (forkPairs m0 (m.rangeList (.user n))) m' ∧
        P m0 m')
      (fun e => e = .outOfPhysicalMemory ∧ (m.list .freelist).length < forkCost m n)
      (m.fork (.user n) (.user k)) := by
  unfold Machine.fork
  refine ((forkStart_yields h.freelist).mono (fun _ h0 => h0) ?_).bind fun m0 h0 => ?_
  · rintro e ⟨he, hlt⟩
    refine ⟨he, ?_⟩
    unfold forkCost
    omega
  · rw [h.rangeList h0]
    refine (forkRanges_rule (h.copyReady h0) h0.start (hstart m0 h0) (hlink h0) (hcopy h0)).mono
      (fun m' hf => ⟨m0, h0, hf⟩) ?_
    rintro e ⟨he, hlt⟩
    refine ⟨he, ?_⟩
    obtain ⟨fs, hfs, hlen, -⟩ := h0.taken
    rw [h0.forkPairs] at hlt
    unfold forkCost
    rw [hfs, List.length_append]
    omega

theorem ForkSource.phases (h : ForkSource m n k) (hrun : m.fork (.user n) (.user k) = .ok m') :
    ∃ m0, TablesForked m (.user n) (.user k) m0 ∧
      Forking m0 (.user k) (m.rangeList (.user n)) (forkPairs m0 (m.rangeList (.user n))) m' := by
  have hy := h.fork_rule (P := fun _ _ => True) (fun _ _ => trivial)
    (fun _ _ _ _ => trivial) (fun _ _ _ _ _ _ => trivial)
  obtain ⟨m0, h0, hf, -⟩ := hy.ok hrun
  exact ⟨m0, h0, hf⟩

/-- **Main theorem.** `fork` returns a copy of the page map, unless the freelist has fewer
    pages than it needs. -/
theorem fork_copies (h : ForkReady m n k) :
    match m.fork (.user n) (.user k) with
    | .ok m' => Forked m n k m'
    | .error e => e = .outOfPhysicalMemory ∧ (m.list .freelist).length < forkCost m n := by
  split
  · rename_i m' he
    obtain ⟨m0, h0, hf⟩ := h.toForkSource.phases he
    exact h.forked h0 hf
  · rename_i e he
    have hy := h.toForkSource.fork_rule (P := fun _ _ => True) (fun _ _ => trivial)
      (fun _ _ _ _ => trivial) (fun _ _ _ _ _ _ => trivial)
    rw [he] at hy
    exact hy

end Fork

end Fishix.Mem
