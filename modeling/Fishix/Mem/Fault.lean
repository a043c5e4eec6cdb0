import Fishix.Mem.RangeList

/-!
# What `handle_page_fault` does

`handlePageFault_cases` takes a completed page fault apart: the tables of the address are
created, then nothing happens (the page is present, or no range holds the address), or
the range that holds the address provides the page (`FaultIn`).

* `addrToRange_some`: the range `addr_to_range` returns holds the address; it is a range
  of the page map or of the kernel, provided the cache is one (`CacheOk`).
-/

namespace Fishix.Mem

/-! ## The page of an address -/

theorem tableIndex_alignDown (v : U64) : tableIndex (alignDown v pageSize) = tableIndex v := by
  funext k
  apply Fin.ext
  rw [tableIndex_val, tableIndex_val, toNat_alignDown]
  have h : 2 ^ (12 + 9 * k) = 4096 * 2 ^ (9 * k) := by rw [Nat.pow_add]
  rw [h, ← Nat.div_div_eq_div_mul, ← Nat.div_div_eq_div_mul, Nat.mul_div_cancel _ (by norm_num)]

theorem vpn_alignDown (v : U64) : vpn (alignDown v pageSize) = vpn v := by
  unfold vpn
  rw [toNat_alignDown, Nat.mul_div_cancel _ (by norm_num)]

theorem tablesOf_alignDown (p : PagemapId) (v : U64) :
    tablesOf p (alignDown v pageSize) = tablesOf p v := tablesOf_of_vpn p (vpn_alignDown v)

theorem entry_alignDown (m : Machine) (p : PagemapId) (v : U64) :
    m.entry p (alignDown v pageSize) = m.entry p v :=
  entry_congr m (tablesOf_alignDown p v) (vpn_alignDown v)

theorem present_alignDown (m : Machine) (p : PagemapId) (v : U64) :
    m.Present p (alignDown v pageSize) ↔ m.Present p v := by
  unfold Machine.Present
  rw [entry_alignDown]

theorem writeEntry_alignDown (m : Machine) (p : PagemapId) (v x : U64) :
    m.writeEntry p (alignDown v pageSize) x = m.writeEntry p v x := by
  unfold Machine.writeEntry
  rw [tablesOf_alignDown, tableIndex_alignDown]

/-! ## `addr_to_range` -/

/-- A cached range is still linked. -/
def CacheOk (m : Machine) (p : PagemapId) : Prop :=
  ∀ c, (m.pagemap p).cachedRangeLookup = some c → c ∈ m.rangeList p ∨ c ∈ m.rangeList .kernel

theorem CacheOk.congr {m m' : Machine} {p : PagemapId} (h : CacheOk m p)
    (hc : (m'.pagemap p).cachedRangeLookup = (m.pagemap p).cachedRangeLookup)
    (hl : ∀ q, m'.rangeList q = m.rangeList q) : CacheOk m' p := by
  intro c h1
  rw [hc] at h1
  rw [hl, hl]
  exact h c h1

section

variable {m : Machine} {p : PagemapId} {v : U64}

theorem searchRange_some {r : RangeId} (h : m.searchRange p v = some r) :
    (r ∈ m.rangeList p ∨ r ∈ m.rangeList .kernel) ∧ (m.range r).Contains v := by
  unfold Machine.searchRange at h
  split at h
  · rename_i s hs
    cases h
    exact ⟨.inl (List.mem_of_find?_eq_some hs), by simpa using List.find?_some hs⟩
  · split_ifs at h
    exact ⟨.inr (List.mem_of_find?_eq_some h), by simpa using List.find?_some h⟩

theorem searchRange_none (h : m.searchRange p v = none) :
    ∀ r ∈ m.rangeList p, ¬ (m.range r).Contains v := by
  unfold Machine.searchRange at h
  split at h
  · cases h
  · rename_i hs
    intro r hr
    simpa using List.find?_eq_none.mp hs r hr

/-- The cached range if it holds the address, else what a search finds, which is then cached. -/
theorem addrToRange_cases {m' : Machine} {res : Option RangeId}
    (h : m.addrToRange p v = (res, m')) :
    (∃ c, (m.pagemap p).cachedRangeLookup = some c ∧ (m.range c).Contains v ∧ res = some c ∧
      m' = m) ∨ (m.searchRange p v = none ∧ res = none ∧ m' = m) ∨
    ∃ r, m.searchRange p v = some r ∧ res = some r ∧ m' = m.setCache p (some r) := by
  unfold Machine.addrToRange at h
  dsimp only at h
  split at h
  · next c hcache =>
    split_ifs at h with hcon
    · cases h
      exact .inl ⟨c, hcache, hcon, rfl, rfl⟩
    · split at h <;> cases h
      · next r hs => exact .inr (.inr ⟨r, hs, rfl, rfl⟩)
      · next hs => exact .inr (.inl ⟨hs, rfl, rfl⟩)
  · split at h <;> cases h
    · next r hs => exact .inr (.inr ⟨r, hs, rfl, rfl⟩)
    · next hs => exact .inr (.inl ⟨hs, rfl, rfl⟩)

theorem addrToRange_some {m' : Machine} {r : RangeId} (hc : CacheOk m p)
    (h : m.addrToRange p v = (some r, m')) :
    (r ∈ m.rangeList p ∨ r ∈ m.rangeList .kernel) ∧ (m.range r).Contains v ∧
      (m' = m ∨ m' = m.setCache p (some r)) := by
  obtain ⟨c, hcache, hcon, hr, rfl⟩ | ⟨-, hr, -⟩ | ⟨s, hs, hr, rfl⟩ := addrToRange_cases h
  · obtain rfl := Option.some.inj hr
    exact ⟨hc _ hcache, hcon, .inl rfl⟩
  · cases hr
  · obtain rfl := Option.some.inj hr
    obtain ⟨h1, h2⟩ := searchRange_some hs
    exact ⟨h1, h2, .inr rfl⟩

theorem addrToRange_none {m' : Machine} (h : m.addrToRange p v = (none, m')) :
    m' = m ∧ ∀ r ∈ m.rangeList p, ¬ (m.range r).Contains v := by
  obtain ⟨c, -, -, hr, -⟩ | ⟨hs, -, rfl⟩ | ⟨s, -, hr, -⟩ := addrToRange_cases h
  · cases hr
  · exact ⟨rfl, searchRange_none hs⟩
  · cases hr

end

/-! ## The page a range provides -/

/-- The position in the backing of the page of `virt`: `page_virt - original_base`. -/
def MappedRange.position (e : MappedRange) (virt : U64) : U64 :=
  alignDown virt pageSize - e.originalBase

/-- A page `f` with contents `c` is linked into range `r` and mapped at the page of `virt`. -/
def placeFault (m : Machine) (p : PagemapId) (virt : U64) (r : RangeId) (f : Pfn) (c : Frame) :
    Machine :=
  (relinked m p (alignDown virt pageSize) r f).setFrame f c

/-- How range `r` serves a page fault at `virt`, type by type; `fuel` bounds the nested call. -/
inductive FaultIn (fuel : ℕ) (m : Machine) (p : PagemapId) (virt : U64) (r : RangeId) :
    Option U64 → Machine → Prop
  | anonymous {f : Pfn} {m1 : Machine} (type : (m.range r).type = .anonymous)
      (alloc : m.allocPage = .ok (f, m1)) :
      FaultIn fuel m p virt r (some f.phy) (placeFault m1 p virt r f zeroFrame)
  | file {f : Pfn} {m1 : Machine} {file : FileId} (type : (m.range r).type = .file)
      (isFile : (m.range r).file = some file) (alloc : m.allocPage = .ok (f, m1)) :
      FaultIn fuel m p virt r (some f.phy) (placeFault m1 p virt r f
        (m.fileRead file ((m.range r).position virt + (m.range r).fileOffset)))
  | direct (type : (m.range r).type = .direct) :
      FaultIn fuel m p virt r (some ((m.range r).position virt + (m.range r).phyBase))
        (m.writeEntry p virt (((m.range r).position virt + (m.range r).phyBase &&& frameMask) |||
          (m.range r).pageFlags))
  | mirror {m1 : Machine} {target : U64} (type : (m.range r).type = .directVirtual)
      (walk : m1 = m ∨ m.findEntry p ((m.range r).position virt + (m.range r).phyBase) = none ∧
        ∃ res, Machine.handlePageFaultFuel p fuel
          ((m.range r).position virt + (m.range r).phyBase) m = .ok (res, m1))
      (find : m1.findEntry p ((m.range r).position virt + (m.range r).phyBase) = some target) :
      FaultIn fuel m p virt r (some (target &&& frameMask))
        (m1.writeEntry p virt ((target &&& frameMask) ||| (m.range r).pageFlags))
  | mirrorFails {m1 : Machine} {res : Option U64}
      (type : (m.range r).type = .directVirtual)
      (missing : m.findEntry p ((m.range r).position virt + (m.range r).phyBase) = none)
      (walk : Machine.handlePageFaultFuel p fuel
        ((m.range r).position virt + (m.range r).phyBase) m = .ok (res, m1)) :
      FaultIn fuel m p virt r none m1

theorem placeFault_eq {m m1 : Machine} {p : PagemapId} {virt : U64} {r : RangeId} {f : Pfn}
    (c : Frame) (hr : m1.range = m.range) :
    (((m1.setPage f { m1.page f with mappedAddr := alignDown virt pageSize }).linkLast (.range r)
      f).setFrame f c).writeEntry p virt (f.phy ||| (m.range r).pageFlags) =
      placeFault m1 p virt r f c := by
  unfold placeFault relinked
  rw [writeEntry_alignDown, hr]
  rfl

/-- What a completed page fault did. -/
theorem handlePageFaultFuel_cases {p : PagemapId} {fuel : ℕ} {virt : U64} {m m' : Machine}
    {res : Option U64} (h : Machine.handlePageFaultFuel p (fuel + 1) virt m = .ok (res, m')) :
    ∃ m1, m.createEntry p virt = .ok m1 ∧
      ((m1.Present p virt ∧ res = none ∧ m' = m1) ∨
       (¬ m1.Present p virt ∧ m1.addrToRange p virt = (none, m') ∧ res = none) ∨
       ∃ r m2, ¬ m1.Present p virt ∧ m1.addrToRange p virt = (some r, m2) ∧
        FaultIn fuel m2 p virt r res m') := by
  unfold Machine.handlePageFaultFuel at h
  dsimp only at h
  obtain ⟨m1, h1, h⟩ := bind_ok h
  refine ⟨m1, h1, ?_⟩
  split_ifs at h with hp
  · cases h
    exact .inl ⟨hp, rfl, rfl⟩
  · cases hr : m1.addrToRange p virt with
    | mk found m2 =>
      rw [hr] at h
      cases found with
      | none =>
        cases h
        exact .inr (.inl ⟨hp, rfl, rfl⟩)
      | some r =>
        refine .inr (.inr ⟨r, m2, hp, rfl, ?_⟩)
        dsimp only at h
        split at h
        · rename_i ht
          obtain ⟨⟨f, m3⟩, ha, h⟩ := bind_ok h
          cases h
          rw [placeFault_eq zeroFrame (pagesOnly_allocPage ha).range]
          exact .anonymous ht ha
        · rename_i ht
          cases h
          exact .direct ht
        · rename_i ht
          obtain ⟨m3, hw, h⟩ := bind_ok h
          cases hf : m2.findEntry p
              (alignDown virt pageSize - (m2.range r).originalBase + (m2.range r).phyBase) with
          | some e =>
            rw [hf] at hw
            cases hw
            rw [hf] at h
            cases h
            exact .mirror ht (.inl rfl) hf
          | none =>
            rw [hf] at hw
            obtain ⟨⟨res', m4⟩, hrec, hw⟩ := bind_ok hw
            cases hw
            cases hf' : m4.findEntry p
                (alignDown virt pageSize - (m2.range r).originalBase + (m2.range r).phyBase) with
            | none =>
              rw [hf'] at h
              cases h
              exact .mirrorFails ht hf hrec
            | some e =>
              rw [hf'] at h
              cases h
              exact .mirror ht (.inr ⟨hf, res', hrec⟩) hf'
        · rename_i ht
          obtain ⟨⟨f, m3⟩, ha, h⟩ := bind_ok h
          obtain ⟨c, hc, h⟩ := bind_ok h
          cases h
          cases hfile : (m2.range r).file with
          | none =>
            rw [hfile] at hc
            cases hc
          | some file =>
            rw [hfile] at hc
            cases hc
            rw [placeFault_eq _ (pagesOnly_allocPage ha).range]
            have hread : ((m3.setPage f { m3.page f with
                mappedAddr := alignDown virt pageSize }).linkLast (.range r) f).fileRead =
                m2.fileRead := (pagesOnly_allocPage ha).fileRead
            rw [hread]
            exact .file ht hfile ha
        · rename_i ht
          exact absurd ht (m2.range r).type_ne

theorem handlePageFault_cases {p : PagemapId} {virt : U64} {m m' : Machine} {res : Option U64}
    (h : m.handlePageFault p virt = .ok (res, m')) :
    ∃ m1, m.createEntry p virt = .ok m1 ∧
      ((m1.Present p virt ∧ res = none ∧ m' = m1) ∨
       (¬ m1.Present p virt ∧ m1.addrToRange p virt = (none, m') ∧ res = none) ∨
       ∃ r m2, ¬ m1.Present p virt ∧ m1.addrToRange p virt = (some r, m2) ∧
        FaultIn (m.list .freelist).length m2 p virt r res m') :=
  handlePageFaultFuel_cases h

/-! ## Frame condition -/

/-- The ranges, the page maps alive, the memory map, the counts of the files and the caches of page
    maps other than `p` are the same. -/
structure SameRanges (p : PagemapId) (m m' : Machine) : Prop where
  range : m'.range = m.range
  nextRange : m'.nextRange = m.nextRange
  rangeList : ∀ q, m'.rangeList q = m.rangeList q
  live : m'.live = m.live
  regions : m'.regions = m.regions
  fileRead : m'.fileRead = m.fileRead
  fileRefs : m'.fileRefs = m.fileRefs
  fileClosed : m'.fileClosed = m.fileClosed
  cache_other : ∀ q, q ≠ p →
    (m'.pagemap q).cachedRangeLookup = (m.pagemap q).cachedRangeLookup

theorem SameRanges.refl (p : PagemapId) (m : Machine) : SameRanges p m m :=
  ⟨rfl, rfl, fun _ => rfl, rfl, rfl, rfl, rfl, rfl, fun _ _ => rfl⟩

theorem SameRanges.trans {p : PagemapId} {m m1 m2 : Machine} (h : SameRanges p m m1) (h' : SameRanges p m1 m2) :
    SameRanges p m m2 :=
  ⟨h'.range.trans h.range, h'.nextRange.trans h.nextRange,
    fun q => (h'.rangeList q).trans (h.rangeList q), h'.live.trans h.live,
    h'.regions.trans h.regions, h'.fileRead.trans h.fileRead, h'.fileRefs.trans h.fileRefs,
    h'.fileClosed.trans h.fileClosed,
    fun q hq => (h'.cache_other q hq).trans (h.cache_other q hq)⟩

theorem PagesOnly.sameRanges {m m' : Machine} (h : PagesOnly m m') (p : PagemapId) : SameRanges p m m' :=
  ⟨h.range, h.nextRange, h.rangeList, h.live, h.regions, h.fileRead, h.fileRefs, h.fileClosed,
    fun q _ => h.cachedRangeLookup q⟩

theorem sameRanges_setCache (m : Machine) (p : PagemapId) (c : Option RangeId) :
    SameRanges p m (m.setCache p c) :=
  ⟨rfl, rfl, fun q => rangeList_setCache m p q c, rfl, rfl, rfl, rfl, rfl,
    fun q hq => (cachedRangeLookup_setCache m p q c).trans (if_neg hq)⟩

theorem sameRanges_placeFault (m : Machine) (p : PagemapId) (v : U64) (r : RangeId) (f : Pfn)
    (c : Frame) : SameRanges p m (placeFault m p v r f c) :=
  ((pagesOnly_relinked m p (alignDown v pageSize) r f).sameRanges p).trans
    ⟨rfl, rfl, fun _ => rfl, rfl, rfl, rfl, rfl, rfl, fun _ _ => rfl⟩

theorem sameRanges_addrToRange {m m' : Machine} {p : PagemapId} {v : U64} {res : Option RangeId}
    (h : m.addrToRange p v = (res, m')) : SameRanges p m m' := by
  obtain ⟨c, -, -, -, rfl⟩ | ⟨-, -, rfl⟩ | ⟨s, -, -, rfl⟩ := addrToRange_cases h
  · exact .refl p _
  · exact .refl p _
  · exact sameRanges_setCache _ _ _

/-- A page fault changes no range. -/
theorem sameRanges_handlePageFaultFuel {p : PagemapId} :
    ∀ {fuel : ℕ} {v : U64} {m m' : Machine} {res : Option U64},
      Machine.handlePageFaultFuel p fuel v m = .ok (res, m') → SameRanges p m m' := by
  intro fuel
  induction fuel with
  | zero =>
    intro v m m' res h
    cases h
  | succ fuel ih =>
    intro v m m' res h
    obtain ⟨m1, h1, ⟨-, -, rfl⟩ | ⟨-, h2, -⟩ | ⟨r, m2, -, h2, h3⟩⟩ := handlePageFaultFuel_cases h
    · exact (pagesOnly_createEntry h1).sameRanges p
    · exact ((pagesOnly_createEntry h1).sameRanges p).trans (sameRanges_addrToRange h2)
    · refine (((pagesOnly_createEntry h1).sameRanges p).trans (sameRanges_addrToRange h2)).trans ?_
      cases h3 with
      | anonymous _ ha =>
        exact ((pagesOnly_allocPage ha).sameRanges p).trans (sameRanges_placeFault _ _ _ _ _ _)
      | file _ _ ha =>
        exact ((pagesOnly_allocPage ha).sameRanges p).trans (sameRanges_placeFault _ _ _ _ _ _)
      | direct _ => exact (pagesOnly_writeEntry _ _ _ _).sameRanges p
      | @mirror m3 _ _ hw _ =>
        have hwalk : SameRanges p m2 m3 := by
          rcases hw with rfl | ⟨-, res', hw⟩
          · exact .refl p _
          · exact ih hw
        exact hwalk.trans ((pagesOnly_writeEntry _ _ _ _).sameRanges p)
      | mirrorFails _ _ hw => exact ih hw

theorem sameRanges_handlePageFault {p : PagemapId} {v : U64} {m m' : Machine} {res : Option U64}
    (h : m.handlePageFault p v = .ok (res, m')) : SameRanges p m m' :=
  sameRanges_handlePageFaultFuel h

end Fishix.Mem
