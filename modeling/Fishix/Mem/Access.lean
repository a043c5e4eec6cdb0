import Fishix.Mem.Mirror

/-!
# Access to another process's memory

Model of `mem/vmm.cpp` lines 182-224: `get_physical_addr` and `access_memory`, through which
procfs reads the arguments and the environment of a process.

The loop runs over the pages from that of `virt` to that of `virt + count`, works out the part of
the page that lies between the two, and moves it through the direct map at `hhdm`, which shows the
physical addresses of 52 bits. `target` is a kernel buffer, given by its bytes.

`accessed` says what is meant: for byte after byte of the address space its page is resolved, by a
fault where it is absent, and then the byte at the place the page tables name is loaded or stored.

* `mapped_handlePageFault`: faults change nothing about which addresses are mapped.
* `getPhysicalAddr_mapped`, `getPhysicalAddr_unmapped`: the frame of a mapped page, and `-EFAULT`.
* `accessMemory_eq`: `access_memory` moves the longest mapped prefix byte by byte.
* `accessMemory_transfers`: what is in the buffer and in the frames when it returns.
-/

namespace Fishix.Mem

open BitVec (ofNat toNat_ofNat toNat_add le_def eq_of_toNat_eq toNat_sub)

/-! ## Model -/

/-- The machine and the bytes at `target`. -/
structure Transfer where
  m : Machine
  target : ℕ → BitVec 8

/-- `-EFAULT` (userland/errno.h). -/
abbrev efault : U64 := -14#64

/-- One byte between offset `k` of frame `f` and `target[i]`: into the frame if `write`. -/
def Transfer.moveAt (write : Bool) (f : Pfn) (k : Fin 4096) (i : ℕ) (s : Transfer) : Transfer :=
  if write then
    { s with m := s.m.setFrame f (Function.update (s.m.frame f) k (s.target i)) }
  else { s with target := Function.update s.target i (s.m.frame f k) }

/-- `memcpy` between `target + i` and `hhdm + phy`. -/
def Transfer.memcpy (s : Transfer) (write : Bool) (phy : U64) (i count : ℕ) :
    Except Panic Transfer :=
  if phy.toNat + count ≤ 2 ^ 52 then
    .ok ((List.range count).foldl (fun s j =>
      s.moveAt write (ofNat 40 ((phy.toNat + j) / 4096)) (Fin.ofNat 4096 (phy.toNat + j))
        (i + j)) s)
  else .error .badPointer

/-- `get_physical_addr` (mem/vmm.cpp:182-188). -/
def Machine.getPhysicalAddr (m : Machine) (p : PagemapId) (virt : U64) :
    Except Panic (U64 × Machine) :=
  match m.findEntry p virt with
  | some entry =>
    if isPresent entry then .ok (entry &&& frameMask, m)
    else do
      let (res, m) ← m.handlePageFault p virt
      .ok (res.getD efault, m)
  | none => do
    let (res, m) ← m.handlePageFault p virt
    .ok (res.getD efault, m)

/-- The offset in the page at which the transfer starts (mem/vmm.cpp:199-202). -/
def pageOffset (start pageVirt : U64) : U64 :=
  if pageVirt < start then start - pageVirt else 0#64

/-- `bytes_in_page` (mem/vmm.cpp:198-206). -/
def bytesInPage (start end_ pageVirt : U64) : U64 :=
  let bytesInPage := pageSize - pageOffset start pageVirt
  if pageVirt + pageSize ≥ end_ then bytesInPage - (pageVirt + pageSize - end_) else bytesInPage

/-- The loop of `access_memory` (mem/vmm.cpp:196-222), at most `fuel` tests of its condition. -/
def accessLoop (p : PagemapId) (start end_ : U64) (write : Bool) :
    ℕ → U64 → U64 → Transfer → Except Panic (U64 × Transfer)
  | 0, _, _, _ => .error .diverges
  | fuel + 1, pageVirt, transferred, s =>
    if pageVirt ≤ alignDown end_ pageSize then
      let bytes := bytesInPage start end_ pageVirt
      if bytes = 0#64 then .ok (transferred, s)
      else do
        let (pagePhy, m) ← s.m.getPhysicalAddr p pageVirt
        if pagePhy = efault then
          .ok (if transferred ≠ 0#64 then transferred else efault, { s with m })
        else do
          let s ← Transfer.memcpy { s with m } write (pagePhy + pageOffset start pageVirt)
            transferred.toNat bytes.toNat
          accessLoop p start end_ write fuel (pageVirt + pageSize) (transferred + bytes) s
    else .ok (transferred, s)

/-- `access_memory` (mem/vmm.cpp:190-224). The loop tests its condition once for each page from
    that of `start` to that of `end`, and once more. -/
def Machine.accessMemory (m : Machine) (p : PagemapId) (virt : U64) (target : ℕ → BitVec 8)
    (count : U64) (write : Bool) : Except Panic (U64 × Transfer) :=
  let start := virt
  let end_ := virt + count
  accessLoop p start end_ write (end_.toNat / 4096 - start.toNat / 4096 + 2)
    (alignDown start pageSize) 0#64 { m, target }

/-! ## What is meant -/

/-- A range `addr_to_range` may return for `p`. -/
def Machine.Searched (m : Machine) (p : PagemapId) (r : RangeId) : Prop :=
  r ∈ m.rangeList p ∨ r ∈ m.rangeList .kernel ∨ (m.pagemap p).cachedRangeLookup = some r

/-- A range of the page map or of the kernel's holds the address. -/
def Machine.Held (m : Machine) (p : PagemapId) (virt : U64) : Prop :=
  ∃ r ∈ m.rangeList p ++ m.rangeList .kernel, (m.range r).Contains virt

instance (m : Machine) (p : PagemapId) (virt : U64) : Decidable (m.Held p virt) :=
  inferInstanceAs (Decidable (∃ r ∈ _, _))

/-- The page of the address is present, or a fault can make it so. -/
def Machine.Mapped (m : Machine) (p : PagemapId) (virt : U64) : Prop :=
  m.Present p virt ∨ m.Held p virt

instance (m : Machine) (p : PagemapId) (virt : U64) : Decidable (m.Mapped p virt) :=
  inferInstanceAs (Decidable (_ ∨ _))

/-- The largest `n` up to `count` such that the addresses from `virt` to `virt + n` are mapped. -/
def Machine.mappedPrefix (m : Machine) (p : PagemapId) (virt count : ℕ) : ℕ :=
  Nat.findGreatest (fun n => ∀ i < n, m.Mapped p (ofNat 64 (virt + i))) count

/-- A fault at the page that starts at `virt`, if it is absent. -/
def Machine.resolve (m : Machine) (p : PagemapId) (virt : U64) : Except Panic Machine :=
  if m.Present p virt then .ok m
  else do
    let (_, m) ← m.handlePageFault p virt
    .ok m

/-- The byte at the address `virt`, at the place the page tables name. -/
def Machine.loadByte (m : Machine) (p : PagemapId) (virt : ℕ) : BitVec 8 :=
  m.frame (frameOf (m.entry p (ofNat 64 virt))) (Fin.ofNat 4096 virt)

/-- The byte there becomes `b`. -/
def Machine.storeByte (m : Machine) (p : PagemapId) (virt : ℕ) (b : BitVec 8) : Machine :=
  let f := frameOf (m.entry p (ofNat 64 virt))
  m.setFrame f (Function.update (m.frame f) (Fin.ofNat 4096 virt) b)

/-- The faults at the pages of the first `n` bytes from `virt`; with `write`, each byte is stored
    when its page has been resolved. -/
def Machine.accessed (m : Machine) (p : PagemapId) (write : Bool) (virt : ℕ)
    (target : ℕ → BitVec 8) (n : ℕ) : Except Panic Machine :=
  (List.range n).foldlM (fun m i => do
    let m ← m.resolve p (alignDown (ofNat 64 (virt + i)) pageSize)
    .ok (if write then m.storeByte p (virt + i) (target i) else m)) m

/-- Where bytes are left of `count`, there is a fault at the next page, too. -/
def Machine.accessFaults (m : Machine) (p : PagemapId) (write : Bool) (virt : ℕ)
    (target : ℕ → BitVec 8) (n count : ℕ) : Except Panic Machine := do
  let m ← m.accessed p write virt target n
  if n = count then .ok m
  else do
    let (_, m) ← m.handlePageFault p (alignDown (ofNat 64 (virt + n)) pageSize)
    .ok m

/-- `n` bytes of `m` from `virt` on have been moved: each of `target` is the one at its address when
    the page there has been resolved, and nothing else of `target` has changed. -/
structure Transferred (m : Machine) (p : PagemapId) (write : Bool) (virt : ℕ)
    (target : ℕ → BitVec 8) (n : ℕ) (s : Transfer) : Prop where
  loaded : write = false → ∀ i < n, ∃ m', m.accessed p write virt target (i + 1) = .ok m' ∧
    s.target i = m'.loadByte p (virt + i)
  stored : write = true → ∀ i < n, ∃ m', m.accessed p write virt target (i + 1) = .ok m' ∧
    m'.loadByte p (virt + i) = target i
  rest : ∀ i, write = true ∨ n ≤ i → s.target i = target i

/-- One byte between the address `virt + i` and `target[i]`, at the place the page tables name. -/
def Transfer.moveByte (p : PagemapId) (write : Bool) (virt : ℕ) (s : Transfer) (i : ℕ) : Transfer :=
  s.moveAt write (frameOf (s.m.entry p (ofNat 64 (virt + i)))) (Fin.ofNat 4096 (virt + i)) i

/-- The page of the address `virt + i` is resolved and the byte there moved. -/
def Transfer.accessByte (p : PagemapId) (write : Bool) (virt : ℕ) (s : Transfer) (i : ℕ) :
    Except Panic Transfer := do
  let m ← s.m.resolve p (alignDown (ofNat 64 (virt + i)) pageSize)
  .ok (Transfer.moveByte p write virt { s with m } i)

/-- The first `n` bytes from `virt`, one after the other. -/
def Transfer.transferBytes (p : PagemapId) (write : Bool) (virt n : ℕ) (s : Transfer) :
    Except Panic Transfer :=
  (List.range n).foldlM (Transfer.accessByte p write virt) s

/-- The result after `n` bytes of `count`; where some are left, the fault at the next page fails. -/
def Transfer.finish (p : PagemapId) (virt n count : ℕ) (s : Transfer) :
    Except Panic (U64 × Transfer) :=
  if n = count then .ok (ofNat 64 n, s)
  else do
    let (_, m) ← s.m.handlePageFault p (alignDown (ofNat 64 (virt + n)) pageSize)
    .ok (if n = 0 then efault else ofNat 64 n, { s with m })

/-- The longest mapped prefix is transferred. -/
def Machine.accessPrefix (m : Machine) (p : PagemapId) (virt : ℕ) (target : ℕ → BitVec 8)
    (count : ℕ) (write : Bool) : Except Panic (U64 × Transfer) := do
  let n := m.mappedPrefix p virt count
  let s ← Transfer.transferBytes p write virt n { m, target }
  s.finish p virt n count

/-- The ranges of a page map are those the kernel makes. -/
structure UserMap (m : Machine) (p : PagemapId) : Prop where
  /-- Ranges consist of pages. -/
  aligned : ∀ r, m.Searched p r →
    PageAligned (m.range r).base ∧ PageAligned (m.range r).length
  /-- `ASSERT(page_flags & PAGE_PRESENT)` (mem/vmm.cpp:492, 497, 502). -/
  present : ∀ r, m.Searched p r → isPresent (m.range r).pageFlags
  flags : ∀ r, m.Searched p r → (m.range r).pageFlags &&& frameMask = 0#64
  /-- A `DIRECT` range shows frames. -/
  direct : ∀ r, m.Searched p r → (m.range r).type = .direct → ∀ v, (m.range r).Contains v →
    ∃ f : Pfn, (m.range r).mirrored v = f.phy
  /-- A `DIRECT_VIRTUAL` range "mirrors another virtual mapping in the kernel" (mem/vmm.hpp:33). -/
  mirrors : ∀ r, m.Searched p r → (m.range r).type = .directVirtual → ∀ v,
    (m.range r).Contains v → UpperHalf ((m.range r).mirrored v)
  /-- A range that was looked up last is linked, or was one of kernel addresses. -/
  cache : ∀ c, (m.pagemap p).cachedRangeLookup = some c →
    c ∈ m.rangeList p ∨ c ∈ m.rangeList .kernel ∨ ∀ v, (m.range c).Contains v → UpperHalf v

/-! ## Addresses -/

theorem frameOf_phy (f : Pfn) : frameOf f.phy = f := by
  have h := @frameOf_phy_or f 0#64 (by simp)
  rwa [BitVec.or_zero] at h

theorem not_upperHalf {v : U64} (h : v.toNat < 2 ^ 47) : ¬UpperHalf v := by
  rw [upperHalf_iff]
  unfold vpn
  omega

theorem vpn_of_lower {v : U64} (h : v.toNat < 2 ^ 47) : vpn v = v.toNat / 4096 := by
  unfold vpn
  exact Nat.mod_eq_of_lt (by omega)

/-- Two addresses of the lower half are on one page. -/
theorem samePage_lower_iff {p : PagemapId} {v w : U64} (hv : v.toNat < 2 ^ 47)
    (hw : w.toNat < 2 ^ 47) : SamePage p v p w ↔ v.toNat / 4096 = w.toNat / 4096 := by
  unfold SamePage
  rw [← vpn_of_lower hv, ← vpn_of_lower hw]
  exact and_iff_right_of_imp fun h => tablesOf_of_vpn p h

theorem contains_congr {r : MappedRange} (hb : PageAligned r.base) (hl : PageAligned r.length)
    {v w : U64} (h : v.toNat / 4096 = w.toNat / 4096) : r.Contains v ↔ r.Contains w := by
  have key : ∀ {v w : U64}, v.toNat / 4096 = w.toNat / 4096 → r.Contains v → r.Contains w := by
    intro v w h hv
    unfold PageAligned at hb hl
    unfold MappedRange.Contains MappedRange.end_ at hv ⊢
    rw [le_def, BitVec.lt_def, toNat_add] at hv ⊢
    omega
  exact ⟨key h, key h.symm⟩

/-! ## Page faults -/

section Faults

variable {p : PagemapId} {m m' : Machine}

/-- The range that has been looked up last is the former one or a linked one. -/
theorem cached_after_addrToRange {v : U64} {res : Option RangeId}
    (h : m.addrToRange p v = (res, m')) {c : RangeId}
    (hc : (m'.pagemap p).cachedRangeLookup = some c) : m.Searched p c := by
  obtain ⟨-, -, -, -, rfl⟩ | ⟨-, -, rfl⟩ | ⟨r, hs, -, rfl⟩ := addrToRange_cases h
  · exact .inr (.inr hc)
  · exact .inr (.inr hc)
  · rw [cachedRangeLookup_setCache, if_pos rfl] at hc
    cases hc
    exact (searchRange_some hs).1.imp_right .inl

theorem Machine.Searched.congr {c : RangeId} (hlist : ∀ q, m'.rangeList q = m.rangeList q)
    (hcache : ∀ c, (m'.pagemap p).cachedRangeLookup = some c → m.Searched p c)
    (h : m'.Searched p c) : m.Searched p c := by
  rcases h with h | h | h
  · exact .inl (hlist p ▸ h)
  · exact .inr (.inl (hlist .kernel ▸ h))
  · exact hcache c h

theorem PagesOnly.searched (h : PagesOnly m m') {c : RangeId} (hc : m'.Searched p c) :
    m.Searched p c :=
  hc.congr h.rangeList fun _ hc => .inr (.inr (h.cachedRangeLookup p ▸ hc))

theorem searched_placeFault {v : U64} {r : RangeId} {f : Pfn} (c : Frame) {s : RangeId}
    (h : (placeFault m p v r f c).Searched p s) : m.Searched p s :=
  (pagesOnly_relinked m p (alignDown v pageSize) r f).searched (h.congr (fun _ => rfl)
    fun _ hc => .inr (.inr hc))

theorem searched_addrToRange {v : U64} {res : Option RangeId} (h : m.addrToRange p v = (res, m'))
    {c : RangeId} (hc : m'.Searched p c) : m.Searched p c :=
  hc.congr (sameRanges_addrToRange h).rangeList fun _ => cached_after_addrToRange h

/-- A fault looks up no other range than those of the lists. -/
theorem searched_fault {c : RangeId} : ∀ {fuel : ℕ} {v : U64} {m m' : Machine} {res : Option U64},
    Machine.handlePageFaultFuel p fuel v m = .ok (res, m') → m'.Searched p c →
      m.Searched p c := by
  intro fuel
  induction fuel with
  | zero =>
    intro v m m' res h
    cases h
  | succ fuel ih =>
    intro v m m' res h hc
    obtain ⟨m1, h1, hcase⟩ := handlePageFaultFuel_cases h
    apply (pagesOnly_createEntry h1).searched
    rcases hcase with ⟨-, -, rfl⟩ | ⟨-, h2, -⟩ | ⟨r, m2, -, h2, hin⟩
    · exact hc
    · exact searched_addrToRange h2 hc
    · apply searched_addrToRange h2
      cases hin with
      | anonymous _ ha => exact (pagesOnly_allocPage ha).searched (searched_placeFault _ hc)
      | file _ _ ha => exact (pagesOnly_allocPage ha).searched (searched_placeFault _ hc)
      | direct _ => exact (pagesOnly_writeEntry _ _ _ _).searched hc
      | mirror _ walk _ =>
        have hc3 := (pagesOnly_writeEntry _ _ _ _).searched hc
        rcases walk with rfl | ⟨-, res', hrec⟩
        · exact hc3
        · exact ih hrec hc3
      | mirrorFails _ _ walk => exact ih walk hc

/-- The range that serves a fault is one of the lists, or the one looked up last. -/
theorem searched_of_addrToRange {v : U64} {r : RangeId} (h : m.addrToRange p v = (some r, m')) :
    m.Searched p r :=
  cached_after_addrToRange h (cached_addrToRange h)

theorem UserMap.congr (h : UserMap m p) (hs : SameRanges p m m')
    (hc : ∀ c, m'.Searched p c → m.Searched p c) : UserMap m' p where
  aligned r hr := by
    rw [hs.range]
    exact h.aligned r (hc r hr)
  present r hr := by
    rw [hs.range]
    exact h.present r (hc r hr)
  flags r hr := by
    rw [hs.range]
    exact h.flags r (hc r hr)
  direct r hr := by
    rw [hs.range]
    exact h.direct r (hc r hr)
  mirrors r hr := by
    rw [hs.range]
    exact h.mirrors r (hc r hr)
  cache c hcache := by
    rw [hs.range, hs.rangeList, hs.rangeList]
    rcases hc c (.inr (.inr hcache)) with hl | hl | hl
    · exact .inl hl
    · exact .inr (.inl hl)
    · exact h.cache c hl

section

variable {v : U64}

theorem UserMap.fault (h : UserMap m p) {fuel : ℕ} {res : Option U64}
    (hrun : Machine.handlePageFaultFuel p fuel v m = .ok (res, m')) : UserMap m' p :=
  h.congr (sameRanges_handlePageFaultFuel hrun) fun _ => searched_fault hrun

theorem contains_of_addrToRange {r : RangeId} (h : m.addrToRange p v = (some r, m')) :
    (m.range r).Contains v := by
  obtain ⟨c, -, hcon, hr, -⟩ | ⟨-, hr, -⟩ | ⟨s, hs, hr, -⟩ := addrToRange_cases h
  · rwa [Option.some.inj hr]
  · cases hr
  · rw [Option.some.inj hr]
    exact (searchRange_some hs).2

theorem entry_writeEntry_other (m : Machine) {q : PagemapId} {w : U64} (h : ¬SamePage q w p v)
    (x : U64) : (m.writeEntry p v x).entry q w = m.entry q w := by
  unfold Machine.entry
  rw [findEntry_writeEntry, if_neg h]

theorem entry_addrToRange {res : Option RangeId} (h : m.addrToRange p v = (res, m')) (q : PagemapId)
    (w : U64) : m'.entry q w = m.entry q w := by
  unfold Machine.entry
  rw [findEntry_addrToRange h]

theorem entry_createEntry (h : m.createEntry p v = .ok m') (q : PagemapId) (w : U64) :
    m'.entry q w = m.entry q w := by
  obtain ⟨-, -, -, -, -, -, hentry, -⟩ := createEntry_spec h
  exact hentry q w

/-- The state in which the range that serves a fault has been found. -/
theorem UserMap.looked (h : UserMap m p) {m1 : Machine} {res : Option RangeId}
    (h1 : m.createEntry p v = .ok m1) (h2 : m1.addrToRange p v = (res, m')) : UserMap m' p :=
  let hpages := pagesOnly_createEntry h1
  (h.congr (hpages.sameRanges p) fun _ => hpages.searched).congr (sameRanges_addrToRange h2)
    fun _ => searched_addrToRange h2

theorem entry_fault_other (hv : v.toNat < 2 ^ 47) :
    ∀ {fuel : ℕ} {w : U64} {m m' : Machine} {res : Option U64}, UserMap m p →
      Machine.handlePageFaultFuel p fuel w m = .ok (res, m') → ¬SamePage p v p w →
        m'.entry p v = m.entry p v := by
  intro fuel
  induction fuel with
  | zero =>
    intro w m m' res _ h
    cases h
  | succ fuel ih =>
    intro w m m' res hmap h hne
    obtain ⟨m1, h1, hcase⟩ := handlePageFaultFuel_cases h
    rw [← entry_createEntry h1]
    rcases hcase with ⟨-, -, rfl⟩ | ⟨-, h2, -⟩ | ⟨r, m2, -, h2, hin⟩
    · rfl
    · exact entry_addrToRange h2 p v
    · rw [← entry_addrToRange h2]
      have hmap2 := hmap.looked h1 h2
      -- a mirrored page is one of the kernel
      have hmirror : ∀ {m3 : Machine} {res' : Option U64}, (m2.range r).type = .directVirtual →
          Machine.handlePageFaultFuel p fuel ((m2.range r).mirrored w) m2 = .ok (res', m3) →
            m3.entry p v = m2.entry p v := by
        intro m3 res' ht hrec
        refine ih hmap2 hrec fun hsame => not_upperHalf hv ?_
        have hcon : (m2.range r).Contains w := by
          rw [(sameRanges_addrToRange h2).range]
          exact contains_of_addrToRange h2
        have hup := hmap2.mirrors r (.inr (.inr (cached_addrToRange h2))) ht w hcon
        rw [upperHalf_iff] at hup ⊢
        rw [hsame.2]
        exact hup
      cases hin with
      | anonymous _ ha =>
        unfold Machine.entry
        rw [findEntry_placeFault _ ha]
        exact entry_writeEntry_other m2 hne _
      | file _ _ ha =>
        unfold Machine.entry
        rw [findEntry_placeFault _ ha]
        exact entry_writeEntry_other m2 hne _
      | direct _ => exact entry_writeEntry_other m2 hne _
      | mirror ht walk _ =>
        rw [entry_writeEntry_other _ hne]
        rcases walk with rfl | ⟨-, res', hrec⟩
        · rfl
        · exact hmirror ht hrec
      | mirrorFails ht _ walk => exact hmirror ht walk

theorem searchRange_none_iff : m.searchRange p v = none ↔ ¬m.Held p v := by
  unfold Machine.searchRange Machine.Held
  simp only [List.mem_append, not_exists, not_and]
  constructor
  · intro h r hr
    split at h
    · cases h
    · next hown =>
      rcases hr with hr | hr
      · simpa using List.find?_eq_none.mp hown r hr
      · split_ifs at h with hk
        · subst hk
          simpa using List.find?_eq_none.mp hown r hr
        · simpa using List.find?_eq_none.mp h r hr
  · intro h
    have hown : (m.rangeList p).find? (fun r => decide ((m.range r).Contains v)) = none :=
      List.find?_eq_none.mpr fun r hr => by simpa using h r (.inl hr)
    rw [hown]
    dsimp only
    split_ifs
    · rfl
    · exact List.find?_eq_none.mpr fun r hr => by simpa using h r (.inr hr)

/-- A user address is looked up in vain if and only if no range holds it. -/
theorem UserMap.addrToRange_isSome_iff (h : UserMap m p) (hv : v.toNat < 2 ^ 47) :
    (m.addrToRange p v).1.isSome ↔ m.Held p v := by
  have hsearch : (m.searchRange p v).isSome ↔ m.Held p v := by
    rw [← not_iff_not, ← searchRange_none_iff, Bool.not_eq_true, Option.isSome_eq_false_iff,
      Option.isNone_iff_eq_none]
  have hmiss : (m.addrToRange p v).1 = m.searchRange p v →
      ((m.addrToRange p v).1.isSome ↔ m.Held p v) := fun hsame => by rw [hsame, hsearch]
  cases hcache : (m.pagemap p).cachedRangeLookup with
  | none =>
    refine hmiss ?_
    unfold Machine.addrToRange
    dsimp only
    rw [hcache]
    cases m.searchRange p v <;> rfl
  | some c =>
    by_cases hcon : (m.range c).Contains v
    · have hfound : (m.addrToRange p v).1 = some c := by
        unfold Machine.addrToRange
        dsimp only
        rw [hcache]
        dsimp only
        rw [if_pos hcon]
      rw [hfound]
      refine iff_of_true rfl ⟨c, ?_, hcon⟩
      rcases h.cache c hcache with hl | hl | hl
      · exact List.mem_append_left _ hl
      · exact List.mem_append_right _ hl
      · exact absurd (hl v hcon) (not_upperHalf hv)
    · refine hmiss ?_
      unfold Machine.addrToRange
      dsimp only
      rw [hcache]
      dsimp only
      rw [if_neg hcon]
      cases m.searchRange p v <;> rfl

end

theorem Machine.Held.congr (hrange : m'.range = m.range)
    (hlist : ∀ q, m'.rangeList q = m.rangeList q) (v : U64) : m'.Held p v ↔ m.Held p v := by
  unfold Machine.Held
  rw [hrange, hlist, hlist]

/-- Where no range holds a user address, a fault at it fails and leaves the entries as they are. -/
theorem fault_of_not_held (hmap : UserMap m p) {v : U64} (hv : v.toNat < 2 ^ 47)
    (hheld : ¬m.Held p v) {fuel : ℕ} {res : Option U64}
    (h : Machine.handlePageFaultFuel p fuel v m = .ok (res, m')) :
    res = none ∧ ∀ q w, m'.entry q w = m.entry q w := by
  cases fuel with
  | zero => cases h
  | succ fuel =>
    obtain ⟨m1, h1, hcase⟩ := handlePageFaultFuel_cases h
    have hpages := pagesOnly_createEntry h1
    rcases hcase with ⟨-, rfl, rfl⟩ | ⟨-, h2, rfl⟩ | ⟨r, m2, -, h2, -⟩
    · exact ⟨rfl, entry_createEntry h1⟩
    · refine ⟨rfl, fun q w => ?_⟩
      rw [entry_addrToRange h2, entry_createEntry h1]
    · have hmap1 := hmap.congr (hpages.sameRanges p) fun _ => hpages.searched
      have hsome := (hmap1.addrToRange_isSome_iff hv).mp (by rw [h2]; rfl)
      exact absurd ((Machine.Held.congr hpages.range hpages.rangeList v).mp hsome) hheld

/-- Where a range holds a user address whose page is absent, a fault returns the frame it maps. -/
theorem fault_of_held (hmap : UserMap m p) {v : U64} (hv : v.toNat < 2 ^ 47)
    (habs : ¬m.Present p v) (hheld : m.Held p v) {fuel : ℕ} {res : Option U64}
    (h : Machine.handlePageFaultFuel p fuel v m = .ok (res, m')) :
    res = some (frameOf (m'.entry p v)).phy ∧ m'.Present p v := by
  have hpresent := present_of_fault h habs
  have hfound : (m.addrToRange p v).1.isSome := (hmap.addrToRange_isSome_iff hv).mpr hheld
  obtain ⟨r, hr⟩ := Option.isSome_iff_exists.mp hfound
  have hsearched : m.Searched p r :=
    searched_of_addrToRange (show m.addrToRange p v = (some r, (m.addrToRange p v).2) from
      Prod.ext hr rfl)
  refine ⟨?_, hpresent.mpr ⟨r, hr, hmap.present r hsearched⟩⟩
  cases fuel with
  | zero => cases h
  | succ fuel =>
    obtain ⟨m1, h1, hcase⟩ := handlePageFaultFuel_cases h
    have hpages := pagesOnly_createEntry h1
    have hfst := addrToRange_fst_congr hpages.range hpages.rangeList (hpages.cachedRangeLookup p) v
    rcases hcase with ⟨hp, -⟩ | ⟨-, h2, -⟩ | ⟨r', m2, habs1, h2, hin⟩
    · unfold Machine.Present at hp habs
      rw [entry_createEntry h1] at hp
      exact absurd hp habs
    · rw [h2, hr] at hfst
      cases hfst
    · obtain rfl : r' = r := by
        rw [h2, hr] at hfst
        exact Option.some.inj hfst
      have hrange : m2.range = m.range := (sameRanges_addrToRange h2).range.trans hpages.range
      have hsome2 : (m2.findEntry p v).isSome := by
        rw [findEntry_addrToRange h2]
        exact (isSome_findEntry_createEntry h1 p v).mpr (.inr (SamePage.sameTable ⟨rfl, rfl⟩))
      have hflags := hmap.flags r' hsearched
      rw [← hrange] at hflags
      by_cases ht : (m2.range r').type = .directVirtual
      · obtain ⟨m3, target, hwalk, -, rfl, rfl⟩ := handlePageFaultFuel_mirror h h1 habs1 h2 ht
        have hsome3 : (m3.findEntry p v).isSome := by
          rcases hwalk with rfl | ⟨-, res', hrec⟩
          · exact hsome2
          · exact isSome_findEntry_fault hrec (.inl hsome2)
        rw [entry_writeEntry_self hsome3, and_frameMask, frameOf_phy_or hflags]
      · cases hin with
        | anonymous _ ha =>
          unfold Machine.entry
          rw [findEntry_placeFault _ ha]
          change _ = some (frameOf (Machine.entry _ p v)).phy
          rw [entry_writeEntry_self hsome2, frameOf_phy_or hflags]
        | file _ _ ha =>
          unfold Machine.entry
          rw [findEntry_placeFault _ ha]
          change _ = some (frameOf (Machine.entry _ p v)).phy
          rw [entry_writeEntry_self hsome2, frameOf_phy_or hflags]
        | direct ht' =>
          have hcon : (m.range r').Contains v := contains_of_addrToRange (Prod.ext hr rfl)
          obtain ⟨f, hf⟩ := hmap.direct r' hsearched (by rw [← hrange]; exact ht') v hcon
          have hphy : (m2.range r').position v + (m2.range r').phyBase = f.phy := by
            rw [hrange]
            exact hf
          rw [entry_writeEntry_self hsome2, hphy, and_frameMask, frameOf_phy_or hflags, frameOf_phy]
        | mirror type => exact absurd type ht
        | mirrorFails type => exact absurd type ht

theorem UserMap.held_congr (h : UserMap m p) {v w : U64} (hvw : v.toNat / 4096 = w.toNat / 4096) :
    m.Held p v ↔ m.Held p w := by
  have key : ∀ r ∈ m.rangeList p ++ m.rangeList .kernel,
      ((m.range r).Contains v ↔ (m.range r).Contains w) := by
    intro r hr
    obtain ⟨hb, hl⟩ := h.aligned r ((List.mem_append.mp hr).imp_right .inl)
    exact contains_congr hb hl hvw
  unfold Machine.Held
  exact exists_congr fun r => and_congr_right fun hr => key r hr

theorem UserMap.mapped_congr (h : UserMap m p) {v w : U64} (hv : v.toNat < 2 ^ 47)
    (hw : w.toNat < 2 ^ 47) (hvw : v.toNat / 4096 = w.toNat / 4096) :
    m.Mapped p v ↔ m.Mapped p w :=
  or_congr (present_samePage m ((samePage_lower_iff hv hw).mpr hvw)) (h.held_congr hvw)

/-- Faults change nothing about which user addresses are mapped. -/
theorem mapped_handlePageFault (hmap : UserMap m p) {v w : U64} (hv : v.toNat < 2 ^ 47)
    (hw : w.toNat < 2 ^ 47) {res : Option U64} (h : m.handlePageFault p w = .ok (res, m')) :
    m'.Mapped p v ↔ m.Mapped p v := by
  have hsame := sameRanges_handlePageFault h
  have hheld := Machine.Held.congr hsame.range hsame.rangeList (p := p) v
  unfold Machine.Mapped
  rw [hheld]
  by_cases hv' : m.Held p v
  · simp [hv']
  · suffices hentry : m'.entry p v = m.entry p v by
      unfold Machine.Present
      rw [hentry]
    by_cases hpage : SamePage p v p w
    · rw [hmap.held_congr ((samePage_lower_iff hv hw).mp hpage)] at hv'
      exact (fault_of_not_held hmap hw hv' h).2 p v
    · exact entry_fault_other hv hmap h hpage

theorem UserMap.resolve (hmap : UserMap m p) {w : U64} (hw : w.toNat < 2 ^ 47)
    (h : m.resolve p w = .ok m') :
    UserMap m' p ∧ ∀ v : U64, v.toNat < 2 ^ 47 → (m'.Mapped p v ↔ m.Mapped p v) := by
  unfold Machine.resolve at h
  split_ifs at h
  · cases h
    exact ⟨hmap, fun _ _ => Iff.rfl⟩
  · obtain ⟨⟨res, m1⟩, h1, rfl⟩ := bind_pure_ok h
    exact ⟨hmap.fault h1, fun v hv => mapped_handlePageFault hmap hv hw h1⟩

theorem present_of_resolve (hmap : UserMap m p) {w : U64} (hw : w.toNat < 2 ^ 47)
    (hm : m.Mapped p w) (h : m.resolve p w = .ok m') : m'.Present p w := by
  unfold Machine.resolve at h
  split_ifs at h with hp
  · cases h
    exact hp
  · obtain ⟨⟨res, m1⟩, h1, rfl⟩ := bind_pure_ok h
    exact (fault_of_held hmap hw hp (hm.resolve_left hp) h1).2

theorem getPhysicalAddr_of_absent {v : U64} (h : ¬m.Present p v) :
    m.getPhysicalAddr p v = (do
      let (res, m) ← m.handlePageFault p v
      .ok (res.getD efault, m)) := by
  unfold Machine.getPhysicalAddr
  split
  · next entry hentry =>
    have : m.entry p v = entry := by
      unfold Machine.entry
      rw [hentry, Option.getD_some]
    unfold Machine.Present at h
    rw [this] at h
    rw [if_neg h]
  · rfl

theorem getPhysicalAddr_mapped (hmap : UserMap m p) {v : U64} (hv : v.toNat < 2 ^ 47)
    (hm : m.Mapped p v) : m.getPhysicalAddr p v = (do
      let m ← m.resolve p v
      .ok ((frameOf (m.entry p v)).phy, m)) := by
  by_cases hp : m.Present p v
  · obtain ⟨entry, hentry⟩ := Option.isSome_iff_exists.mp (isSome_findEntry_of_present hp)
    have hval : m.entry p v = entry := by
      unfold Machine.entry
      rw [hentry, Option.getD_some]
    unfold Machine.resolve
    rw [if_pos hp, ok_bind, hval]
    unfold Machine.Present at hp
    rw [hval] at hp
    unfold Machine.getPhysicalAddr
    rw [hentry]
    dsimp only
    rw [if_pos hp, and_frameMask]
  · rw [getPhysicalAddr_of_absent hp]
    unfold Machine.resolve
    rw [if_neg hp]
    cases hf : m.handlePageFault p v with
    | error e => rfl
    | ok x =>
      obtain ⟨res, m'⟩ := x
      obtain ⟨rfl, -⟩ := fault_of_held hmap hv hp (hm.resolve_left hp) hf
      rfl

theorem getPhysicalAddr_unmapped (hmap : UserMap m p) {v : U64} (hv : v.toNat < 2 ^ 47)
    (hm : ¬m.Mapped p v) : m.getPhysicalAddr p v = (do
      let (_, m) ← m.handlePageFault p v
      .ok (efault, m)) := by
  obtain ⟨hp, hheld⟩ := not_or.mp hm
  rw [getPhysicalAddr_of_absent hp]
  cases hf : m.handlePageFault p v with
  | error e => rfl
  | ok x =>
    obtain ⟨res, m'⟩ := x
    obtain ⟨rfl, -⟩ := fault_of_not_held hmap hv hheld hf
    rfl

end Faults

/-! ## The bytes of a page -/

section Bytes

variable {p : PagemapId} {write : Bool} {virt : ℕ}

@[simp] theorem entry_moveAt (s : Transfer) (f : Pfn) (k : Fin 4096) (i : ℕ) (v : U64) :
    (s.moveAt write f k i).m.entry p v = s.m.entry p v := by
  unfold Transfer.moveAt
  split_ifs <;> rfl

theorem foldl_moveByte {f : Pfn} {w : U64} {l : List ℕ}
    (hl : ∀ i ∈ l, SamePage p (ofNat 64 (virt + i)) p w) (s : Transfer)
    (hf : frameOf (s.m.entry p w) = f) :
    l.foldl (Transfer.moveByte p write virt) s =
      l.foldl (fun s i => s.moveAt write f (Fin.ofNat 4096 (virt + i)) i) s := by
  induction l generalizing s with
  | nil => rfl
  | cons i l ih =>
    have hstep : s.moveByte p write virt i = s.moveAt write f (Fin.ofNat 4096 (virt + i)) i := by
      unfold Transfer.moveByte
      rw [entry_samePage s.m (hl i List.mem_cons_self), hf]
    rw [List.foldl_cons, List.foldl_cons, hstep]
    exact ih (fun j hj => hl j (List.mem_cons_of_mem _ hj)) _ (by rw [entry_moveAt, hf])

theorem foldl_moveByte_frame (p : PagemapId) (write : Bool) (virt : ℕ) (l : List ℕ) (s : Transfer) :
    ∃ frame, (l.foldl (Transfer.moveByte p write virt) s).m = { s.m with frame } := by
  induction l generalizing s with
  | nil => exact ⟨s.m.frame, rfl⟩
  | cons i l ih =>
    obtain ⟨frame, h⟩ := ih (s.moveByte p write virt i)
    refine ⟨frame, ?_⟩
    rw [List.foldl_cons, h]
    unfold Transfer.moveByte Transfer.moveAt
    split_ifs <;> rfl

/-- Once the page is present, its bytes are moved without a fault. -/
theorem foldlM_accessByte {w : U64} {l : List ℕ}
    (hl : ∀ i ∈ l, alignDown (ofNat 64 (virt + i)) pageSize = w) (s : Transfer)
    (hp : s.m.Present p w) :
    l.foldlM (Transfer.accessByte p write virt) s =
      .ok (l.foldl (Transfer.moveByte p write virt) s) := by
  induction l generalizing s with
  | nil => rfl
  | cons i l ih =>
    have hstep : s.accessByte p write virt i = .ok (s.moveByte p write virt i) := by
      unfold Transfer.accessByte Machine.resolve
      rw [hl i List.mem_cons_self, if_pos hp, ok_bind]
    rw [List.foldlM_cons, hstep, ok_bind, List.foldl_cons]
    refine ih (fun j hj => hl j (List.mem_cons_of_mem _ hj)) _ ?_
    unfold Machine.Present Transfer.moveByte at *
    rwa [entry_moveAt]

/-- The bytes of one page: the page is resolved for the first of them. -/
theorem accessByte_page (write : Bool) (target : ℕ → BitVec 8) {w : U64} {m : Machine} {i : ℕ}
    {l : List ℕ} (hmap : UserMap m p) (hw : w.toNat < 2 ^ 47) (hm : m.Mapped p w)
    (hl : ∀ j ∈ i :: l, alignDown (ofNat 64 (virt + j)) pageSize = w) :
    (i :: l).foldlM (Transfer.accessByte p write virt) { m, target } = (do
      let m ← m.resolve p w
      .ok ((i :: l).foldl (Transfer.moveByte p write virt) { m, target })) := by
  have hfirst : Transfer.accessByte p write virt { m, target } i = (do
      let m ← m.resolve p w
      .ok (Transfer.moveByte p write virt { m, target } i)) := by
    unfold Transfer.accessByte
    rw [hl i List.mem_cons_self]
  rw [List.foldlM_cons, hfirst]
  cases hr : m.resolve p w with
  | error e => rfl
  | ok m' =>
    rw [ok_bind, ok_bind, ok_bind, List.foldl_cons]
    refine foldlM_accessByte (fun j hj => hl j (List.mem_cons_of_mem _ hj)) _ ?_
    have hp := present_of_resolve hmap hw hm hr
    unfold Machine.Present Transfer.moveByte at *
    rwa [entry_moveAt]

theorem accessByte_page_ok {w : U64} {s s' : Transfer} {l : List ℕ} (hmap : UserMap s.m p)
    (hw : w.toNat < 2 ^ 47) (hm : s.m.Mapped p w) (hne : l ≠ [])
    (hl : ∀ j ∈ l, alignDown (ofNat 64 (virt + j)) pageSize = w)
    (h : l.foldlM (Transfer.accessByte p write virt) s = .ok s') :
    UserMap s'.m p ∧ ∀ v : U64, v.toNat < 2 ^ 47 → (s'.m.Mapped p v ↔ s.m.Mapped p v) := by
  obtain ⟨i, l, rfl⟩ := List.exists_cons_of_ne_nil hne
  have hpage := accessByte_page write s.target hmap hw hm hl
  obtain ⟨m, hr, hs⟩ := bind_ok (hpage.symm.trans h)
  cases hs
  obtain ⟨hmap', hmapped⟩ := hmap.resolve hw hr
  obtain ⟨frame, hf⟩ := foldl_moveByte_frame p write virt (i :: l) { m, target := s.target }
  have hsame : SameRanges p m { m with frame } :=
    ⟨rfl, rfl, fun _ => rfl, rfl, rfl, rfl, rfl, rfl, fun _ _ => rfl⟩
  rw [hf]
  exact ⟨hmap'.congr hsame fun _ hc => hc, hmapped⟩

theorem memcpy_eq (virt : ℕ) {f : Pfn} {offset : U64} {t count : ℕ} (s : Transfer)
    (hoff : (virt + t) % 4096 = offset.toNat) (hfit : offset.toNat + count ≤ 4096) :
    s.memcpy write (f.phy + offset) t count =
      .ok ((List.range' t count).foldl
        (fun s i => s.moveAt write f (Fin.ofNat 4096 (virt + i)) i) s) := by
  have hf := f.isLt
  have hphy : (f.phy + offset).toNat = f.toNat * 4096 + offset.toNat := by
    rw [toNat_add, toNat_phy]
    omega
  unfold Transfer.memcpy
  rw [hphy, if_pos (by omega), List.range'_eq_map_range, List.foldl_map]
  congr 1
  refine List.foldl_ext _ _ _ fun s j hj => ?_
  rw [List.mem_range] at hj
  have hframe : ofNat 40 ((f.toNat * 4096 + offset.toNat + j) / 4096) = f := by
    rw [show (f.toNat * 4096 + offset.toNat + j) / 4096 = f.toNat by omega]
    exact BitVec.ofNat_toNat 40 f |>.trans (BitVec.setWidth_eq f)
  have hplace : Fin.ofNat 4096 (f.toNat * 4096 + offset.toNat + j) =
      Fin.ofNat 4096 (virt + (t + j)) := by
    apply Fin.ext
    rw [Fin.val_ofNat, Fin.val_ofNat]
    omega
  rw [hframe, hplace]

end Bytes

/-! ## The loop -/

section Loop

variable {virt count : U64}

/-- The transfer in page `k` ends where the buffer or the page ends. -/
def pageEnd (virt count : U64) (k : ℕ) : ℕ := min (virt.toNat + count.toNat) ((k + 1) * 4096)

theorem toNat_pageOffset (virt : U64) {k : ℕ} (hk : k * 4096 < 2 ^ 64) :
    (pageOffset virt (ofNat 64 (k * 4096))).toNat = virt.toNat - k * 4096 := by
  have hv := virt.isLt
  unfold pageOffset
  simp only [BitVec.lt_def, toNat_ofNat]
  split_ifs with h
  · rw [toNat_sub, toNat_ofNat]
    omega
  · simp only [toNat_ofNat]
    omega

section

variable (hend : virt.toNat + count.toNat ≤ 2 ^ 47) {k : ℕ}

include hend

theorem toNat_bytesInPage (hlo : virt.toNat / 4096 ≤ k)
    (hhi : k ≤ (virt.toNat + count.toNat) / 4096) :
    (bytesInPage virt (virt + count) (ofNat 64 (k * 4096))).toNat =
      pageEnd virt count k - max virt.toNat (k * 4096) := by
  have hoff := toNat_pageOffset virt (k := k) (by omega)
  have hsum : (virt + count).toNat = virt.toNat + count.toNat := by
    rw [toNat_add]
    omega
  have hnext : (ofNat 64 (k * 4096) + pageSize).toNat = (k + 1) * 4096 := by
    rw [toNat_add, toNat_ofNat]
    simp only [pageSize, toNat_ofNat]
    omega
  have hfull : (pageSize - pageOffset virt (ofNat 64 (k * 4096))).toNat =
      4096 - (virt.toNat - k * 4096) := by
    rw [toNat_sub, hoff]
    simp only [pageSize, toNat_ofNat]
    omega
  unfold bytesInPage pageEnd
  simp only [ge_iff_le, le_def, hsum, hnext]
  split_ifs with h
  · rw [toNat_sub, toNat_sub, hfull, hsum, hnext]
    omega
  · rw [hfull]
    omega

/-- The loop goes on up to the page in which the buffer ends. -/
theorem pageVirt_le_iff (hk : k * 4096 < 2 ^ 64) :
    ofNat 64 (k * 4096) ≤ alignDown (virt + count) pageSize ↔
      k ≤ (virt.toNat + count.toNat) / 4096 := by
  rw [le_def, toNat_alignDown, toNat_add, toNat_ofNat]
  omega

theorem bytesInPage_eq_zero_iff {t : ℕ} (hlo : virt.toNat / 4096 ≤ k)
    (hhi : k ≤ (virt.toNat + count.toNat) / 4096)
    (ht : virt.toNat + t = min (virt.toNat + count.toNat) (max virt.toNat (k * 4096))) :
    bytesInPage virt (virt + count) (ofNat 64 (k * 4096)) = 0#64 ↔
      pageEnd virt count k ≤ virt.toNat + t := by
  have hdef : pageEnd virt count k = min (virt.toNat + count.toNat) ((k + 1) * 4096) := rfl
  rw [← BitVec.toNat_inj, toNat_bytesInPage hend hlo hhi]
  simp only [toNat_ofNat, Nat.zero_mod]
  omega

end

/-- `n` bytes from `virt` are mapped, and then the buffer ends or an address is not. -/
structure PrefixEnds (m : Machine) (p : PagemapId) (virt count n : ℕ) : Prop where
  le : n ≤ count
  mapped : ∀ i < n, m.Mapped p (ofNat 64 (virt + i))
  maximal : n < count → ¬m.Mapped p (ofNat 64 (virt + n))

theorem prefixEnds_mappedPrefix (m : Machine) (p : PagemapId) (virt count : ℕ) :
    PrefixEnds m p virt count (m.mappedPrefix p virt count) := by
  have hmapped : ∀ i < m.mappedPrefix p virt count, m.Mapped p (ofNat 64 (virt + i)) :=
    Nat.findGreatest_spec (P := fun n => ∀ i < n, m.Mapped p (ofNat 64 (virt + i)))
      (Nat.zero_le count) (by simp)
  refine ⟨Nat.findGreatest_le count, hmapped, fun hlt hnext => ?_⟩
  refine Nat.findGreatest_is_greatest
    (P := fun n => ∀ i < n, m.Mapped p (ofNat 64 (virt + i))) (Nat.lt_succ_self _) hlt fun i hi => ?_
  rcases Nat.lt_succ_iff_lt_or_eq.mp hi with hi | rfl
  · exact hmapped i hi
  · exact hnext

theorem PrefixEnds.congr {m m' : Machine} {p : PagemapId} {n : ℕ}
    (h : PrefixEnds m p virt.toNat count.toNat n) (hend : virt.toNat + count.toNat ≤ 2 ^ 47)
    (hm : ∀ v : U64, v.toNat < 2 ^ 47 → (m'.Mapped p v ↔ m.Mapped p v)) :
    PrefixEnds m' p virt.toNat count.toNat n := by
  have hlower : ∀ i < count.toNat, (ofNat 64 (virt.toNat + i)).toNat < 2 ^ 47 := by
    intro i hi
    rw [toNat_ofNat]
    omega
  have hle := h.le
  refine ⟨hle, fun i hi => ?_, fun hlt => ?_⟩
  · rw [hm _ (hlower i (by omega))]
    exact h.mapped i hi
  · rw [hm _ (hlower n hlt)]
    exact h.maximal hlt

variable {p : PagemapId} {write : Bool}

section

variable (hend : virt.toNat + count.toNat ≤ 2 ^ 47)

include hend

/-- One turn in a mapped page resolves it and moves its bytes. -/
theorem accessLoop_mapped {fuel k t : ℕ} {s : Transfer} (hmap : UserMap s.m p)
    (hlo : virt.toNat / 4096 ≤ k) (hhi : k ≤ (virt.toNat + count.toNat) / 4096)
    (ht : virt.toNat + t = max virt.toNat (k * 4096))
    (hbytes : virt.toNat + t < pageEnd virt count k)
    (hm : s.m.Mapped p (ofNat 64 (k * 4096))) :
    accessLoop p virt (virt + count) write (fuel + 1) (ofNat 64 (k * 4096))
        (ofNat 64 t) s = (do
      let s ← (List.range' t (pageEnd virt count k - virt.toNat - t)).foldlM
        (Transfer.accessByte p write virt.toNat) s
      accessLoop p virt (virt + count) write fuel (ofNat 64 ((k + 1) * 4096))
        (ofNat 64 (pageEnd virt count k - virt.toNat)) s) := by
  have hbound : pageEnd virt count k ≤ virt.toNat + count.toNat := Nat.min_le_left _ _
  have hpage : pageEnd virt count k ≤ (k + 1) * 4096 := Nat.min_le_right _ _
  have hn := toNat_bytesInPage hend hlo hhi
  have hoff := toNat_pageOffset virt (k := k) (by omega)
  have hlow : (ofNat 64 (k * 4096)).toNat < 2 ^ 47 := by
    rw [toNat_ofNat]
    omega
  have hcond := (pageVirt_le_iff hend (by omega)).mpr hhi
  have hne : bytesInPage virt (virt + count) (ofNat 64 (k * 4096)) ≠ 0#64 := by
    rw [ne_eq, bytesInPage_eq_zero_iff (t := t) hend hlo hhi (by omega)]
    omega
  have hpages : ∀ j ∈ List.range' t (pageEnd virt count k - virt.toNat - t),
      alignDown (ofNat 64 (virt.toNat + j)) pageSize = ofNat 64 (k * 4096) := by
    intro j hj
    rw [List.mem_range'_1] at hj
    apply eq_of_toNat_eq
    rw [toNat_alignDown, toNat_ofNat, toNat_ofNat]
    omega
  have hsame : ∀ j ∈ List.range' t (pageEnd virt count k - virt.toNat - t),
      SamePage p (ofNat 64 (virt.toNat + j)) p (ofNat 64 (k * 4096)) := by
    intro j hj
    rw [← hpages j hj]
    exact ⟨(tablesOf_alignDown p _).symm, (vpn_alignDown _).symm⟩
  have htnat : (ofNat 64 t).toNat = t := by
    rw [toNat_ofNat]
    omega
  have hnext : ofNat 64 (k * 4096) + pageSize = ofNat 64 ((k + 1) * 4096) := by
    rw [Nat.add_mul, BitVec.ofNat_add]
  have hdone : ofNat 64 t + bytesInPage virt (virt + count) (ofNat 64 (k * 4096)) =
      ofNat 64 (pageEnd virt count k - virt.toNat) := by
    apply eq_of_toNat_eq
    rw [toNat_add, htnat, hn, toNat_ofNat]
    omega
  obtain ⟨c, hc⟩ : ∃ c, pageEnd virt count k - virt.toNat - t = c + 1 :=
    ⟨pageEnd virt count k - virt.toNat - t - 1, by omega⟩
  have hmove := accessByte_page write s.target hmap hlow hm
    (by rw [← List.range'_succ, ← hc]; exact hpages)
  rw [← List.range'_succ, ← hc] at hmove
  rw [accessLoop, if_pos hcond]
  dsimp only
  rw [if_neg hne, getPhysicalAddr_mapped hmap hlow hm, hmove]
  cases hr : s.m.resolve p (ofNat 64 (k * 4096)) with
  | error e => rfl
  | ok m =>
    rw [ok_bind, ok_bind, ok_bind, ok_bind]
    have hphy : (frameOf (m.entry p (ofNat 64 (k * 4096)))).phy ≠ efault := by
      intro h
      have h' := congrArg BitVec.toNat h
      rw [toNat_phy] at h'
      have : (efault : U64).toNat = 18446744073709551602 := rfl
      omega
    rw [if_neg hphy, htnat, hnext, hdone, hn, ← ht, Nat.sub_add_eq,
      memcpy_eq virt.toNat _ (by rw [hoff]; omega) (by rw [hoff]; omega), ok_bind,
      foldl_moveByte hsame _ rfl]

theorem accessLoop_unmapped {fuel k t : ℕ} {s : Transfer} (hmap : UserMap s.m p)
    (hlo : virt.toNat / 4096 ≤ k) (hhi : k ≤ (virt.toNat + count.toNat) / 4096)
    (ht : virt.toNat + t = max virt.toNat (k * 4096))
    (hbytes : virt.toNat + t < pageEnd virt count k)
    (hm : ¬s.m.Mapped p (ofNat 64 (k * 4096))) :
    accessLoop p virt (virt + count) write (fuel + 1) (ofNat 64 (k * 4096))
        (ofNat 64 t) s = (do
      let (_, m) ← s.m.handlePageFault p (ofNat 64 (k * 4096))
      .ok (if t = 0 then efault else ofNat 64 t, { s with m })) := by
  have hbound : pageEnd virt count k ≤ virt.toNat + count.toNat := Nat.min_le_left _ _
  have hlow : (ofNat 64 (k * 4096)).toNat < 2 ^ 47 := by
    rw [toNat_ofNat]
    omega
  have hcond := (pageVirt_le_iff hend (by omega)).mpr hhi
  have hne : bytesInPage virt (virt + count) (ofNat 64 (k * 4096)) ≠ 0#64 := by
    rw [ne_eq, bytesInPage_eq_zero_iff (t := t) hend hlo hhi (by omega)]
    omega
  have hzero : ofNat 64 t = 0#64 ↔ t = 0 := by
    rw [← BitVec.toNat_inj, toNat_ofNat]
    simp only [toNat_ofNat, Nat.zero_mod]
    omega
  rw [accessLoop, if_pos hcond]
  dsimp only
  rw [if_neg hne, getPhysicalAddr_unmapped hmap hlow hm]
  cases hf : s.m.handlePageFault p (ofNat 64 (k * 4096)) with
  | error e => rfl
  | ok x =>
    rw [ok_bind, ok_bind, ok_bind, if_pos rfl, ite_not]
    simp only [hzero]

/-- From page `k` on, what is mapped is transferred. -/
theorem accessLoop_eq {n : ℕ} :
    ∀ {fuel k t : ℕ} {s : Transfer}, UserMap s.m p →
      PrefixEnds s.m p virt.toNat count.toNat n → virt.toNat / 4096 ≤ k →
      k ≤ (virt.toNat + count.toNat) / 4096 + 1 →
      (virt.toNat + count.toNat) / 4096 + 2 ≤ k + fuel →
      virt.toNat + t = min (virt.toNat + count.toNat) (max virt.toNat (k * 4096)) → t ≤ n →
      accessLoop p virt (virt + count) write fuel (ofNat 64 (k * 4096)) (ofNat 64 t)
        s = (do
          let s ← (List.range' t (n - t)).foldlM (Transfer.accessByte p write virt.toNat) s
          s.finish p virt.toNat n count.toNat) := by
  intro fuel
  induction fuel with
  | zero =>
    intro k t s _ hn hlo hk hfuel ht htn
    omega
  | succ fuel ih =>
    intro k t s hmap hn hlo hk hfuel ht htn
    have hle := hn.le
    have hdef : pageEnd virt count k = min (virt.toNat + count.toNat) ((k + 1) * 4096) := rfl
    -- nothing is left
    have hall : t = count.toNat → (do
        let s ← (List.range' t (n - t)).foldlM (Transfer.accessByte p write virt.toNat) s
        s.finish p virt.toNat n count.toNat) = .ok (ofNat 64 t, s) := by
      intro hall
      obtain rfl : n = t := by omega
      rw [Nat.sub_self, List.range'_zero, List.foldlM_nil, pure_bind]
      unfold Transfer.finish
      rw [if_pos hall]
    by_cases hhi : k ≤ (virt.toNat + count.toNat) / 4096
    · by_cases hbytes : virt.toNat + t < pageEnd virt count k
      · have ht' : virt.toNat + t = max virt.toNat (k * 4096) := by omega
        have hlow : (ofNat 64 (k * 4096)).toNat < 2 ^ 47 := by
          rw [toNat_ofNat]
          omega
        have hdown : alignDown (ofNat 64 (virt.toNat + t)) pageSize =
            ofNat 64 (k * 4096) := by
          apply eq_of_toNat_eq
          rw [toNat_alignDown, toNat_ofNat, toNat_ofNat]
          omega
        have hcongr : s.m.Mapped p (ofNat 64 (virt.toNat + t)) ↔
            s.m.Mapped p (ofNat 64 (k * 4096)) := by
          refine hmap.mapped_congr ?_ hlow ?_ <;>
            (rw [toNat_ofNat]; try rw [toNat_ofNat]) <;> omega
        rcases Nat.lt_or_ge t n with hlt | hge
        · -- the page is mapped, and so are all its bytes
          have hm := hcongr.mp (hn.mapped t hlt)
          have hfull : pageEnd virt count k ≤ virt.toNat + n := by
            by_contra hshort
            refine hn.maximal (by omega) ((hmap.mapped_congr ?_ hlow ?_).mpr hm)
            · rw [toNat_ofNat]
              omega
            · rw [toNat_ofNat, toNat_ofNat]
              omega
          have hsplit : List.range' t (n - t) =
              List.range' t (pageEnd virt count k - virt.toNat - t) ++
                List.range' (pageEnd virt count k - virt.toNat)
                  (n - (pageEnd virt count k - virt.toNat)) := by
            have h := @List.range'_append_1 t (pageEnd virt count k - virt.toNat - t)
              (n - (pageEnd virt count k - virt.toNat))
            rw [show t + (pageEnd virt count k - virt.toNat - t) =
                pageEnd virt count k - virt.toNat by omega,
              show pageEnd virt count k - virt.toNat - t +
                (n - (pageEnd virt count k - virt.toNat)) = n - t by omega] at h
            exact h.symm
          have hpages : ∀ j ∈ List.range' t (pageEnd virt count k - virt.toNat - t),
              alignDown (ofNat 64 (virt.toNat + j)) pageSize =
                ofNat 64 (k * 4096) := by
            intro j hj
            rw [List.mem_range'_1] at hj
            apply eq_of_toNat_eq
            rw [toNat_alignDown, toNat_ofNat, toNat_ofNat]
            omega
          have hne : List.range' t (pageEnd virt count k - virt.toNat - t) ≠ [] := by
            rw [ne_eq, List.range'_eq_nil_iff]
            omega
          rw [accessLoop_mapped hend hmap hlo hhi ht' hbytes hm, hsplit, List.foldlM_append,
            bind_assoc]
          cases hmove : (List.range' t (pageEnd virt count k - virt.toNat - t)).foldlM
              (Transfer.accessByte p write virt.toNat) s with
          | error e => rfl
          | ok s' =>
            obtain ⟨hmap', hmapped⟩ := accessByte_page_ok hmap hlow hm hne hpages hmove
            rw [ok_bind, ok_bind]
            exact ih hmap' (hn.congr hend hmapped) (by omega) (by omega) (by omega) (by omega)
              (by omega)
        · -- the page is not mapped
          obtain rfl : t = n := by omega
          have hlt : t < count.toNat := by omega
          rw [accessLoop_unmapped hend hmap hlo hhi ht' hbytes fun h =>
            hn.maximal hlt (hcongr.mpr h)]
          rw [Nat.sub_self, List.range'_zero, List.foldlM_nil, pure_bind]
          unfold Transfer.finish
          rw [if_neg (show ¬t = count.toNat by omega), hdown]
      · -- the buffer ends where the page starts
        have hzero := (bytesInPage_eq_zero_iff hend hlo hhi ht).mpr (by omega)
        have hcond := (pageVirt_le_iff hend (by omega)).mpr hhi
        rw [hall (by omega), accessLoop, if_pos hcond]
        dsimp only
        rw [if_pos hzero]
    · have hcond := mt (pageVirt_le_iff hend (by omega)).mp hhi
      rw [hall (by omega), accessLoop, if_neg hcond]

end

/-- `access_memory` moves the longest mapped prefix of what it is asked for byte by byte. -/
theorem accessMemory_eq {m : Machine} {target : ℕ → BitVec 8} (hmap : UserMap m p)
    (hend : virt.toNat + count.toNat ≤ 2 ^ 47) :
    m.accessMemory p virt target count write =
      m.accessPrefix p virt.toNat target count.toNat write := by
  have hstart : alignDown virt pageSize = ofNat 64 (virt.toNat / 4096 * 4096) := by
    apply eq_of_toNat_eq
    rw [toNat_alignDown, toNat_ofNat]
    omega
  have hsum : (virt + count).toNat = virt.toNat + count.toNat := by
    rw [toNat_add]
    omega
  unfold Machine.accessMemory Machine.accessPrefix Transfer.transferBytes
  dsimp only
  rw [hstart, hsum, List.range_eq_range']
  refine accessLoop_eq hend hmap (prefixEnds_mappedPrefix m p _ _) ?_ ?_ ?_ ?_ ?_ <;> omega

theorem loadByte_storeByte (m : Machine) (virt : ℕ) (b : BitVec 8) :
    (m.storeByte p virt b).loadByte p virt = b := by
  set f := frameOf (m.entry p (ofNat 64 virt)) with hf
  show Function.update m.frame f (Function.update (m.frame f) _ b) f _ = b
  rw [Function.update_self, Function.update_self]

theorem transferBytes_succ (virt n : ℕ) (s : Transfer) :
    Transfer.transferBytes p write virt (n + 1) s =
      Transfer.transferBytes p write virt n s >>= fun s => s.accessByte p write virt n := by
  unfold Transfer.transferBytes
  rw [List.range_succ, List.foldlM_append]
  simp only [List.foldlM_cons, List.foldlM_nil, bind_pure]

theorem accessed_succ (m : Machine) (target : ℕ → BitVec 8) (virt n : ℕ) :
    m.accessed p write virt target (n + 1) = m.accessed p write virt target n >>= fun m =>
      m.resolve p (alignDown (ofNat 64 (virt + n)) pageSize) >>= fun m =>
        .ok (if write then m.storeByte p (virt + n) (target n) else m) := by
  unfold Machine.accessed
  rw [List.range_succ, List.foldlM_append]
  simp only [List.foldlM_cons, List.foldlM_nil, bind_pure]

namespace Transferred

variable {m m' : Machine} {target : ℕ → BitVec 8} {virt n : ℕ} {s : Transfer}

/-- The next byte is loaded, once its page has been resolved. -/
theorem load (h : Transferred m p false virt target n s)
    (hm : m.accessed p false virt target (n + 1) = .ok m') :
    Transferred m p false virt target (n + 1)
      { m := m', target := Function.update s.target n (m'.loadByte p (virt + n)) } := by
  refine ⟨fun _ i hi => ?_, nofun, fun i hi => ?_⟩
  · rcases Nat.lt_succ_iff_lt_or_eq.mp hi with hi | rfl
    · obtain ⟨m1, hm1, hbyte⟩ := h.loaded rfl i hi
      exact ⟨m1, hm1, (Function.update_of_ne (Nat.ne_of_lt hi) _ _).trans hbyte⟩
    · exact ⟨m', hm, Function.update_self _ _ _⟩
  · have hi := hi.resolve_left nofun
    exact (Function.update_of_ne (by omega) _ _).trans (h.rest i (.inr (by omega)))

/-- The next byte is stored. -/
theorem store (h : Transferred m p true virt target n s)
    (hm : m.accessed p true virt target (n + 1) = .ok (m'.storeByte p (virt + n) (target n))) :
    Transferred m p true virt target (n + 1)
      { s with m := m'.storeByte p (virt + n) (target n) } := by
  refine ⟨nofun, fun _ i hi => ?_, fun i _ => h.rest i (.inl rfl)⟩
  rcases Nat.lt_succ_iff_lt_or_eq.mp hi with hi | rfl
  · exact h.stored rfl i hi
  · exact ⟨_, hm, loadByte_storeByte _ _ _⟩

end Transferred

theorem transferBytes_spec (m : Machine) (target : ℕ → BitVec 8) (virt n : ℕ) :
    (Transfer.transferBytes p write virt n { m, target }).map Transfer.m =
        m.accessed p write virt target n ∧
      ∀ s, Transfer.transferBytes p write virt n { m, target } = .ok s →
        Transferred m p write virt target n s := by
  induction n with
  | zero =>
    refine ⟨rfl, fun s h => ?_⟩
    cases h
    exact ⟨fun _ i hi => absurd hi (Nat.not_lt_zero i), fun _ i hi => absurd hi (Nat.not_lt_zero i),
      fun _ _ => rfl⟩
  | succ n ih =>
    obtain ⟨hmachine, htransferred⟩ := ih
    have haccessed := @accessed_succ p write m target virt n
    rw [← hmachine] at haccessed
    rw [transferBytes_succ]
    cases hn : Transfer.transferBytes p write virt n { m, target } with
    | error e =>
      rw [hn] at haccessed
      rw [haccessed]
      exact ⟨rfl, fun s h => by cases h⟩
    | ok s =>
      have ht := htransferred s hn
      rw [hn] at haccessed
      simp only [ok_bind, Except.map, Transfer.accessByte] at haccessed ⊢
      cases hr : s.m.resolve p (alignDown (ofNat 64 (virt + n)) pageSize) with
      | error e =>
        rw [haccessed, hr]
        exact ⟨rfl, fun s h => by cases h⟩
      | ok m' =>
        rw [hr, ok_bind] at haccessed
        rw [haccessed]
        cases write with
        | false =>
          refine ⟨rfl, fun s' h => ?_⟩
          cases h
          exact ht.load haccessed
        | true =>
          have hstore : Transfer.moveByte p true virt { s with m := m' } n =
              { s with m := m'.storeByte p (virt + n) (target n) } := by
            rw [← ht.rest n (.inl rfl)]
            rfl
          rw [ok_bind, hstore]
          refine ⟨rfl, fun s' h => ?_⟩
          cases h
          exact ht.store haccessed

/-- **Main theorem.** `access_memory` transfers the longest mapped prefix of what it is asked for.
    Where the faults at its pages, and at the page behind it, return, so does the call, with the
    number of bytes or `-EFAULT` for an empty prefix; the bytes of the prefix and no others have been
    moved, each to its place; and the machine is the one that the faults and the stores lead to. -/
theorem accessMemory_transfers {m : Machine} {target : ℕ → BitVec 8} (hmap : UserMap m p)
    (hend : virt.toNat + count.toNat ≤ 2 ^ 47) {n : ℕ}
    (hn : n = m.mappedPrefix p virt.toNat count.toNat) :
    (∀ e, m.accessFaults p write virt.toNat target n count.toNat = .error e →
      m.accessMemory p virt target count write = .error e) ∧
    ∀ m', m.accessFaults p write virt.toNat target n count.toNat = .ok m' →
      ∃ s, m.accessMemory p virt target count write =
          .ok (if n = 0 ∧ count ≠ 0#64 then efault else ofNat 64 n, s) ∧
        s.m = m' ∧ Transferred m p write virt.toNat target n s := by
  rw [accessMemory_eq hmap hend]
  unfold Machine.accessPrefix Machine.accessFaults
  rw [← hn]
  dsimp only
  obtain ⟨hmachine, htransferred⟩ :=
    @transferBytes_spec p write m target virt.toNat n
  have hcount : count ≠ 0#64 ↔ count.toNat ≠ 0 := by
    rw [ne_eq, BitVec.toNat_eq]
    rfl
  rw [← hmachine]
  cases hbytes : Transfer.transferBytes p write virt.toNat n { m, target } with
  | error e =>
    refine ⟨fun e h => ?_, fun m' h => ?_⟩ <;> cases h
    rfl
  | ok s =>
    have ht := htransferred s hbytes
    simp only [Except.map, ok_bind, Transfer.finish]
    by_cases hall : n = count.toNat
    · simp only [if_pos hall]
      rw [if_neg (by rw [hcount]; omega)]
      refine ⟨fun e h => ?_, fun m' h => ?_⟩ <;> cases h
      exact ⟨s, rfl, rfl, ht⟩
    · simp only [if_neg hall]
      cases hfault : s.m.handlePageFault p (alignDown (ofNat 64 (virt.toNat + n)) pageSize) with
      | error e =>
        refine ⟨fun e h => ?_, fun m' h => ?_⟩ <;> cases h
        rfl
      | ok x =>
        refine ⟨fun e h => ?_, fun m' h => ?_⟩ <;> cases h
        refine ⟨{ s with m := x.2 }, ?_, rfl, ht.loaded, ht.stored, ht.rest⟩
        simp only [ok_bind, hcount]
        by_cases hzero : n = 0
        · rw [if_pos hzero, if_pos ⟨hzero, by omega⟩]
        · rw [if_neg hzero, if_neg (by tauto)]

/-- Two pages of a process at `0x10000`. -/
def twoPages : Except Panic Machine := do
  let m ← booted.newPagemap (.user 0)
  m.mapAnonymous (.user 0) 0x10000#64 0x2000#64 (pagePresent ||| pageWritable ||| pageUser) false

theorem userMap_twoPages {m : Machine} (h : twoPages = .ok m) : UserMap m (.user 0) := by
  have hown : m.rangeList (.user 0) = [0] := map_ok_eq h (fun m => m.rangeList (.user 0)) rfl
  have hkernel : m.rangeList .kernel = [] := map_ok_eq h (fun m => m.rangeList .kernel) rfl
  have hcache : (m.pagemap (.user 0)).cachedRangeLookup = none :=
    map_ok_eq h (fun m => (m.pagemap (.user 0)).cachedRangeLookup) rfl
  have hsearched : ∀ r, m.Searched (.user 0) r → r = 0 := by
    intro r hr
    unfold Machine.Searched at hr
    simpa [hown, hkernel, hcache] using hr
  have hbase : (m.range 0).base = 0x10000#64 := map_ok_eq h (fun m => (m.range 0).base) rfl
  have hlength : (m.range 0).length = 0x2000#64 := map_ok_eq h (fun m => (m.range 0).length) rfl
  have hflags : (m.range 0).pageFlags = pagePresent ||| pageWritable ||| pageUser :=
    map_ok_eq h (fun m => (m.range 0).pageFlags) rfl
  have htype : (m.range 0).type = .anonymous := map_ok_eq h (fun m => (m.range 0).type) rfl
  refine ⟨?_, ?_, ?_, ?_, ?_, ?_⟩
  · intro r hr
    rw [hsearched r hr, hbase, hlength]
    decide
  · intro r hr
    rw [hsearched r hr, hflags]
    decide
  · intro r hr
    rw [hsearched r hr, hflags]
    decide
  · intro r hr ht
    rw [hsearched r hr, htype] at ht
    cases ht
  · intro r hr ht
    rw [hsearched r hr, htype] at ht
    cases ht
  · intro c hc
    rw [hcache] at hc
    cases hc

/-- Two of four bytes are written: those up to the end of the second page. -/
theorem accessMemory_transfers_twoPages : ∃ m s, twoPages = .ok m ∧
    m.accessMemory (.user 0) 0x11ffe#64 (fun i => ofNat 8 (i + 65)) 4#64 true = .ok (2#64, s) ∧
    s.m.loadByte (.user 0) 0x11ffe = 65#8 ∧ s.m.loadByte (.user 0) 0x11fff = 66#8 := by
  obtain ⟨m, hm⟩ : ∃ m, twoPages = .ok m := ⟨_, rfl⟩
  have hn : 2 = m.mappedPrefix (.user 0) 0x11ffe 4 :=
    (map_ok_eq hm (fun m => m.mappedPrefix (.user 0) 0x11ffe 4) rfl).symm
  have hrun : ∃ m', (twoPages >>= fun m =>
      m.accessFaults (.user 0) true 0x11ffe (fun i => ofNat 8 (i + 65)) 2 4) = .ok m' := ⟨_, rfl⟩
  obtain ⟨m', hm'⟩ := hrun
  have hbytes : m'.loadByte (.user 0) 0x11ffe = 65#8 ∧ m'.loadByte (.user 0) 0x11fff = 66#8 :=
    ⟨map_ok_eq hm' (fun m => m.loadByte (.user 0) 0x11ffe) (by decide +kernel),
      map_ok_eq hm' (fun m => m.loadByte (.user 0) 0x11fff) (by decide +kernel)⟩
  rw [hm] at hm'
  obtain ⟨s, hs, rfl, -⟩ := (@accessMemory_transfers 0x11ffe#64 4#64 (.user 0) true m
    (fun i => ofNat 8 (i + 65)) (userMap_twoPages hm) (by decide) 2 hn).2 m' hm'
  exact ⟨m, s, hm, hs, hbytes⟩

end Loop

end Fishix.Mem
