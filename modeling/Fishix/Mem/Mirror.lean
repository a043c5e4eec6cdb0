import Fishix.Mem.Boot
import Fishix.Mem.Entries
import Fishix.Mem.Fault

/-!
# Faults in mirrored ranges

A `DIRECT_VIRTUAL` range shows other virtual pages: `handle_page_fault` walks to the entry of the
mirrored page and maps the frame it names (mem/vmm.cpp:273-286). It asks whether there is an entry,
not whether the entry is present. Where a table is missing it calls itself for the mirrored address
and walks again; the nested call creates the tables even if it then fails, so that the second walk
always finds an entry, and `-EFAULT` is never returned.

* `isSome_findEntry_of_fault`: a fault creates the tables of its address.
* `present_of_fault`: when a fault makes its own page present.
* `mirrors_iff`: when a fault in a mirrored range maps the frame of a present page.
* `mirror_maps_frame_zero`: a mapping longer than what it mirrors.
-/

namespace Fishix.Mem

open Machine

/-! ## Tables -/

/-- The walks to the two addresses end in the same table. -/
def SameTable (q : PagemapId) (w : U64) (p : PagemapId) (v : U64) : Prop :=
  tablesOf q w = tablesOf p v ∧ ∀ k, 1 ≤ k → k ≤ 3 → tableIndex w k = tableIndex v k

theorem isSome_findEntry_createEntry {m m' : Machine} {p : PagemapId} {v : U64}
    (h : m.createEntry p v = .ok m') (q : PagemapId) (w : U64) :
    (m'.findEntry q w).isSome ↔ (m.findEntry q w).isSome ∨ SameTable q w p v := by
  unfold createEntry at h
  obtain ⟨⟨t, m1⟩, h1, rfl⟩ := bind_pure_ok h
  obtain ⟨fs, hfs, -⟩ := Radix.ensure_spec _ _ _ _ _ _ _ _ h1
  have hmaps : m1.pagemap = m.pagemap := by rw [(tookTables_of_allocs hfs).same]
  unfold findEntry setTables setPagemap SameTable
  dsimp only
  by_cases ho : tablesOf q w = tablesOf p v
  · rw [ho, Function.update_self]
    simp only [true_and]
    exact Radix.isSome_lookup_ensure _ _ _ h1 (tableIndex w)
  · rw [Function.update_of_ne ho, hmaps]
    simp [ho]

theorem SamePage.sameTable {q p : PagemapId} {w v : U64} (h : SamePage q w p v) :
    SameTable q w p v :=
  ⟨h.1, fun k _ hk => (tableIndex_eq_iff w v).mpr h.2 k hk⟩

section Fault

variable {p : PagemapId}

theorem findEntry_setCache (m : Machine) (c : Option RangeId) (q : PagemapId) (w : U64) :
    (m.setCache p c).findEntry q w = m.findEntry q w := by
  unfold findEntry setCache setPagemap
  by_cases hq : tablesOf q w = p
  · simp [hq]
  · simp [hq]

theorem findEntry_addrToRange {m m' : Machine} {v : U64} {res : Option RangeId}
    (h : m.addrToRange p v = (res, m')) (q : PagemapId) (w : U64) :
    m'.findEntry q w = m.findEntry q w := by
  obtain ⟨c, -, -, -, rfl⟩ | ⟨-, -, rfl⟩ | ⟨s, -, -, rfl⟩ := addrToRange_cases h
  · rfl
  · rfl
  · exact findEntry_setCache m _ q w

/-- The entries after a new page was mapped. -/
theorem findEntry_placeFault {m m1 : Machine} {v : U64} {r : RangeId} {f : Pfn} (c : Frame)
    (ha : m.allocPage = .ok (f, m1)) (q : PagemapId) (w : U64) :
    (placeFault m1 p v r f c).findEntry q w =
      (m.writeEntry p v (f.phy ||| (m.range r).pageFlags)).findEntry q w := by
  have hmaps : m1.pagemap = m.pagemap := by
    obtain ⟨-, -, -, rfl⟩ := allocPage_spec ha
    rfl
  unfold placeFault relinked
  rw [writeEntry_alignDown, (pagesOnly_allocPage ha).range]
  unfold findEntry writeEntry setTables setPagemap
  dsimp only [setFrame, linkLast, setPage, setList]
  rw [hmaps]

/-! ## What a fault does to entries -/

theorem isSome_findEntry_faultIn {fuel : ℕ} {m m' : Machine} {v : U64} {r : RangeId}
    {res : Option U64} {q : PagemapId} {w : U64}
    (ih : ∀ {v : U64} {m m' : Machine} {res : Option U64},
      handlePageFaultFuel p fuel v m = .ok (res, m') →
        (m.findEntry q w).isSome → (m'.findEntry q w).isSome)
    (h : FaultIn fuel m p v r res m') (hw : (m.findEntry q w).isSome) :
    (m'.findEntry q w).isSome := by
  cases h with
  | anonymous _ ha =>
    rw [findEntry_placeFault _ ha, isSome_findEntry_writeEntry]
    exact hw
  | file _ _ ha =>
    rw [findEntry_placeFault _ ha, isSome_findEntry_writeEntry]
    exact hw
  | direct _ =>
    rw [isSome_findEntry_writeEntry]
    exact hw
  | mirror _ walk _ =>
    rw [isSome_findEntry_writeEntry]
    rcases walk with rfl | ⟨-, res', hrec⟩
    · exact hw
    · exact ih hrec hw
  | mirrorFails _ _ walk => exact ih walk hw

theorem isSome_findEntry_fault {q : PagemapId} {w : U64} : ∀ {fuel : ℕ} {v : U64} {m m' : Machine}
    {res : Option U64}, handlePageFaultFuel p fuel v m = .ok (res, m') →
      (m.findEntry q w).isSome ∨ SameTable q w p v → (m'.findEntry q w).isSome := by
  intro fuel
  induction fuel with
  | zero =>
    intro v m m' res h
    cases h
  | succ fuel ih =>
    intro v m m' res h hw
    obtain ⟨m1, h1, hcase⟩ := handlePageFaultFuel_cases h
    have hw1 := (isSome_findEntry_createEntry h1 q w).mpr hw
    rcases hcase with ⟨-, -, rfl⟩ | ⟨-, h2, -⟩ | ⟨r, m2, -, h2, hin⟩
    · exact hw1
    · rw [findEntry_addrToRange h2]
      exact hw1
    · refine isSome_findEntry_faultIn (fun hrec hw => ih hrec (.inl hw)) hin ?_
      rw [findEntry_addrToRange h2]
      exact hw1

/-- A fault leaves the tables of its address in place, whatever it returns. -/
theorem isSome_findEntry_of_fault {fuel : ℕ} {v : U64} {m m' : Machine} {res : Option U64}
    (h : handlePageFaultFuel p fuel v m = .ok (res, m')) : (m'.findEntry p v).isSome :=
  isSome_findEntry_fault h (.inr (SamePage.sameTable ⟨rfl, rfl⟩))

/-- The address that a mirrored range shows at `virt`. -/
def MappedRange.mirrored (e : MappedRange) (virt : U64) : U64 := e.position virt + e.phyBase

/-- What the mirror branch does: it walks, after a nested fault where a table is missing, and maps
    what it finds. The walk does not fail. -/
theorem handlePageFaultFuel_mirror {fuel : ℕ} {v : U64} {m m1 m2 m' : Machine} {res : Option U64}
    {r : RangeId} (h : handlePageFaultFuel p (fuel + 1) v m = .ok (res, m'))
    (h1 : m.createEntry p v = .ok m1) (habs : ¬m1.Present p v)
    (h2 : m1.addrToRange p v = (some r, m2)) (ht : (m2.range r).type = .directVirtual) :
    ∃ m3 target, (m3 = m2 ∨ m2.findEntry p ((m2.range r).mirrored v) = none ∧
        ∃ res', handlePageFaultFuel p fuel ((m2.range r).mirrored v) m2 = .ok (res', m3)) ∧
      m3.findEntry p ((m2.range r).mirrored v) = some target ∧ res = some (target &&& frameMask) ∧
      m' = m3.writeEntry p v ((target &&& frameMask) ||| (m2.range r).pageFlags) := by
  unfold Machine.Present at habs
  unfold handlePageFaultFuel at h
  rw [h1, ok_bind] at h
  dsimp only at h
  rw [if_neg habs, h2] at h
  dsimp only at h
  split at h
  · next hty => exact absurd (ht.symm.trans hty) (by decide)
  · next hty => exact absurd (ht.symm.trans hty) (by decide)
  · obtain ⟨m3, hw, h⟩ := bind_ok h
    refine ⟨m3, ?_⟩
    have hwalk : m3 = m2 ∧ (m2.findEntry p ((m2.range r).mirrored v)).isSome ∨
        m2.findEntry p ((m2.range r).mirrored v) = none ∧
        ∃ res', handlePageFaultFuel p fuel ((m2.range r).mirrored v) m2 =
          .ok (res', m3) := by
      split at hw
      · next e he =>
        have hsome : m2.findEntry p ((m2.range r).mirrored v) = some e := he
        exact .inl ⟨(Except.ok.inj hw).symm, by rw [hsome]; rfl⟩
      · next hnone =>
        obtain ⟨⟨res', m4⟩, hrec, rfl⟩ := bind_pure_ok hw
        exact .inr ⟨hnone, res', hrec⟩
    have hsome : (m3.findEntry p ((m2.range r).mirrored v)).isSome := by
      rcases hwalk with ⟨rfl, he⟩ | ⟨-, res', hrec⟩
      · exact he
      · exact isSome_findEntry_of_fault hrec
    obtain ⟨target, htarget⟩ := Option.isSome_iff_exists.mp hsome
    refine ⟨target, hwalk.imp_left And.left, htarget, ?_⟩
    have hfind : m3.findEntry p (alignDown v pageSize - (m2.range r).originalBase +
        (m2.range r).phyBase) = some target := htarget
    rw [hfind] at h
    obtain ⟨rfl, rfl⟩ := pure_pair h
    exact ⟨rfl, rfl⟩
  · next hty => exact absurd (ht.symm.trans hty) (by decide)
  · next hty => exact absurd (ht.symm.trans hty) (by decide)

theorem isPresent_masked (x flags : U64) : isPresent ((x &&& frameMask) ||| flags) = isPresent flags := by
  rw [and_frameMask, isPresent_phy_or]

/-- The range that serves a fault has been looked up in the state before it. -/
theorem addrToRange_fst_congr {m m1 : Machine} (hrange : m1.range = m.range)
    (hlist : ∀ q, m1.rangeList q = m.rangeList q)
    (hcache : (m1.pagemap p).cachedRangeLookup = (m.pagemap p).cachedRangeLookup) (v : U64) :
    (m1.addrToRange p v).1 = (m.addrToRange p v).1 := by
  have hsearch : m1.searchRange p v = m.searchRange p v := by
    unfold searchRange
    rw [hrange, hlist, hlist]
  unfold addrToRange
  dsimp only
  rw [hcache, hrange, hsearch]
  split
  · split_ifs
    · rfl
    · cases m.searchRange p v <;> rfl
  · cases m.searchRange p v <;> rfl

theorem entry_writeEntry_self {m : Machine} {v x : U64} (h : (m.findEntry p v).isSome) :
    (m.writeEntry p v x).entry p v = x := by
  rw [entry_writeEntry h, if_pos ⟨rfl, rfl⟩]

/-- A fault at an absent page makes it present if and only if a range holds the address whose flags
    are those of a present page. -/
theorem present_of_fault {fuel : ℕ} {v : U64} {m m' : Machine} {res : Option U64}
    (h : handlePageFaultFuel p fuel v m = .ok (res, m')) (habs : ¬m.Present p v) :
    m'.Present p v ↔
      ∃ r, (m.addrToRange p v).1 = some r ∧ isPresent (m.range r).pageFlags := by
  cases fuel with
  | zero => cases h
  | succ fuel =>
    obtain ⟨m1, h1, hcase⟩ := handlePageFaultFuel_cases h
    have hpages := pagesOnly_createEntry h1
    obtain ⟨-, -, -, -, -, -, hentry, -⟩ := createEntry_spec h1
    have habs1 : ¬m1.Present p v := by
      unfold Machine.Present at habs ⊢
      rwa [hentry]
    have hfst := addrToRange_fst_congr hpages.range hpages.rangeList
      (hpages.cachedRangeLookup p) v
    have hsome1 : (m1.findEntry p v).isSome :=
      (isSome_findEntry_createEntry h1 p v).mpr (.inr (SamePage.sameTable ⟨rfl, rfl⟩))
    rcases hcase with ⟨hp, -⟩ | ⟨-, h2, -⟩ | ⟨r, m2, -, h2, hin⟩
    · exact absurd hp habs1
    · rw [← hfst, h2]
      have hentry2 : m'.entry p v = m1.entry p v := by
        unfold entry
        rw [findEntry_addrToRange h2]
      unfold Machine.Present at habs1 ⊢
      rw [hentry2]
      simp [habs1]
    · have hrange2 : m2.range = m.range := (sameRanges_addrToRange h2).range.trans hpages.range
      have hsome2 : (m2.findEntry p v).isSome := by
        rw [findEntry_addrToRange h2]
        exact hsome1
      have hiff : ∀ x, isPresent x = isPresent (m2.range r).pageFlags → m'.entry p v = x →
          (m'.Present p v ↔ ∃ r', (m.addrToRange p v).1 = some r' ∧
            isPresent (m.range r').pageFlags) := by
        intro x hx hm'
        unfold Machine.Present
        rw [hm', hx, ← hfst, h2, hrange2]
        simp
      by_cases ht : (m2.range r).type = .directVirtual
      · obtain ⟨m3, target, hwalk, -, -, rfl⟩ := handlePageFaultFuel_mirror h h1 habs1 h2 ht
        refine hiff _ (isPresent_masked target _) (entry_writeEntry_self ?_)
        rcases hwalk with rfl | ⟨-, res', hrec⟩
        · exact hsome2
        · exact isSome_findEntry_fault hrec (.inl hsome2)
      · cases hin with
        | @anonymous f m3 _ ha =>
          refine hiff (f.phy ||| (m2.range r).pageFlags) isPresent_phy_or ?_
          unfold entry
          rw [findEntry_placeFault _ ha]
          exact entry_writeEntry_self hsome2
        | @file f m3 _ _ _ ha =>
          refine hiff (f.phy ||| (m2.range r).pageFlags) isPresent_phy_or ?_
          unfold entry
          rw [findEntry_placeFault _ ha]
          exact entry_writeEntry_self hsome2
        | direct _ => exact hiff _ (isPresent_masked _ _) (entry_writeEntry_self hsome2)
        | mirror type => exact absurd type ht
        | mirrorFails type => exact absurd type ht

end Fault

/-! ## Faults in mirrored ranges -/

section Mirrors

variable {m m' : Machine} {p : PagemapId} {virt : U64} {r : RangeId} {res : Option U64}

/-- What a fault at `virt` in the mirrored range `r` is to do: map the frame of another page that is
    present, or leave the page absent. -/
def Mirrors (m m' : Machine) (p : PagemapId) (virt : U64) (r : RangeId) : Option U64 → Prop
  | some phy => ¬SamePage p ((m.range r).mirrored virt) p virt ∧
      m'.Present p ((m.range r).mirrored virt) ∧
      phy = m'.entry p ((m.range r).mirrored virt) &&& frameMask ∧
      m'.entry p virt = phy ||| (m.range r).pageFlags
  | none => ¬m.Present p virt → ¬m'.Present p virt

/-- The range that a nested fault at `w` finds: `r` was looked up last. -/
def Machine.rangeBehind (m : Machine) (p : PagemapId) (r : RangeId) (w : U64) : Option RangeId :=
  if (m.range r).Contains w then some r else m.searchRange p w

/-- The page is present already, or the mirrored page is, or its last table is missing, is not made
    along with those of `virt`, and a range holds the mirrored page that makes it present. -/
def MirrorServed (m : Machine) (p : PagemapId) (virt : U64) (r : RangeId) : Prop :=
  m.Present p virt ∨ m.Present p ((m.range r).mirrored virt) ∨
    m.findEntry p ((m.range r).mirrored virt) = none ∧
      ¬SameTable p ((m.range r).mirrored virt) p virt ∧
      ∃ r', m.rangeBehind p r ((m.range r).mirrored virt) = some r' ∧
        isPresent (m.range r').pageFlags

theorem cached_addrToRange {m2 : Machine} (h : m.addrToRange p virt = (some r, m2)) :
    (m2.pagemap p).cachedRangeLookup = some r := by
  obtain ⟨c, hcache, -, hr, rfl⟩ | ⟨-, hr, -⟩ | ⟨s, -, hr, rfl⟩ := addrToRange_cases h
  · rwa [hr]
  · cases hr
  · rw [cachedRangeLookup_setCache, if_pos rfl, hr]

/-- A lookup behind another one. -/
theorem addrToRange_behind {m2 : Machine} (h : m.addrToRange p virt = (some r, m2)) (w : U64) :
    (m2.addrToRange p w).1 = m.rangeBehind p r w := by
  have hsame := sameRanges_addrToRange h
  have hsearch : m2.searchRange p w = m.searchRange p w := by
    unfold searchRange
    rw [hsame.range, hsame.rangeList, hsame.rangeList]
  unfold addrToRange rangeBehind
  dsimp only
  rw [cached_addrToRange h, hsame.range, hsearch]
  dsimp only
  split_ifs
  · rfl
  · cases m.searchRange p w <;> rfl

theorem rangeBehind_congr {m1 : Machine} (hrange : m1.range = m.range)
    (hlist : ∀ q, m1.rangeList q = m.rangeList q) (w : U64) :
    m1.rangeBehind p r w = m.rangeBehind p r w := by
  unfold rangeBehind searchRange
  rw [hrange, hlist, hlist]

/-- The entry that a mirrored range maps: the property is one of the state before it is written. -/
theorem mirrors_written {m3 : Machine} {target : U64}
    (hv : (m3.findEntry p virt).isSome)
    (hfind : m3.findEntry p ((m.range r).mirrored virt) = some target) :
    Mirrors m (m3.writeEntry p virt ((target &&& frameMask) ||| (m.range r).pageFlags)) p virt r
        (some (target &&& frameMask)) ↔
      ¬SamePage p ((m.range r).mirrored virt) p virt ∧
        m3.Present p ((m.range r).mirrored virt) := by
  have hentry : m3.entry p ((m.range r).mirrored virt) = target := by
    unfold entry
    rw [hfind, Option.getD_some]
  unfold Mirrors
  constructor
  · rintro ⟨hother, hpres, -⟩
    refine ⟨hother, ?_⟩
    unfold Machine.Present at hpres ⊢
    rwa [entry_writeEntry hv, if_neg hother] at hpres
  · rintro ⟨hother, hpres⟩
    have hkeep : (m3.writeEntry p virt ((target &&& frameMask) ||| (m.range r).pageFlags)).entry p
        ((m.range r).mirrored virt) = target := by
      rw [entry_writeEntry hv, if_neg hother, hentry]
    unfold Machine.Present at hpres ⊢
    rw [hkeep, entry_writeEntry_self hv]
    rw [hentry] at hpres
    exact ⟨hother, hpres, rfl, rfl⟩

/-- **Main theorem.** A page fault in a mirrored range maps the frame of the mirrored page, which is
    present, or leaves the page absent, if and only if the mirrored page was present, or is made
    present by the fault at it that is served because its last table is missing. -/
theorem mirrors_iff (hfault : m.handlePageFault p virt = .ok (res, m'))
    (hr : (m.addrToRange p virt).1 = some r) (ht : (m.range r).type = .directVirtual) :
    Mirrors m m' p virt r res ↔ MirrorServed m p virt r := by
  obtain ⟨m1, h1, hcase⟩ := handlePageFaultFuel_cases hfault
  have hpages := pagesOnly_createEntry h1
  obtain ⟨-, -, -, -, -, -, hentry, -⟩ := createEntry_spec h1
  have hpresent : ∀ w, m1.Present p w ↔ m.Present p w := by
    intro w
    unfold Machine.Present
    rw [hentry]
  have hfst := addrToRange_fst_congr hpages.range hpages.rangeList (hpages.cachedRangeLookup p) virt
  rcases hcase with ⟨hp, rfl, -⟩ | ⟨-, h2, -⟩ | ⟨r', m2, habs, h2, -⟩
  · have hp' := (hpresent virt).mp hp
    exact iff_of_true (fun hnot => absurd hp' hnot) (.inl hp')
  · rw [← hfst, h2] at hr
    cases hr
  · obtain rfl : r = r' := by
      rw [← hfst, h2] at hr
      exact (Option.some.inj hr).symm
    have habs0 : ¬m.Present p virt := fun h => habs ((hpresent virt).mpr h)
    have hrange : m2.range = m.range := (sameRanges_addrToRange h2).range.trans hpages.range
    have hv2 : (m2.findEntry p virt).isSome := by
      rw [findEntry_addrToRange h2]
      exact (isSome_findEntry_createEntry h1 p virt).mpr (.inr (SamePage.sameTable ⟨rfl, rfl⟩))
    have hp2 : ∀ w, m2.Present p w ↔ m.Present p w := by
      intro w
      rw [← hpresent w]
      unfold Machine.Present entry
      rw [findEntry_addrToRange h2]
    obtain ⟨m3, target, hwalk, hfind, rfl, rfl⟩ :=
      handlePageFaultFuel_mirror hfault h1 habs h2 (by rw [hrange]; exact ht)
    rw [hrange] at hwalk hfind ⊢
    have htables := isSome_findEntry_createEntry h1 p ((m.range r).mirrored virt)
    rw [← findEntry_addrToRange h2] at htables
    rcases hwalk with rfl | ⟨hmissing, res', hrec⟩
    · -- there is an entry already
      rw [mirrors_written hv2 hfind, hp2]
      constructor
      · exact fun h => .inr (.inl h.2)
      · rintro (h | h | ⟨hnone, hother, -⟩)
        · exact absurd h habs0
        · exact ⟨fun hsame => habs0 ((present_samePage m hsame).mp h), h⟩
        · rw [hfind, hnone] at htables
          exact absurd (htables.mp rfl) (by simp [hother])
    · -- a table is missing, and the fault at the mirrored page comes first
      rw [hmissing] at htables
      have hneither : ¬((m.findEntry p ((m.range r).mirrored virt)).isSome ∨
          SameTable p ((m.range r).mirrored virt) p virt) := fun h => by simpa using htables.mpr h
      obtain ⟨hnone, hother⟩ := not_or.mp hneither
      have habs2 : ¬m2.Present p ((m.range r).mirrored virt) := by
        intro h
        simpa [hmissing] using isSome_findEntry_of_present h
      rw [mirrors_written (isSome_findEntry_fault hrec (.inl hv2)) hfind,
        present_of_fault hrec habs2, addrToRange_behind h2, hrange,
        rangeBehind_congr hpages.range hpages.rangeList]
      constructor
      · exact fun h => .inr (.inr ⟨by simpa using hnone, hother, h.2⟩)
      · rintro (h | h | ⟨-, -, h⟩)
        · exact absurd h habs0
        · exact absurd ((hp2 _).mpr h) habs2
        · exact ⟨fun hsame => hother hsame.sameTable, h⟩

/-- A kernel page at `2 ^ 47`, and a process that maps two pages of it shared at `0x10000`. -/
def sharedPage : Except Panic Machine := do
  let m ← booted.newPagemap (.user 0)
  let m ← m.mapAnonymous .kernel 0xffff800000000000#64 0x1000#64 (pagePresent ||| pageWritable) false
  let (_, m) ← m.handlePageFault .kernel 0xffff800000000000#64
  m.mapVirtual (.user 0) 0x10000#64 0x2000#64 (pagePresent ||| pageUser) 0xffff800000000000#64

theorem mirrors_iff_sharedPage :
    ∃ m res m', sharedPage = .ok m ∧ m.handlePageFault (.user 0) 0x10000#64 = .ok (res, m') ∧
      (Mirrors m m' (.user 0) 0x10000#64 1 res ↔ MirrorServed m (.user 0) 0x10000#64 1) := by
  obtain ⟨m, hm⟩ : ∃ m, sharedPage = .ok m := ⟨_, rfl⟩
  obtain ⟨⟨res, m'⟩, hf⟩ : ∃ x, (sharedPage >>= fun m => m.handlePageFault (.user 0) 0x10000#64) =
      .ok x := ⟨_, rfl⟩
  rw [hm, ok_bind] at hf
  refine ⟨m, res, m', hm, hf, mirrors_iff hf ?_ ?_⟩
  · exact map_ok_eq hm (fun m => (m.addrToRange (.user 0) 0x10000#64).1) rfl
  · exact map_ok_eq hm (fun m => (m.range 1).type) rfl

/-- The second page mirrors an address behind the kernel page that is not mapped: the fault returns
    the address zero and maps the frame there. -/
theorem mirror_maps_frame_zero :
    ∃ m m', sharedPage = .ok m ∧ (m.addrToRange (.user 0) 0x11000#64).1 = some 1 ∧
      (m.range 1).type = .directVirtual ∧
      m.handlePageFault (.user 0) 0x11000#64 = .ok (some 0#64, m') ∧
      ¬m'.Present (.user 0) ((m.range 1).mirrored 0x11000#64) ∧
      m'.Present (.user 0) 0x11000#64 ∧ ¬Mirrors m m' (.user 0) 0x11000#64 1 (some 0#64) := by
  obtain ⟨m, hm⟩ : ∃ m, sharedPage = .ok m := ⟨_, rfl⟩
  obtain ⟨m', hf⟩ : ∃ m', (sharedPage >>= fun m => m.handlePageFault (.user 0) 0x11000#64) =
      .ok (some 0#64, m') := ⟨_, rfl⟩
  have hmirrored : (m.range 1).mirrored 0x11000#64 = 0xffff800000001000#64 :=
    map_ok_eq hm (fun m => (m.range 1).mirrored 0x11000#64) rfl
  have hno : ¬m'.Present (.user 0) ((m.range 1).mirrored 0x11000#64) := by
    have : isPresent (m'.entry (.user 0) 0xffff800000001000#64) = false :=
      map_ok_eq hf (fun x => isPresent (x.2.entry (.user 0) 0xffff800000001000#64)) rfl
    unfold Machine.Present
    rw [hmirrored, this]
    decide
  have hmapped : m'.Present (.user 0) 0x11000#64 :=
    map_ok_eq hf (fun x => isPresent (x.2.entry (.user 0) 0x11000#64)) rfl
  rw [hm, ok_bind] at hf
  refine ⟨m, m', hm, ?_, ?_, hf, hno, hmapped, fun h => hno h.2.1⟩
  · exact map_ok_eq hm (fun m => (m.addrToRange (.user 0) 0x11000#64).1) rfl
  · exact map_ok_eq hm (fun m => (m.range 1).type) rfl

end Mirrors

end Fishix.Mem
