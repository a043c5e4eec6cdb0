import Fishix.Mem.OwnedAddRange
import Fishix.Mem.Fault

/-!
# Page faults keep the ownership invariant

* `Owned.grow_tables`: pages are taken for page tables.
* `Owned.writeForeign`: a mapping of a device or of a page of the kernel is entered.
* `Owned.handlePageFault`: a page fault, provided a DIRECT range maps no frame of the
  physical memory manager and a DIRECT_VIRTUAL range mirrors present pages of kernel
  ranges (`FaultOk`).
-/

namespace Fishix.Mem

namespace Owned

variable {window : U64 → Prop} {n : ℕ} {D : RangeId → U64 → Prop} {m m' : Machine}

/-! ## Page tables -/

/-- The pages `fs` are taken off the freelist for the tables of page map `k`, which may be new. -/
structure GrowTables (k : ℕ) (fs : List Pfn) (m m' : Machine) : Prop where
  pages : PagesOk m'
  free : ∀ g ∈ fs, g ∈ m.list .freelist
  mem : ∀ l g, g ∈ m'.list l ↔ g ∈ m.list l ∧ g ∉ fs ∨ g ∈ fs ∧ l = .tables (.user k)
  mappedAddr : ∀ g, (m'.page g).mappedAddr = (m.page g).mappedAddr
  live : ∀ q, m'.live q = if q = .user k then true else m.live q
  entry : ∀ q w, m.live (.user q) = true → LowerPage w →
    m'.entry (.user q) w = m.entry (.user q) w
  fresh : m.live (.user k) = false → ∀ w, LowerPage w → ¬ m'.Present (.user k) w
  kernel : ∀ w, m'.entry .kernel w = m.entry .kernel w
  table : ∀ q g, m'.live q = true → m'.HasTable q g →
    m.live q = true ∧ m.HasTable q g ∨ q = .user k ∧ g ∈ fs
  range : m'.range = m.range
  nextRange : m'.nextRange = m.nextRange
  rangeList : ∀ q, m'.rangeList q = m.rangeList q
  regions : m'.regions = m.regions

theorem kernelPage_grow {k : ℕ} {fs : List Pfn} (h : Owned window n D m)
    (hg : GrowTables k fs m m') (g : Pfn) : KernelPage m' g ↔ KernelPage m g := by
  unfold KernelPage
  rw [hg.rangeList]
  constructor
  · rintro ⟨s, hs, hgs⟩
    rcases (hg.mem _ g).mp hgs with ⟨h1, -⟩ | ⟨-, he⟩
    · exact ⟨s, hs, h1⟩
    · cases he
  · rintro ⟨s, hs, hgs⟩
    refine ⟨s, hs, (hg.mem _ g).mpr (.inl ⟨hgs, fun hf => ?_⟩)⟩
    cases h.pages.unique hgs (hg.free g hf)

theorem grow_tables {k : ℕ} {fs : List Pfn} (h : Owned window n D m)
    (hg : GrowTables k fs m m') : Owned window n D m' ∧ NoNewForeign m m' := by
  have hkp := h.kernelPage_grow hg
  have hknown : ∀ g, m'.Known g ↔ m.Known g := by
    intro g
    unfold Machine.Known Machine.findPage
    rw [hg.regions]
  have hmem : ∀ s g, g ∈ m'.list (.range s) ↔ g ∈ m.list (.range s) := by
    intro s g
    rw [hg.mem]
    constructor
    · rintro (⟨h1, -⟩ | ⟨-, he⟩)
      · exact h1
      · cases he
    · intro h1
      refine .inl ⟨h1, fun hf => ?_⟩
      cases h.pages.unique h1 (hg.free g hf)
  have hlive : ∀ q, m.live q = true → m'.live q = true := by
    intro q hq
    rw [hg.live]
    split_ifs
    · rfl
    · exact hq
  have hold : ∀ q w, LowerPage w → m'.Present (.user q) w →
      m'.live (.user q) = true → m.live (.user q) = true := by
    intro q w hw hp hq
    by_contra hd
    rw [hg.live] at hq
    split_ifs at hq with hqk
    · cases hqk
      exact hg.fresh (by simpa using hd) w hw hp
    · exact hd hq
  have hforeign : ∀ q w, m.live (.user q) = true → LowerPage w →
      (Foreign m' q w ↔ Foreign m q w) := by
    intro q w hq hw
    unfold Foreign Machine.Present
    rw [hg.entry q w hq hw, hknown, hkp, hq, hlive _ hq]
  constructor
  · refine ⟨h.heap.congr hg.rangeList hg.nextRange, hg.pages, hlive _ h.kernelLive, ?_, ?_, ?_, ?_,
      ?_, ?_, ?_, ?_⟩
    · intro q hq
      have hq' := hq
      rw [hg.live] at hq
      split_ifs at hq with hqk
      obtain ⟨h1, h2⟩ := h.dead q hq
      refine ⟨by rw [hg.rangeList]; exact h1, List.eq_nil_iff_forall_not_mem.mpr fun g hg' => ?_⟩
      rcases (hg.mem _ g).mp hg' with ⟨h3, -⟩ | ⟨-, he⟩
      · rw [h2] at h3
        cases h3
      · cases he
        exact hqk rfl
    · intro q s hs
      rw [hg.rangeList] at hs
      rw [hg.range]
      exact h.ranges q s hs
    · exact fun q => (h.disj q).congr (hg.rangeList _) hg.range
    · intro s hs
      rw [hg.rangeList] at hs
      rw [hg.range]
      exact h.kernelRanges s hs
    · intro s g hgs
      rw [hmem] at hgs
      rw [hg.rangeList]
      rcases h.backed s g hgs with hk | ⟨q, hs, hmap, hfit⟩
      · exact .inl hk
      · have hq : m.live (.user q) = true := by
          by_contra hd
          rw [(h.dead _ (by simpa using hd)).1] at hs
          cases hs
        have hent := hg.entry q _ hq hmap.lower
        refine .inr ⟨q, by rw [hg.rangeList]; exact hs, ⟨?_, ?_, ?_⟩, ?_⟩
        · rw [hg.mappedAddr]
          exact hmap.lower
        · unfold Machine.Present
          rw [hg.mappedAddr, hent]
          exact hmap.present
        · rw [hg.mappedAddr, hent]
          exact hmap.frame
        · unfold Fits
          rw [hg.mappedAddr, hg.range, hent]
          exact hfit
    · intro q w hq hw hp hnf
      have hq' := hold q w hw hp hq
      rw [hforeign q w hq' hw] at hnf
      unfold Machine.Present at hp
      rw [hg.entry q w hq' hw] at hp ⊢
      obtain ⟨r, hr, h1, h2⟩ := h.owned q w hq' hw hp hnf
      exact ⟨r, by rw [hg.rangeList]; exact hr, (hmem r _).mpr h1, by rw [hg.mappedAddr]; exact h2⟩
    · intro w hw hp hk
      unfold Machine.Present at hp
      rw [hg.kernel] at hp hk ⊢
      rw [hkp]
      exact h.kernel w hw hp ((hknown _).mp hk)
    · intro q hq g hgt
      rcases hg.table q g hq hgt with ⟨h1, h2⟩ | ⟨rfl, h2⟩
      · have h3 := h.tables q h1 g h2
        refine (hg.mem _ g).mpr (.inl ⟨h3, fun hf => ?_⟩)
        cases h.pages.unique h3 (hg.free g hf)
      · exact (hg.mem _ g).mpr (.inr ⟨h2, rfl⟩)
  · constructor
    · rintro q w hw ⟨hl, hp, hk⟩
      have hq := hold q w hw hp hl
      unfold Machine.Present at hp
      rw [hg.entry q w hq hw] at hp hk
      exact ⟨hq, hp, (hkp _).mp hk⟩
    · rintro q w hw hf
      have hq := hold q w hw hf.2.1 hf.1
      exact (hforeign q w hq hw).mp hf

section

variable (h : Owned window n D m) (hlive : m.live (.user n) = true)

include h hlive

theorem growTables_createEntry {v : U64} (hv : v.toNat < 2 ^ 47)
    (hrun : m.createEntry (.user n) v = .ok m') : ∃ fs, GrowTables n fs m m' := by
  obtain ⟨fs, m1, t, ht, rfl, -, hentry, -, htab⟩ := createEntry_spec hrun
  obtain ⟨h1, h2, h3, h4⟩ := h.pages.tookTables ht
  have hlow : tablesOf (.user n) v = .user n := by
    unfold Mem.tablesOf
    rw [if_neg]
    rw [upperHalf_iff]
    unfold vpn
    omega
  rw [hlow] at hentry htab ⊢
  have hsame : m1 = { m with page := m1.page, list := m1.list } := ht.same
  have hpo := pagesOnly_setTables m1 (.user n) t
  refine ⟨fs, h1.congr rfl rfl rfl, h2, h3, h4, ?_, ?_, ?_, ?_, ?_, ?_, ?_, ?_, ?_⟩
  · intro q
    rw [hpo.live, hsame]
    split_ifs with hq
    · rw [hq]
      exact hlive
    · rfl
  · intro q w _ _
    exact hentry _ w
  · intro hd
    rw [hlive] at hd
    cases hd
  · intro w
    exact hentry _ w
  · intro q g hq hg
    rw [hpo.live, hsame] at hq
    rcases (htab q g).mp hg with h5 | ⟨rfl, h5⟩
    · exact .inl ⟨hq, h5⟩
    · exact .inr ⟨rfl, h5⟩
  · rw [hpo.range, hsame]
  · rw [hpo.nextRange, hsame]
  · intro q
    rw [hpo.rangeList, hsame]
    rfl
  · rw [hpo.regions, hsame]

theorem createEntry {v : U64} (hv : v.toNat < 2 ^ 47) (hrun : m.createEntry (.user n) v = .ok m') :
    Owned window n D m' ∧ NoNewForeign m m' := by
  obtain ⟨fs, hg⟩ := h.growTables_createEntry hlive hv hrun
  exact h.grow_tables hg

/-- The contents of frames play no part. -/
theorem setFrame (f : Pfn) (c : Frame) :
    Owned window n D (m.setFrame f c) ∧ NoNewForeign m (m.setFrame f c) := by
  refine h.grow_tables (show GrowTables n [] m _ from ⟨h.pages.congr rfl rfl rfl, by simp, ?_,
    fun _ => rfl, ?_, fun _ _ _ _ => rfl, ?_, fun _ => rfl, ?_, rfl, rfl, fun _ => rfl, rfl⟩)
  · intro l g
    show g ∈ m.list l ↔ _
    simp
  · intro q
    show m.live q = _
    split_ifs with hq
    · rw [hq]
      exact hlive
    · rfl
  · intro hd
    rw [hlive] at hd
    cases hd
  · intro q g hq hg
    exact .inl ⟨hq, hg⟩

end

/-- Between calls nothing is owed, by any page map. -/
theorem any (h : Owned window n (fun _ _ => False) m) (k : ℕ) :
    Owned window k (fun _ _ => False) m := by
  refine { h with backed := ?_ }
  intro r f hf
  rcases h.backed r f hf with hk | ⟨q, hr, hmap, hfit⟩
  · exact .inl hk
  · exact .inr ⟨q, hr, hmap, .inl (hfit.resolve_right (fun hd => hd.2))⟩

/-! ## Entries that name no page of a user -/

/-- A mapping of a device or of a page of the kernel is entered where nothing is present. -/
theorem writeForeign (h : Owned window n D m) {v x : U64} (hv : LowerPage v)
    (habs : ¬ m.Present (.user n) v) (hsome : (m.findEntry (.user n) v).isSome)
    (hx : ¬ m.Known (frameOf x) ∨ KernelPage m (frameOf x)) :
    Owned window n D (m.writeEntry (.user n) v x) := by
  have hent := entry_writeEntry hsome (x := x)
  have hself : (m.writeEntry (.user n) v x).entry (.user n) v = x := by
    rw [hent, if_pos ⟨rfl, rfl⟩]
  have hother : ∀ q w, LowerPage w → ¬ (PagemapId.user q = .user n ∧ w = v) →
      (m.writeEntry (.user n) v x).entry (.user q) w = m.entry (.user q) w := by
    intro q w hw hne
    rw [hent, if_neg (fun hc => hne ((samePage_iff hv hw _ _).mp hc))]
  have hlist := (pagesOnly_writeEntry m (.user n) v x).rangeList
  refine ⟨h.heap.congr hlist rfl, h.pages.congr rfl rfl rfl, h.kernelLive, ?_, ?_, ?_, ?_, ?_, ?_,
    ?_, ?_⟩
  · intro q hq
    rw [hlist]
    exact h.dead q hq
  · intro q s hs
    rw [hlist] at hs
    exact h.ranges q s hs
  · exact fun q => (h.disj q).congr (hlist _) rfl
  · intro s hs
    rw [hlist] at hs
    exact h.kernelRanges s hs
  · intro s g hg
    rcases h.backed s g hg with hk | ⟨q, hs, hmap, hfit⟩
    · refine .inl ?_
      rw [hlist]
      exact hk
    · have hne : ¬ (PagemapId.user q = .user n ∧ (m.page g).mappedAddr = v) := by
        rintro ⟨h1, h2⟩
        cases h1
        have hp := hmap.present
        rw [h2] at hp
        exact habs hp
      have he := hother q _ hmap.lower hne
      refine .inr ⟨q, by rw [hlist]; exact hs, ⟨hmap.lower, ?_, ?_⟩, ?_⟩
      · show isPresent ((m.writeEntry (.user n) v x).entry (.user q) (m.page g).mappedAddr) = true
        rw [he]
        exact hmap.present
      · show frameOf ((m.writeEntry (.user n) v x).entry (.user q) (m.page g).mappedAddr) = g
        rw [he]
        exact hmap.frame
      · refine hfit.imp (fun hf => ⟨hf.1, ?_⟩) id
        show flagsOf ((m.writeEntry (.user n) v x).entry (.user q) (m.page g).mappedAddr) = _
        rw [he]
        exact hf.2
  · intro q w hq hw hp hnf
    have hkp : ∀ g, KernelPage m g → KernelPage (m.writeEntry (.user n) v x) g := by
      rintro g ⟨s, hs, hgs⟩
      exact ⟨s, by rw [hlist]; exact hs, hgs⟩
    by_cases hqw : PagemapId.user q = .user n ∧ w = v
    · obtain ⟨h1, rfl⟩ := hqw
      cases h1
      refine absurd ⟨hq, hp, ?_⟩ hnf
      rw [hself]
      exact hx.imp id (hkp _)
    · have he := hother q w hw hqw
      unfold Machine.Present at hp
      rw [he] at hp ⊢
      obtain ⟨s, hs, h1, h2⟩ := h.owned q w hq hw hp (by
        rintro ⟨-, -, hf⟩
        refine hnf ⟨hq, by unfold Machine.Present; rw [he]; exact hp, ?_⟩
        rw [he]
        exact hf.imp id (hkp _))
      exact ⟨s, by rw [hlist]; exact hs, h1, h2⟩
  · intro w hw hp hk
    unfold Machine.Present at hp
    rw [hent, if_neg (not_samePage_kernel hv n w)] at hp hk ⊢
    obtain ⟨s, hs, hg⟩ := h.kernel w hw hp hk
    exact ⟨s, by rw [hlist]; exact hs, hg⟩
  · intro q hq g hg
    exact h.tables q hq g ((hasTable_writeEntry _ _ _ _ _ _).mp hg)

/-! ## The page of an ANONYMOUS or FILE range -/

/-- A page off the freelist is mapped where nothing is present, in a range that holds the
    address. -/
theorem placeFault (h : Owned window n D m) (hlive : m.live (.user n) = true) {v : U64}
    {m1 : Machine} {r : RangeId} {f : Pfn} (hv : LowerPage (alignDown v pageSize))
    (habs : ¬ m.Present (.user n) v) (hsome : (m.findEntry (.user n) v).isSome)
    (hr : r ∈ m.rangeList (.user n)) (hc : (m.range r).Contains (alignDown v pageSize))
    (halloc : m.allocPage = .ok (f, m1)) (c : Frame) :
    Owned window n D (Mem.placeFault m1 (.user n) v r f c) ∧
      NoNewForeign m (Mem.placeFault m1 (.user n) v r f c) := by
  obtain ⟨hmem, hm1, hmem1, hpage1⟩ := h.pages.allocPage halloc
  have hplaced : Placed m (.user n) (alignDown v pageSize) r f
      (relinked m1 (.user n) (alignDown v pageSize) r f) := by
    refine placed_relinked hm1 hmem1 ?_ ?_ (h.pages.known _ _ hmem) (pagesOnly_allocPage halloc) ?_ ?_
    · intro g
      rw [hpage1]
      split_ifs with hg
      · rw [hg]
      · rfl
    · rw [hpage1, if_pos rfl]
    · obtain ⟨-, -, -, rfl⟩ := allocPage_spec halloc
      rfl
    · rw [findEntry_congr m (tablesOf_alignDown _ v) (vpn_alignDown v)]
      exact hsome
  have hmay : MayMove m n (alignDown v pageSize) (f.phy ||| (m.range r).pageFlags) (some f)
      (.range r) (alignDown v pageSize) := by
    refine ⟨?_, ?_, .inr ⟨r, hr, f, rfl, rfl, rfl, rfl, hc⟩⟩
    · rintro g hg
      cases hg
      exact .inl hmem
    · intro hp
      exact absurd ((present_alignDown _ _ _).mp hp) habs
  have h1 := h.moved hv hmay hplaced
  have h2 := h.noNewForeign_moved hv hmay hplaced
  obtain ⟨h3, h4⟩ := h1.setFrame (by rw [hplaced.live]; exact hlive) f c
  exact ⟨h3.mono (fun _ _ _ _ hd => hd.1), h2.trans h4⟩

end Owned

/-! ## A whole page fault -/

/-- What the ranges of page map `n` serve at `v` is not a frame of another owner: a DIRECT
    range maps no frame with a `pmm::Page`, a DIRECT_VIRTUAL range mirrors a present page of
    a kernel range. -/
def FaultOk (m : Machine) (n : ℕ) (v : U64) : Prop :=
  ∀ r ∈ m.rangeList (.user n), (m.range r).Contains v →
    ((m.range r).type = .direct →
      ¬ m.Known (frameOf ((m.range r).position v + (m.range r).phyBase))) ∧
    ((m.range r).type = .directVirtual →
      UpperHalf ((m.range r).position v + (m.range r).phyBase) ∧
      m.Present .kernel ((m.range r).position v + (m.range r).phyBase) ∧
      KernelPage m (frameOf (m.entry .kernel ((m.range r).position v + (m.range r).phyBase))))

/-- The page map has ANONYMOUS and FILE ranges only. -/
def OnlyPaged (m : Machine) (n : ℕ) : Prop :=
  ∀ r ∈ m.rangeList (.user n), (m.range r).type = .anonymous ∨ (m.range r).type = .file

theorem OnlyPaged.faultOk {m : Machine} {n : ℕ} (h : OnlyPaged m n) (v : U64) : FaultOk m n v := by
  intro r hr _
  rcases h r hr with ht | ht
  · rw [ht]
    simp
  · rw [ht]
    simp

theorem UserRange.contains_alignDown {e : MappedRange} (h : UserRange e) {v : U64}
    (hv : e.Contains v) : e.Contains (alignDown v pageSize) := by
  have hb := h.base_aligned
  have h1 := BitVec.le_def.mp hv.1
  have h2 := BitVec.lt_def.mp hv.2
  refine ⟨BitVec.le_def.mpr ?_, BitVec.lt_def.mpr ?_⟩
  · rw [toNat_alignDown]
    omega
  · rw [toNat_alignDown]
    omega

theorem lowerPage_alignDown {v : U64} (h : v.toNat < 2 ^ 47) : LowerPage (alignDown v pageSize) := by
  unfold LowerPage
  rw [toNat_alignDown]
  omega

theorem frameOf_mask_or {x fl : U64} (h : fl &&& frameMask = 0#64) :
    frameOf ((x &&& frameMask) ||| fl) = frameOf x := by
  rw [and_frameMask]
  exact frameOf_phy_or h

/-- `findEntry` of an upper-half address is the kernel's. -/
theorem findEntry_upper (m : Machine) (p : PagemapId) {v : U64} (h : UpperHalf v) :
    m.findEntry p v = m.findEntry .kernel v := by
  refine findEntry_congr m ?_ rfl
  unfold tablesOf
  rw [if_pos h, if_pos h]

namespace Owned

variable {window : U64 → Prop} {n : ℕ} {m m' : Machine}

theorem addrToRange (h : Owned window n (fun _ _ => False) m) (hlive : m.live (.user n) = true)
    (hc : CacheOk m (.user n)) {v : U64} (hv : v.toNat < 2 ^ 47) {r : RangeId}
    (hrun : m.addrToRange (.user n) v = (some r, m')) :
    Owned window n (fun _ _ => False) m' ∧ NoNewForeign m m' ∧ CacheOk m' (.user n) ∧
      m'.page = m.page ∧ m'.list = m.list ∧ (∀ q w, m'.findEntry q w = m.findEntry q w) ∧
      r ∈ m.rangeList (.user n) ∧ (m.range r).Contains v := by
  obtain ⟨hr, hcon, hm'⟩ := addrToRange_some hc hrun
  have hmem : r ∈ m.rangeList (.user n) := by
    refine hr.resolve_right (fun hk => ?_)
    have := h.kernelRanges r hk v hcon
    omega
  rcases hm' with rfl | rfl
  · exact ⟨h, .refl _, hc, rfl, rfl, fun _ _ => rfl, hmem, hcon⟩
  · have ho := rangesOnly_setCache m (.user n) (some r)
    refine ⟨h.setCache hlive _, noNewForeign_rangesOnly ho (rangeList_setCache m _ _ _), ?_, ho.page,
      ho.list, ho.findEntry, hmem, hcon⟩
    intro c hcc
    rw [rangeList_setCache]
    have : some r = some c := by
      rw [← hcc]
      simp [Machine.setCache, Machine.setPagemap]
    cases this
    exact .inl hmem

/-- **Main theorem.** A page fault at a lower-half address keeps the ownership invariant. -/
theorem handlePageFault (h : Owned window n (fun _ _ => False) m)
    (hlive : m.live (.user n) = true) (hc : CacheOk m (.user n)) {v : U64}
    (hv : v.toNat < 2 ^ 47) (hok : FaultOk m n v) {res : Option U64}
    (hrun : m.handlePageFault (.user n) v = .ok (res, m')) :
    Owned window n (fun _ _ => False) m' ∧ CacheOk m' (.user n) ∧
      (OnlyPaged m n → NoNewForeign m m') := by
  obtain ⟨m1, hm1, hcase⟩ := handlePageFault_cases hrun
  obtain ⟨h1, hfor1⟩ := h.createEntry hlive hv hm1
  have hpo := pagesOnly_createEntry hm1
  have hc1 : CacheOk m1 (.user n) := hc.congr (hpo.cachedRangeLookup _) hpo.rangeList
  have hlive1 : m1.live (.user n) = true := by
    rw [hpo.live]
    exact hlive
  rcases hcase with ⟨-, -, rfl⟩ | ⟨-, hnone, -⟩ | ⟨r, m2, habs, hsome, hin⟩
  · exact ⟨h1, hc1, fun _ => hfor1⟩
  · obtain ⟨rfl, -⟩ := addrToRange_none hnone
    exact ⟨h1, hc1, fun _ => hfor1⟩
  obtain ⟨h2, hfor2, hc2, hpage, hlist, hfind, hr, hcon⟩ := h1.addrToRange hlive1 hc1 hv hsome
  have hsr := sameRanges_addrToRange hsome
  have hlive2 : m2.live (.user n) = true := by
    rw [hsr.live]
    exact hlive1
  have hr2 : r ∈ m2.rangeList (.user n) := by
    rw [hsr.rangeList]
    exact hr
  have hrange : m2.range r = m.range r := by rw [hsr.range, hpo.range]
  have hu : UserRange (m2.range r) := h2.ranges n r hr2
  have hcon2 : (m2.range r).Contains v := by
    rw [hsr.range]
    exact hcon
  have hpage' := hu.contains_alignDown hcon2
  have hlow := lowerPage_alignDown hv
  have habs2 : ¬ m2.Present (.user n) v := by
    unfold Machine.Present Machine.entry at habs ⊢
    rw [hfind]
    exact habs
  have hent : (m2.findEntry (.user n) v).isSome := by
    obtain ⟨fs, -, -, -, -, hs, -⟩ := createEntry_spec hm1
    rw [hfind]
    exact hs
  have hok' := hok r (by rw [← hpo.rangeList]; exact hr) (by rw [← hrange]; exact hcon2)
  have hknown : ∀ g, m2.Known g ↔ m.Known g := by
    intro g
    unfold Machine.Known Machine.findPage
    rw [hsr.regions, hpo.regions]
  have hkernel : ∀ w, m2.entry .kernel w = m.entry .kernel w := by
    intro w
    obtain ⟨fs, -, -, -, -, -, he, -⟩ := createEntry_spec hm1
    rw [← he]
    unfold Machine.entry
    rw [hfind]
  have hforeign : ∀ x, (¬ m2.Known (frameOf x) ∨ KernelPage m2 (frameOf x)) →
      Owned window n (fun _ _ => False) (m2.writeEntry (.user n) v x) := by
    intro x hx
    rw [← writeEntry_alignDown]
    refine h2.writeForeign hlow (fun hp => habs2 ((present_alignDown _ _ _).mp hp)) ?_ hx
    rw [findEntry_congr m2 (tablesOf_alignDown _ v) (vpn_alignDown v)]
    exact hent
  have hcw : ∀ x, CacheOk (m2.writeEntry (.user n) v x) (.user n) := fun x =>
    hc2.congr ((pagesOnly_writeEntry _ _ _ _).cachedRangeLookup _)
      (pagesOnly_writeEntry _ _ _ _).rangeList
  have hcp : ∀ m3 f c, m2.allocPage = .ok (f, m3) →
      CacheOk (Mem.placeFault m3 (.user n) v r f c) (.user n) := by
    intro m3 f c ha
    have hp3 := (pagesOnly_allocPage ha).trans
      (pagesOnly_relinked m3 (.user n) (alignDown v pageSize) r f)
    exact hc2.congr (hp3.cachedRangeLookup _) hp3.rangeList
  have honly : ∀ {t : RangeType}, (m2.range r).type = t → t ≠ .anonymous → t ≠ .file →
      ¬ OnlyPaged m n := by
    intro t ht h1 h2 ho
    rw [hrange] at ht
    rcases ho r (by rw [← hpo.rangeList]; exact hr) with h3 | h3
    · exact h1 (ht.symm.trans h3)
    · exact h2 (ht.symm.trans h3)
  -- a DIRECT_VIRTUAL range whose target is present needs no nested call
  have hmirror : (m2.range r).type = .directVirtual →
      ∃ target, m2.findEntry (.user n) ((m2.range r).position v + (m2.range r).phyBase) =
        some target ∧ KernelPage m2 (frameOf target) := by
    intro ht
    rw [hrange] at ht ⊢
    obtain ⟨hup, hpres, hkp⟩ := hok'.2 ht
    have hpres2 : m2.Present .kernel ((m.range r).position v + (m.range r).phyBase) := by
      unfold Machine.Present
      rw [hkernel]
      exact hpres
    obtain ⟨e, he⟩ := Option.isSome_iff_exists.mp (isSome_findEntry_of_present hpres2)
    refine ⟨e, by rw [findEntry_upper _ _ hup]; exact he, ?_⟩
    have hee : m.entry .kernel ((m.range r).position v + (m.range r).phyBase) = e := by
      rw [← hkernel]
      unfold Machine.entry
      rw [he]
      rfl
    rw [hee] at hkp
    obtain ⟨fs, hg⟩ := h.growTables_createEntry hlive hv hm1
    obtain ⟨s, hs, hgs⟩ := (h.kernelPage_grow hg _).mpr hkp
    exact ⟨s, by rw [hsr.rangeList]; exact hs, by rw [hlist]; exact hgs⟩
  cases hin with
  | anonymous ht ha =>
    obtain ⟨h3, h4⟩ := h2.placeFault hlive2 hlow habs2 hent hr2 hpage' ha zeroFrame
    exact ⟨h3, hcp _ _ _ ha, fun _ => (hfor1.trans hfor2).trans h4⟩
  | file ht hf ha =>
    obtain ⟨h3, h4⟩ := h2.placeFault hlive2 hlow habs2 hent hr2 hpage' ha _
    exact ⟨h3, hcp _ _ _ ha, fun _ => (hfor1.trans hfor2).trans h4⟩
  | direct ht =>
    refine ⟨hforeign _ (.inl ?_), hcw _, fun ho => absurd ho (honly ht (by simp) (by simp))⟩
    rw [frameOf_mask_or hu.mask, hknown, hrange]
    exact hok'.1 (by rw [← hrange]; exact ht)
  | @mirror m3 target ht hw hf =>
    obtain ⟨e, he, hkp⟩ := hmirror ht
    have hm3 : m3 = m2 := by
      rcases hw with hw | ⟨hn, -⟩
      · exact hw
      · rw [he] at hn
        cases hn
    subst hm3
    rw [he] at hf
    cases hf
    refine ⟨hforeign _ (.inr ?_), hcw _, fun ho => absurd ho (honly ht (by simp) (by simp))⟩
    rw [frameOf_mask_or hu.mask]
    exact hkp
  | mirrorFails ht hn =>
    obtain ⟨e, he, -⟩ := hmirror ht
    rw [he] at hn
    cases hn

end Owned

end Fishix.Mem
