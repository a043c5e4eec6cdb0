import Fishix.Mem.OwnedFault
import Fishix.Mem.RangeRun

/-!
# New and destroyed page maps keep the ownership invariant

* `Owned.newPagemap`: `new Pagemap()` with `map_kernel`.
* `Owned.fork`: `fork`, for any page map that satisfies the invariant.
* `Owned.deletePagemap`: `~Pagemap`.
-/

namespace Fishix.Mem

open Function (update update_self update_of_ne update_apply)

theorem alignDown_of_aligned {v : U64} (h : v.toNat % 4096 = 0) : alignDown v pageSize = v := by
  apply BitVec.eq_of_toNat_eq
  rw [toNat_alignDown]
  omega

namespace Owned

variable {window : U64 → Prop} {n k : ℕ} {m m0 m' : Machine}

/-- No frame that a live page map maps in the lower half is free. -/
theorem mapped_not_free {D : RangeId → U64 → Prop} (h : Owned window n D m)
    (hlive : m.live (.user k) = true) {v : U64} (hv : LowerPage v) (hp : m.Present (.user k) v) :
    frameOf (m.entry (.user k) v) ∉ m.list .freelist := by
  intro hf
  by_cases hfor : Foreign m k v
  · rcases hfor.2.2 with hk | ⟨s, -, hs⟩
    · exact hk (h.pages.known _ _ hf)
    · cases h.pages.unique hf hs
  · obtain ⟨r, -, hr, -⟩ := h.owned k v hlive hv hp hfor
    cases h.pages.unique hf hr

theorem listed (h : Owned window n (fun _ _ => False) m) {r : RangeId} {g : Pfn}
    (hr : r ∈ m.rangeList (.user k)) (hg : g ∈ m.list (.range r)) :
    MappedAt m k g ∧ Fits m k r g := by
  rcases h.backed r g hg with hk | ⟨q, hq, hmap, hfit⟩
  · exact absurd hk (h.not_kernel hr)
  · cases h.heap.owner _ _ r hr hq
    exact ⟨hmap, hfit.resolve_right fun hd => hd.2⟩

theorem forkSource (h : Owned window n (fun _ _ => False) m) (hlive : m.live (.user n) = true)
    (hdead : m.live (.user k) = false) : ForkSource m n k := by
  refine ⟨h.heap, ⟨h.pages.nodup _, fun f hf => (h.pages.free _ f hf).mpr rfl⟩, ?_, h.disj n,
    fun r _ _ => h.pages.nodup _, fun r hr _ g hg => h.listed hr hg,
    fun v hv hp => h.mapped_not_free hlive hv hp, ?_⟩
  · rintro rfl
    rw [hlive] at hdead
    cases hdead
  · intro g hg hf
    cases h.pages.unique hf (h.tables _ hlive g hg)

/-! ## `fork` -/

theorem growTables_forkStart (h : Owned window n (fun _ _ => False) m)
    (hdead : m.live (.user k) = false) (h0 : TablesForked m (.user n) (.user k) m0) :
    ∃ fs, GrowTables k fs m m0 := by
  obtain ⟨fs, hfs, -, htl, htook, hout, htab⟩ := h0.taken
  obtain ⟨hrl, htn⟩ := h.dead _ hdead
  have hmem : ∀ f ∈ fs, f ∈ m.list .freelist := by
    intro f hf
    rw [hfs]
    exact List.mem_append_left _ hf
  have hnd := h.pages.nodup .freelist
  rw [hfs] at hnd
  have ht : TookTables (.user k) m fs { m with page := m0.page, list := m0.list } := by
    refine ⟨hfs, ?_, h0.lists, (List.nodup_append.mp hnd).1,
      fun f hf => (h.pages.free _ f (hmem f hf)).mpr rfl, htook, hout, rfl⟩
    show m0.list (.tables (.user k)) = _
    rw [htn, htl, List.nil_append]
  obtain ⟨h1, h2, h3, h4⟩ := h.pages.tookTables ht
  have hreg : m0.regions = m.regions := by rw [h0.rest]
  have hentry : ∀ p v, tablesOf p v ≠ .user k → m0.entry p v = m.entry p v := by
    intro p v hne
    unfold Machine.entry Machine.findEntry
    rw [h0.pagemap _ hne]
  refine ⟨fs, h1.congr rfl rfl hreg, h2, h3, h4, ?_, ?_, ?_, ?_, ?_, h0.range, h0.nextRange, ?_,
    hreg⟩
  · intro q
    rw [h0.live, update_apply]
  · intro q w hq hw
    refine hentry _ w ?_
    rw [hw.tablesOf]
    rintro he
    rw [he, hdead] at hq
    cases hq
  · intro _ w hw
    exact h0.absent hw
  · intro w
    refine hentry _ w ?_
    rw [tablesOf_kernel]
    simp
  · intro q g hq hg
    by_cases hqk : q = .user k
    · subst hqk
      exact .inr ⟨rfl, htab g hg⟩
    · rw [h0.live, update_of_ne hqk] at hq
      unfold Machine.HasTable at hg
      rw [h0.pagemap q hqk] at hg
      exact .inl ⟨hq, hg⟩
  · intro q
    by_cases hqk : q = .user k
    · subst hqk
      rw [h0.rangeList, hrl]
    · unfold Machine.rangeList
      rw [h0.pagemap q hqk]

theorem linkedCopy (h : Owned window k (fun _ _ => False) m) (hlive : m.live (.user k) = true)
    {old : MappedRange} (hold : UserRange old)
    (hdisj : ∀ s ∈ m.rangeList (.user k), ∀ v, (m.range s).Contains v → ¬ old.Contains v) :
    Owned window k (fun _ _ => False) (Mem.linkedCopy m (.user k) old) ∧
      NoNewForeign m (Mem.linkedCopy m (.user k) old) := by
  have ho := rangesOnly_linkedCopy m (.user k) old
  have hothers : ∀ q, q ≠ .user k → (Mem.linkedCopy m (.user k) old).rangeList q = m.rangeList q := by
    intro q hq
    unfold Machine.rangeList
    rw [pagemap_linkedCopy m old hq]
  have hnew : (Mem.linkedCopy m (.user k) old).range m.nextRange = forkedRange old := by
    rw [range_linkedCopy, if_pos rfl]
  have hkeep : ∀ q, ∀ s ∈ m.rangeList q, (Mem.linkedCopy m (.user k) old).range s = m.range s := by
    intro q s hs
    rw [range_linkedCopy, if_neg (h.heap.lt q s hs).ne]
  have hmem := mem_rangeList_linkedCopy m (.user k) old
  have hforked : ∀ v, (forkedRange old).Contains v ↔ old.Contains v := fun _ => Iff.rfl
  refine ⟨h.reshape hlive ho ⟨?_, ?_, ?_⟩ hothers ?_ ?_ ?_ ?_,
    noNewForeign_rangesOnly ho (hothers .kernel (by simp))⟩
  · intro q
    by_cases hq : q = .user k
    · subst hq
      have hperm := (linkedCopy_spec m (.user k) old).perm
      rw [hperm.nodup_iff, nextRange_clearCache, rangeList_clearCache, List.nodup_cons]
      exact ⟨fun hm => (h.heap.lt _ _ hm).ne rfl, h.heap.nodup _⟩
    · rw [hothers q hq]
      exact h.heap.nodup q
  · intro q s hs
    rw [nextRange_linkedCopy]
    by_cases hq : q = .user k
    · subst hq
      rcases (hmem s).mp hs with rfl | hs
      · exact Nat.lt_succ_self _
      · exact (h.heap.lt _ s hs).trans (Nat.lt_succ_self _)
    · rw [hothers q hq] at hs
      exact (h.heap.lt _ s hs).trans (Nat.lt_succ_self _)
  · have hin : ∀ q s, s ∈ (Mem.linkedCopy m (.user k) old).rangeList q →
        s = m.nextRange ∧ q = .user k ∨ s ∈ m.rangeList q := by
      intro q s hs
      by_cases hq : q = .user k
      · subst hq
        exact ((hmem s).mp hs).imp (fun he => ⟨he, rfl⟩) id
      · rw [hothers q hq] at hs
        exact .inr hs
    intro q q' s hs hs'
    rcases hin q s hs with ⟨he, hq⟩ | h1
    · rcases hin q' s hs' with ⟨-, hq'⟩ | h2
      · rw [hq, hq']
      · exact absurd he (h.heap.lt _ s h2).ne
    · rcases hin q' s hs' with ⟨he, -⟩ | h2
      · exact absurd he (h.heap.lt _ s h1).ne
      · exact h.heap.owner q q' s h1 h2
  · intro s _ hlt
    rw [range_linkedCopy, if_neg hlt.ne]
  · intro s hs
    rcases (hmem s).mp hs with rfl | hs
    · rw [hnew]
      exact ⟨hold.base_aligned, hold.end_aligned, hold.le, hold.lower, hold.mask, hold.present⟩
    · rw [hkeep _ s hs]
      exact h.ranges k s hs
  · intro r hr s hs hne v hv
    rcases (hmem r).mp hr with rfl | hr
    · rcases (hmem s).mp hs with rfl | hs
      · exact absurd rfl hne
      · rw [hnew] at hv
        rw [hkeep _ s hs]
        exact fun hc => hdisj s hs v hc hv
    · rw [hkeep _ r hr] at hv
      rcases (hmem s).mp hs with rfl | hs
      · rw [hnew]
        exact hdisj r hr v hv
      · rw [hkeep _ s hs]
        exact h.disj k r hr s hs hne v hv
  · intro r hr f _ hfit
    refine ⟨(hmem r).mpr (.inr hr), hfit.imp (fun hf => ?_) id⟩
    unfold Fits
    rw [hkeep _ r hr, ho.page, ho.entry]
    exact hf

/-- **Main theorem.** `fork` keeps the ownership invariant. -/
theorem fork (h : Owned window n (fun _ _ => False) m) (hlive : m.live (.user n) = true)
    (hdead : m.live (.user k) = false) (hrun : m.fork (.user n) (.user k) = .ok m') :
    Owned window n (fun _ _ => False) m' ∧ NoNewForeign m m' := by
  have hsrc := h.forkSource hlive hdead
  have hy := hsrc.fork_rule
    (P := fun _ s => Owned window k (fun _ _ => False) s ∧ NoNewForeign m s) ?_ ?_ ?_
  · obtain ⟨m0, -, -, h1, h2⟩ := hy.ok hrun
    exact ⟨h1.any n, h2⟩
  · intro m0 h0
    obtain ⟨fs, hg⟩ := h.growTables_forkStart hdead h0
    obtain ⟨h1, h2⟩ := h.grow_tables hg
    exact ⟨h1.any k, h2⟩
  · rintro m0 pre r post s h0 hrs hf ⟨h1, h2⟩
    have hlive' : s.live (.user k) = true := by
      rw [hf.live, h0.live, update_self]
    have hr : r ∈ m.rangeList (.user n) := by rw [hrs]; simp
    have hu : UserRange (m0.range r) := by
      rw [h0.range]
      exact h.ranges n r hr
    obtain ⟨h3, h4⟩ := h1.linkedCopy hlive' hu (by
      intro t ht v hv hc
      obtain ⟨-, -, r', hr', he⟩ := hf.ranges t ht
      rw [he] at hv
      have hnd := h.heap.nodup (.user n)
      rw [hrs, List.nodup_append] at hnd
      rw [h0.range] at hv hc
      refine h.disj n r' (by rw [hrs]; exact List.mem_append_left _ hr') r hr ?_ v hv hc
      rintro rfl
      exact hnd.2.2 r' hr' r' (List.mem_cons_self ..) rfl)
    exact ⟨h3, h2.trans h4⟩
  · rintro m0 rs' cs s r new g f s1 h0 hr - hstep ha ⟨h1, h2⟩
    have hf := hstep.forking
    have hlive' : s.live (.user k) = true := by
      rw [hf.live, h0.live, update_self]
    have hpg : (s.page g).mappedAddr = (m0.page g).mappedAddr := by
      rw [hf.page g (.inl hstep.used)]
    have hlow := hstep.lower
    rw [← hpg] at hlow
    have hal : alignDown (s.page g).mappedAddr pageSize = (s.page g).mappedAddr :=
      alignDown_of_aligned hlow.2
    have hcopied : copiedPage s s1 (.user k) new g f =
        Mem.placeFault s1 (.user k) (s.page g).mappedAddr new f (s.frame g) := by
      unfold copiedPage Mem.placeFault
      rw [hal]
    have habs : ¬ s.Present (.user k) (s.page g).mappedAddr := by
      intro hp
      obtain ⟨c, hc, he⟩ := hf.present _ hlow hp
      exact hstep.fresh c hc (he.trans hpg)
    have hg : g ∈ m.list (.range r) := by
      rw [← h0.lists _ (by simp) (by simp)]
      exact hstep.listed
    have hcon : (s.range new).Contains (alignDown (s.page g).mappedAddr pageSize) := by
      obtain ⟨hmap, hfit⟩ := h.listed hr hg
      rw [hal, hstep.range, hpg, h0.range, h0.page]
      · exact hfit.1
      · have := h.mapped_not_free hlive hmap.lower hmap.present
        rwa [hmap.frame] at this
    rw [hcopied]
    obtain ⟨h3, h4⟩ := h1.placeFault hlive' (by rw [hal]; exact hlow) habs
      (by rw [hpg, hf.found]; exact hstep.found) hstep.mem hcon ha (s.frame g)
    exact ⟨h3, h2.trans h4⟩

end Owned

/-! ## `new Pagemap()` -/

namespace Owned

variable {window : U64 → Prop} {n k : ℕ} {m m' : Machine}

theorem newPagemap (h : Owned window n (fun _ _ => False) m) (hdead : m.live (.user k) = false)
    (hrun : m.newPagemap (.user k) = .ok m') :
    Owned window n (fun _ _ => False) m' ∧ NoNewForeign m m' := by
  obtain ⟨hrl, htn⟩ := h.dead _ hdead
  unfold Machine.newPagemap at hrun
  dsimp only at hrun
  have hset : m.setList (.tables (.user k)) [] = m := by
    unfold Machine.setList
    rw [← htn, Function.update_eq_self]
  rw [hset] at hrun
  obtain ⟨⟨f, m1⟩, h1, hrun⟩ := bind_ok hrun
  cases hrun
  have ht := allocPageForPageTable_spec h1
  obtain ⟨h2, h3, h4, h5⟩ := h.pages.tookTables ht
  have hsame : m1 = { m with page := m1.page, list := m1.list } := ht.same
  have hpm : ∀ q, q ≠ .user k →
      update m1.pagemap (.user k) (Machine.emptyPagemap f) q = m.pagemap q := by
    intro q hq
    rw [update_of_ne hq, hsame]
  refine h.grow_tables (show GrowTables k [f] m _ from ⟨h2.congr rfl rfl rfl, h3, h4, h5, ?_, ?_,
    ?_, ?_, ?_, by rw [hsame]; rfl, by rw [hsame]; rfl, ?_, by rw [hsame]; rfl⟩)
  · intro q
    show update m1.live (.user k) true q = _
    rw [update_apply, hsame]
  · intro q w hq hw
    unfold Machine.entry Machine.findEntry
    rw [hw.tablesOf]
    show (Radix.lookup (update m1.pagemap (.user k) (Machine.emptyPagemap f) (.user q)).pml4 _).getD _ = _
    rw [hpm]
    rintro he
    rw [he, hdead] at hq
    cases hq
  · intro _ w hw
    unfold Machine.Present Machine.entry Machine.findEntry
    rw [hw.tablesOf]
    show ¬ isPresent ((Radix.lookup (update m1.pagemap (.user k) (Machine.emptyPagemap f) (.user k)).pml4
      _).getD _) = true
    rw [update_self]
    simp [Machine.emptyPagemap, Radix.lookup, Radix.empty]
  · intro w
    unfold Machine.entry Machine.findEntry
    rw [tablesOf_kernel]
    show (Radix.lookup (update m1.pagemap (.user k) (Machine.emptyPagemap f) .kernel).pml4 _).getD _ = _
    rw [hpm _ (by simp)]
  · intro q g hq hg
    have hg' : Radix.HasPage (update m1.pagemap (.user k) (Machine.emptyPagemap f)
      q).pml4 g := hg
    have hq' : update m1.live (.user k) true q = true := hq
    by_cases hqk : q = .user k
    · subst hqk
      rw [update_self] at hg'
      have := (Radix.hasPage_empty _ _ _ _).mp hg'
      exact .inr ⟨rfl, by simp [this]⟩
    · rw [hpm q hqk] at hg'
      rw [update_of_ne hqk, hsame] at hq'
      exact .inl ⟨hq', hg'⟩
  · intro q
    show (update m1.pagemap (.user k) (Machine.emptyPagemap f) q).rangeList = _
    by_cases hqk : q = .user k
    · subst hqk
      rw [update_self, hrl]
      rfl
    · rw [hpm q hqk]
      rfl

end Owned

/-! ## `~Pagemap` -/

/-- The lists `ls` of `m` have been freed. -/
structure Released (ls : ListId → Prop) (m s : Machine) : Prop where
  pages : PagesOk s
  mem : ∀ l g, g ∈ s.list l ↔
    g ∈ m.list l ∧ ¬ ls l ∨ l = .freelist ∧ ∃ l', ls l' ∧ g ∈ m.list l'
  page : ∀ g, (∀ l, ls l → g ∉ m.list l) → s.page g = m.page g
  pml4 : ∀ q, (s.pagemap q).pml4 = (m.pagemap q).pml4
  cache : ∀ q, (s.pagemap q).cachedRangeLookup = (m.pagemap q).cachedRangeLookup
  range : s.range = m.range
  nextRange : s.nextRange = m.nextRange
  live : s.live = m.live
  regions : s.regions = m.regions

namespace Released

variable {ls : ListId → Prop} {m s s' : Machine} {l : ListId}

/-- A change that leaves pages and tables alone. -/
theorem congr (h : Released ls m s) (ho : RangesOnly s s') (hr : s'.range = s.range)
    (hn : s'.nextRange = s.nextRange)
    (hc : ∀ q, (s'.pagemap q).cachedRangeLookup = (s.pagemap q).cachedRangeLookup) :
    Released ls m s' := by
  refine ⟨h.pages.congr ho.page ho.list ho.regions, ?_, ?_, ?_, fun q => (hc q).trans (h.cache q),
    hr.trans h.range, hn.trans h.nextRange, ho.live.trans h.live, ho.regions.trans h.regions⟩
  · rw [ho.list]
    exact h.mem
  · rw [ho.page]
    exact h.page
  · intro q
    rw [ho.pml4, h.pml4]

theorem freeList (h : Released ls m s) (hl : l ≠ .freelist) (hls : ¬ ls l)
    (hrun : (s.list l).foldlM Machine.freePage s = .ok s') :
    Released (fun k => ls k ∨ k = l) m (s'.setList l []) := by
  obtain ⟨h1, h2, h3⟩ := h.pages.freeAll hl hrun
  obtain ⟨hpo, hmaps⟩ := pagesOnly_freePages hrun
  have hsl : ∀ g, g ∈ s.list l ↔ g ∈ m.list l := by
    intro g
    rw [h.mem]
    simp [hl, hls]
  refine ⟨h1, ?_, ?_, ?_, fun q => (hpo.cachedRangeLookup q).trans (h.cache q),
    hpo.range.trans h.range, hpo.nextRange.trans h.nextRange, hpo.live.trans h.live,
    hpo.regions.trans h.regions⟩
  · intro k g
    rw [h2, h.mem, hsl]
    constructor
    · rintro (⟨⟨hg, hk⟩ | ⟨rfl, l', hl', hg⟩, hkl⟩ | ⟨hg, rfl⟩)
      · exact .inl ⟨hg, by simp [hk, hkl]⟩
      · exact .inr ⟨rfl, l', .inl hl', hg⟩
      · exact .inr ⟨rfl, l, .inr rfl, hg⟩
    · rintro (⟨hg, hk⟩ | ⟨rfl, l', hl' | rfl, hg⟩)
      · rw [not_or] at hk
        exact .inl ⟨.inl ⟨hg, hk.1⟩, hk.2⟩
      · exact .inl ⟨.inr ⟨rfl, l', hl', hg⟩, fun he => hl he.symm⟩
      · exact .inr ⟨hg, rfl⟩
  · intro g hg
    show s'.page g = _
    rw [h3 g (fun hs => hg l (.inr rfl) ((hsl g).mp hs)), h.page g (fun k hk => hg k (.inl hk))]
  · intro q
    show (s'.pagemap q).pml4 = _
    rw [hmaps, h.pml4]

theorem deleteRange (h : Released ls m s) {p : PagemapId} {r : RangeId} (hls : ¬ ls (.range r))
    (hrun : s.deleteRange p r = .ok s') :
    Released (fun k => ls k ∨ k = .range r) m s' := by
  unfold Machine.deleteRange at hrun
  dsimp only at hrun
  obtain ⟨s1, h1, hrun⟩ := bind_ok hrun
  cases hrun
  have h2 : Released ls m (s.setRangeList p ((s.rangeList p).erase r)) :=
    h.congr (rangesOnly_setRangeList _ _ _) rfl rfl (fun q => cachedRangeLookup_setRangeList s p q _)
  exact (h2.freeList (by simp) hls h1).congr (rangesOnly_addRefCount _ _ _)
    (range_addRefCount _ _ _) (nextRange_addRefCount _ _ _) (fun q => by rw [pagemap_addRefCount])

end Released

/-- What `~Pagemap` frees: the pages of the ranges and the tables. -/
def PagemapLists (m : Machine) (p : PagemapId) (l : ListId) : Prop :=
  l = .tables p ∨ ∃ r ∈ m.rangeList p, l = .range r

theorem deletePagemap_released {m m' : Machine} {p : PagemapId} (hm : PagesOk m) (hheap : HeapOk m)
    (h : m.deletePagemap p = .ok m') :
    ∃ s, Released (PagemapLists m p) m s ∧ m' = { s with live := update s.live p false } ∧
      ∀ q, s.rangeList q = if q = p then [] else m.rangeList q := by
  unfold Machine.deletePagemap at h
  obtain ⟨s, h1, h⟩ := bind_ok h
  obtain ⟨s', h2, h⟩ := bind_ok h
  cases h
  have hloop := (yields_foldlM (E := fun _ => True) (l := m.rangeList p)
    (f := fun m r => Machine.deleteRange m p r) (s := m)
    (R := fun pre s => Released (fun l => ∃ r ∈ pre, l = .range r) m s ∧
      ∀ q, s.rangeList q = if q = p then (m.rangeList p).drop pre.length else m.rangeList q)
    ?_ ?_).ok h1
  · obtain ⟨h3, h4⟩ := hloop
    obtain ⟨hpo, -⟩ := pagesOnly_freePages h2
    have h5 := h3.freeList (l := .tables p) (by simp) (by simp) h2
    refine ⟨_, ⟨h5.pages, fun l g => ?_, fun g hg => ?_, h5.pml4, h5.cache, h5.range,
      h5.nextRange, h5.live, h5.regions⟩, rfl, fun q => ?_⟩
    · rw [h5.mem]
      unfold PagemapLists
      simp only [or_comm]
    · refine h5.page g fun l hl => hg l ?_
      unfold PagemapLists
      exact hl.symm
    · show s'.rangeList q = _
      rw [hpo.rangeList, h4, List.drop_length]
  · rintro pre r post s hl ⟨h3, h4⟩
    refine yields_of_ok fun s' h5 => ⟨?_, fun q => ?_⟩
    · have hr : r ∉ pre := by
        intro hr
        have hnd := hheap.nodup p
        rw [hl, List.nodup_append] at hnd
        exact hnd.2.2 r hr r (List.mem_cons_self ..) rfl
      have h6 := h3.deleteRange (by
        rintro ⟨r', hr', he⟩
        cases he
        exact hr hr') h5
      refine ⟨h6.pages, fun l g => ?_, fun g hg => ?_, h6.pml4, h6.cache, h6.range,
        h6.nextRange, h6.live, h6.regions⟩
      · rw [h6.mem]
        simp only [List.mem_append, List.mem_singleton, or_and_right, exists_or, exists_eq_left]
      · refine h6.page g fun l hl' => hg l ?_
        simp only [List.mem_append, List.mem_singleton, or_and_right, exists_or, exists_eq_left]
        exact hl'
    · rw [(deleteRange_spec h5).rangeList]
      split_ifs with hq
      · rw [h4, if_pos rfl, hl]
        simp
      · rw [h4, if_neg hq]
  · refine ⟨⟨hm, by simp, fun _ _ => rfl, fun _ => rfl, fun _ => rfl, rfl, rfl, rfl, rfl⟩, fun q => ?_⟩
    split_ifs with hq
    · rw [hq]
      rfl
    · rfl

/-- **Main theorem.** Destroying a page map keeps the ownership invariant. -/
theorem Owned.deletePagemap {window : U64 → Prop} {n : ℕ} {m m' : Machine}
    (h : Owned window n (fun _ _ => False) m) (hrun : m.deletePagemap (.user n) = .ok m') :
    Owned window n (fun _ _ => False) m' ∧ NoNewForeign m m' := by
  obtain ⟨s, hrel, rfl, hrl⟩ := deletePagemap_released h.pages h.heap hrun
  have hlive : ∀ q, update s.live (.user n) false q =
      if q = .user n then false else m.live q := by
    intro q
    rw [update_apply, hrel.live]
  have hlive' : ∀ q, update s.live (.user n) false q = true →
      q ≠ .user n ∧ m.live q = true := by
    intro q hq
    rw [hlive] at hq
    split_ifs at hq with he
    exact ⟨he, hq⟩
  have hent : ∀ q w, s.entry q w = m.entry q w := by
    intro q w
    unfold Machine.entry Machine.findEntry
    rw [hrel.pml4]
  have hother : ∀ q, q ≠ .user n → s.rangeList q = m.rangeList q := by
    intro q hq
    rw [hrl, if_neg hq]
  -- the lists of other page maps' ranges are not freed
  have hkeep : ∀ q r, q ≠ .user n → r ∈ m.rangeList q → ¬ PagemapLists m (.user n) (.range r) := by
    rintro q r hq hr (he | ⟨r', hr', he⟩)
    · cases he
    · cases he
      exact hq (h.heap.owner _ _ _ hr hr')
  have hmem : ∀ q r g, q ≠ .user n → r ∈ m.rangeList q →
      (g ∈ s.list (.range r) ↔ g ∈ m.list (.range r)) := by
    intro q r g hq hr
    rw [hrel.mem]
    simp [hkeep q r hq hr]
  have hpage : ∀ l g, ¬ PagemapLists m (.user n) l → g ∈ m.list l → s.page g = m.page g := by
    intro l g hl hg
    refine hrel.page g fun l' hl' hg' => hl ?_
    rw [h.pages.unique hg hg']
    exact hl'
  have hkp : ∀ g, KernelPage s g ↔ KernelPage m g := by
    intro g
    unfold KernelPage
    rw [hother .kernel (by simp)]
    constructor
    · rintro ⟨r, hr, hg⟩
      exact ⟨r, hr, (hmem .kernel r g (by simp) hr).mp hg⟩
    · rintro ⟨r, hr, hg⟩
      exact ⟨r, hr, (hmem .kernel r g (by simp) hr).mpr hg⟩
  have hknown : ∀ g, s.Known g ↔ m.Known g := by
    intro g
    unfold Machine.Known Machine.findPage
    rw [hrel.regions]
  have hforeign : ∀ q w, Foreign { s with live := update s.live (.user n) false } q w →
      Foreign m q w := by
    rintro q w ⟨hl, hp, hf⟩
    have hp' : isPresent (s.entry (.user q) w) = true := hp
    have hf' : ¬ s.Known (frameOf (s.entry (.user q) w)) ∨
        KernelPage s (frameOf (s.entry (.user q) w)) := hf
    rw [hent] at hp' hf'
    rw [hknown, hkp] at hf'
    exact ⟨(hlive' _ hl).2, hp', hf'⟩
  refine ⟨⟨⟨?_, ?_, ?_⟩, hrel.pages.congr rfl rfl rfl, ?_, ?_, ?_, ?_, ?_, ?_, ?_, ?_, ?_⟩, ?_, ?_⟩
  · intro q
    show (s.rangeList q).Nodup
    rw [hrl]
    split_ifs
    · exact List.nodup_nil
    · exact h.heap.nodup q
  · intro q r hr
    show r < s.nextRange
    have hr' : r ∈ s.rangeList q := hr
    rw [hrl] at hr'
    rw [hrel.nextRange]
    split_ifs at hr'
    · cases hr'
    · exact h.heap.lt q r hr'
  · intro q q' r hr hr'
    have h1 : r ∈ s.rangeList q := hr
    have h2 : r ∈ s.rangeList q' := hr'
    rw [hrl] at h1 h2
    split_ifs at h1 h2
    · cases h1
    · cases h1
    · cases h2
    · exact h.heap.owner q q' r h1 h2
  · show update s.live (.user n) false .kernel = true
    rw [hlive, if_neg (by simp)]
    exact h.kernelLive
  · intro q hq
    have hq' : update s.live (.user n) false q = false := hq
    rw [hlive] at hq'
    show s.rangeList q = [] ∧ s.list (.tables q) = []
    by_cases he : q = .user n
    · subst he
      refine ⟨by rw [hrl, if_pos rfl], List.eq_nil_iff_forall_not_mem.mpr fun g hg => ?_⟩
      rcases (hrel.mem _ g).mp hg with ⟨-, hl⟩ | ⟨he, -⟩
      · exact hl (.inl rfl)
      · cases he
    · rw [if_neg he] at hq'
      obtain ⟨h1, h2⟩ := h.dead q hq'
      refine ⟨by rw [hother q he, h1], List.eq_nil_iff_forall_not_mem.mpr fun g hg => ?_⟩
      rcases (hrel.mem _ g).mp hg with ⟨hg, -⟩ | ⟨he, -⟩
      · rw [h2] at hg
        cases hg
      · cases he
  · intro q r hr
    show UserRange (s.range r)
    have hr' : r ∈ s.rangeList (.user q) := hr
    rw [hrl] at hr'
    rw [hrel.range]
    split_ifs at hr'
    · cases hr'
    · exact h.ranges q r hr'
  · intro q r hr t ht hne v
    show (s.range r).Contains v → ¬ (s.range t).Contains v
    have hr' : r ∈ s.rangeList (.user q) := hr
    have ht' : t ∈ s.rangeList (.user q) := ht
    rw [hrl] at hr' ht'
    rw [hrel.range]
    split_ifs at hr' ht'
    · cases hr'
    · exact h.disj q r hr' t ht' hne v
  · intro r hr v
    show (s.range r).Contains v → _
    have hr' : r ∈ s.rangeList .kernel := hr
    rw [hother _ (by simp)] at hr'
    rw [hrel.range]
    exact h.kernelRanges r hr' v
  · intro r f hf
    rcases (hrel.mem _ f).mp hf with ⟨hf, hl⟩ | ⟨he, -⟩
    · rcases h.backed r f hf with hk | ⟨q, hr, hmap, hfit⟩
      · refine .inl ?_
        show r ∈ s.rangeList .kernel
        rw [hother _ (by simp)]
        exact hk
      · have hqn : PagemapId.user q ≠ .user n := by
          intro he
          cases he
          exact hl (.inr ⟨r, hr, rfl⟩)
        have hpg := hpage _ f hl hf
        refine .inr ⟨q, ?_, ⟨?_, ?_, ?_⟩, .inl ⟨?_, ?_⟩⟩
        · show r ∈ s.rangeList (.user q)
          rw [hother _ hqn]
          exact hr
        · show LowerPage (s.page f).mappedAddr
          rw [hpg]
          exact hmap.lower
        · show isPresent (s.entry (.user q) (s.page f).mappedAddr) = true
          rw [hpg, hent]
          exact hmap.present
        · show frameOf (s.entry (.user q) (s.page f).mappedAddr) = f
          rw [hpg, hent]
          exact hmap.frame
        · show (s.range r).Contains (s.page f).mappedAddr
          rw [hpg, hrel.range]
          exact (h.listed hr hf).2.1
        · show flagsOf (s.entry (.user q) (s.page f).mappedAddr) = (s.range r).pageFlags
          rw [hpg, hent, hrel.range]
          exact (h.listed hr hf).2.2
    · cases he
  · intro q v hq hv hp hnf
    obtain ⟨hqn, hq'⟩ := hlive' _ hq
    have hp' : isPresent (s.entry (.user q) v) = true := hp
    rw [hent] at hp'
    obtain ⟨r, hr, hg, haddr⟩ := h.owned q v hq' hv hp' (fun hf => hnf ⟨hq, hp, by
      show ¬ s.Known (frameOf (s.entry (.user q) v)) ∨ KernelPage s (frameOf (s.entry (.user q) v))
      rw [hent, hknown, hkp]
      exact hf.2.2⟩)
    refine ⟨r, ?_, ?_, ?_⟩
    · show r ∈ s.rangeList (.user q)
      rw [hother _ hqn]
      exact hr
    · show frameOf (s.entry (.user q) v) ∈ s.list (.range r)
      rw [hent, hmem _ r _ hqn hr]
      exact hg
    · show (s.page (frameOf (s.entry (.user q) v))).mappedAddr = v
      rw [hent, hpage _ _ (hkeep _ r hqn hr) hg]
      exact haddr
  · intro v hv hp hk
    have hp' : isPresent (s.entry .kernel v) = true := hp
    have hk' : s.Known (frameOf (s.entry .kernel v)) := hk
    show KernelPage s (frameOf (s.entry .kernel v))
    rw [hent] at hp' hk' ⊢
    rw [hkp]
    exact h.kernel v hv hp' ((hknown _).mp hk')
  · intro q hq f hf
    obtain ⟨hqn, hq'⟩ := hlive' _ hq
    have hf' : Radix.HasPage (s.pagemap q).pml4 f := hf
    rw [hrel.pml4] at hf'
    refine (hrel.mem _ f).mpr (.inl ⟨h.tables q hq' f hf', ?_⟩)
    rintro (he | ⟨r, -, he⟩)
    · cases he
      exact hqn rfl
    · cases he
  · rintro q w - ⟨hl, hp, hk⟩
    have hp' : isPresent (s.entry (.user q) w) = true := hp
    have hk' : KernelPage s (frameOf (s.entry (.user q) w)) := hk
    rw [hent] at hp' hk'
    exact ⟨(hlive' _ hl).2, hp', (hkp _).mp hk'⟩
  · intro q w _ hf
    exact hforeign q w hf

end Fishix.Mem
