import Fishix.Mem.Fork
import Fishix.Mem.Syscall

/-!
# The ranges of the page maps

The part of the state that `range_list`s and lookup caches make up, without page tables and
page lists: what every operation does to it, for all page tables.

* `RangesOk`: the lists share no range, the ranges of a user page map are disjoint, do not
  wrap around and keep off the kernel's, and a cached range is linked.
* `RangesOk.addRange`, `RangesOk.fault`, `RangesOk.fork`, ...: every operation keeps it.
* `RangesOk.addrToRange_eq`: `addr_to_range` finds the one range of the page map.
* `fork_copied`: the list of a forked page map.
-/

namespace Fishix.Mem

open Machine

/-- No address of `[base, end)` of the call is in a range of the kernel. -/
def RangeArgs.OffKernel (m : Machine) (a : RangeArgs) : Prop :=
  ∀ s ∈ m.rangeList .kernel, ∀ v, a.Covers v → ¬ (m.range s).Contains v

/-- The lists of ranges and the caches. -/
structure RangesOk (m : Machine) : Prop where
  heap : HeapOk m
  disj : ∀ n, DisjointRanges m (.user n)
  nonempty : ∀ n, ∀ r ∈ m.rangeList (.user n), (m.range r).base < (m.range r).end_
  apart : ∀ n, ∀ r ∈ m.rangeList (.user n), ∀ s ∈ m.rangeList .kernel, ∀ v,
    (m.range r).Contains v → ¬ (m.range s).Contains v
  cache : ∀ n, m.live (.user n) = true → CacheOk m (.user n)

/-- The same but for what is said of the kernel's ranges. -/
structure LinkedOk (m : Machine) : Prop where
  heap : HeapOk m
  disj : ∀ n, DisjointRanges m (.user n)
  nonempty : ∀ n, ∀ r ∈ m.rangeList (.user n), (m.range r).base < (m.range r).end_
  cache : ∀ n, m.live (.user n) = true → CacheOk m (.user n)

/-! ## The cache -/

theorem cacheOk_addrToRange {m m' : Machine} {p : PagemapId} {v : U64} {res : Option RangeId}
    (hc : CacheOk m p) (h : m.addrToRange p v = (res, m')) : CacheOk m' p := by
  cases res with
  | none =>
    rw [(addrToRange_none h).1]
    exact hc
  | some r =>
    obtain ⟨hr, -, rfl | rfl⟩ := addrToRange_some hc h
    · exact hc
    · intro c hcache
      rw [cachedRangeLookup_setCache, if_pos rfl] at hcache
      cases hcache
      rw [rangeList_setCache, rangeList_setCache]
      exact hr

/-- A page fault leaves a linked range in the cache. -/
theorem cacheOk_handlePageFaultFuel {p : PagemapId} {fuel : ℕ} :
    ∀ {v : U64} {m m' : Machine} {res : Option U64}, CacheOk m p →
      handlePageFaultFuel p fuel v m = .ok (res, m') → CacheOk m' p := by
  induction fuel with
  | zero =>
    intro v m m' res _ h
    cases h
  | succ fuel ih =>
    intro v m m' res hc h
    have hpages : ∀ {s s' : Machine}, PagesOnly s s' → CacheOk s p → CacheOk s' p :=
      fun ho hs => hs.congr (ho.cachedRangeLookup p) ho.rangeList
    obtain ⟨m1, h1, hcase⟩ := handlePageFaultFuel_cases h
    have hc1 := hpages (pagesOnly_createEntry h1) hc
    obtain ⟨-, -, rfl⟩ | ⟨-, h2, -⟩ | ⟨r, m2, -, h2, h3⟩ := hcase
    · exact hc1
    · exact cacheOk_addrToRange hc1 h2
    · have hc2 := cacheOk_addrToRange hc1 h2
      have hplace : ∀ {f : Pfn} {m3 : Machine} (c : Frame), m2.allocPage = .ok (f, m3) →
          CacheOk (placeFault m3 p v r f c) p := by
        intro f m3 c ha
        exact (hpages (pagesOnly_relinked _ _ _ _ _) (hpages (pagesOnly_allocPage ha) hc2)).congr
          rfl fun _ => rfl
      cases h3 with
      | anonymous _ ha => exact hplace _ ha
      | file _ _ ha => exact hplace _ ha
      | direct _ => exact hpages (pagesOnly_writeEntry _ _ _ _) hc2
      | mirror _ hw _ =>
        refine hpages (pagesOnly_writeEntry _ _ _ _) ?_
        obtain rfl | ⟨-, res', hw⟩ := hw
        · exact hc2
        · exact ih hc2 hw
      | mirrorFails _ _ hw => exact ih hc2 hw

namespace LinkedOk

variable {m m' : Machine} {n k : ℕ} {r : RangeId} {v : U64}

section

variable (h : LinkedOk m)

include h

theorem ordered (n : ℕ) : OrderedRanges m (.user n) :=
  fun r hr => BitVec.le_of_lt (h.nonempty n r hr)

/-- An operation that changes no range and keeps the cache of its page map in order. -/
theorem of_sameRanges (hs : SameRanges (.user n) m m') (hc : CacheOk m' (.user n)) :
    LinkedOk m' := by
  refine ⟨h.heap.congr hs.rangeList hs.nextRange, fun q => ?_, fun q => ?_, fun q hq => ?_⟩
  · exact (h.disj q).congr (hs.rangeList _) hs.range
  · rw [hs.rangeList, hs.range]
    exact h.nonempty q
  · by_cases hqn : q = n
    · rw [hqn]
      exact hc
    · rw [hs.live] at hq
      exact (h.cache q hq).congr (hs.cache_other _ (by simpa using hqn)) hs.rangeList

theorem pagesOnly (ho : PagesOnly m m') : LinkedOk m' := by
  refine ⟨h.heap.pagesOnly ho, fun q => (h.disj q).congr (ho.rangeList _) ho.range, fun q => ?_,
    fun q hq => ?_⟩
  · rw [ho.rangeList, ho.range]
    exact h.nonempty q
  · rw [ho.live] at hq
    exact (h.cache q hq).congr (ho.cachedRangeLookup _) ho.rangeList

theorem added {a : RangeArgs} (hle : a.base ≤ a.end_) (hover : a.resolveOverlap = true)
    {res : Option RangeId} (hrun : m.addRange (.user n) a = .ok (res, m')) :
    AddedRange (.user n) a m m' :=
  addRange_added h.heap (h.disj n) (h.ordered n) hle hover hrun

/-- A range of another page map is the same after the call. -/
theorem range_of_added {a : RangeArgs} (hadd : AddedRange (.user n) a m m') {q : PagemapId}
    (hq : q ≠ .user n) (hr : r ∈ m.rangeList q) : m'.range r = m.range r :=
  hadd.range_other r (fun hr' => hq (h.heap.owner _ _ r hr hr')) (h.heap.lt q r hr)

theorem addRange {a : RangeArgs} (hle : a.base ≤ a.end_) (hlt : a.type ≠ .none → a.base < a.end_)
    (hover : a.resolveOverlap = true) {res : Option RangeId}
    (hrun : m.addRange (.user n) a = .ok (res, m')) : LinkedOk m' := by
  have hadd := h.added hle hover hrun
  obtain ⟨hframe, hcache⟩ := addRange_frame h.heap hover hrun
  refine ⟨hadd.heap, fun q => ?_, fun q => ?_, fun q hq => ?_⟩
  · by_cases hqn : q = n
    · rw [hqn]
      exact hadd.disj
    · have hne : PagemapId.user q ≠ .user n := by simpa using hqn
      intro r hr s hs
      rw [hadd.others _ hne] at hr hs
      rw [h.range_of_added hadd hne hr, h.range_of_added hadd hne hs]
      exact h.disj q r hr s hs
  · by_cases hqn : q = n
    · rw [hqn]
      exact hadd.nonempty (h.nonempty n) hlt
    · have hne : PagemapId.user q ≠ .user n := by simpa using hqn
      intro r hr
      rw [hadd.others _ hne] at hr
      rw [h.range_of_added hadd hne hr]
      exact h.nonempty q r hr
  · by_cases hqn : q = n
    · rw [hqn]
      intro c hc
      rw [hcache] at hc
      cases hc
    · have hne : PagemapId.user q ≠ .user n := by simpa using hqn
      rw [hframe.live] at hq
      intro c hc
      rw [hframe.cache_other _ hne] at hc
      rw [hadd.others _ hne, hadd.others .kernel (by simp)]
      exact h.cache q hq c hc

end

end LinkedOk

namespace RangesOk

variable {m m' : Machine} {n k : ℕ} {r : RangeId} {v : U64}

theorem linked (h : RangesOk m) : LinkedOk m := ⟨h.heap, h.disj, h.nonempty, h.cache⟩

theorem of_linked (h : LinkedOk m) (hapart : ∀ n, ∀ r ∈ m.rangeList (.user n),
    ∀ s ∈ m.rangeList .kernel, ∀ v, (m.range r).Contains v → ¬ (m.range s).Contains v) :
    RangesOk m := ⟨h.heap, h.disj, h.nonempty, hapart, h.cache⟩

section

variable (h : RangesOk m)

include h

theorem ordered (n : ℕ) : OrderedRanges m (.user n) := h.linked.ordered n

theorem unique {s : RangeId} (hr : r ∈ m.rangeList (.user n)) (hs : s ∈ m.rangeList (.user n))
    (hrv : (m.range r).Contains v) (hsv : (m.range s).Contains v) : r = s := by
  by_contra hne
  exact h.disj n r hr s hs hne v hrv hsv

theorem addrToRange_eq (hlive : m.live (.user n) = true) (hr : r ∈ m.rangeList (.user n))
    (hv : (m.range r).Contains v) {res : Option RangeId}
    (hrun : m.addrToRange (.user n) v = (res, m')) : res = some r := by
  cases res with
  | none => exact absurd hv ((addrToRange_none hrun).2 r hr)
  | some s =>
    obtain ⟨hs | hs, hsv, -⟩ := addrToRange_some (h.cache n hlive) hrun
    · rw [h.unique hs hr hsv hv]
    · exact absurd hsv (h.apart n r hr s hs v hv)

theorem of_sameRanges (hs : SameRanges (.user n) m m') (hc : CacheOk m' (.user n)) :
    RangesOk m' := by
  refine of_linked (h.linked.of_sameRanges hs hc) fun q => ?_
  rw [hs.rangeList, hs.rangeList, hs.range]
  exact h.apart q

theorem pagesOnly (ho : PagesOnly m m') : RangesOk m' := by
  refine of_linked (h.linked.pagesOnly ho) fun q => ?_
  rw [ho.rangeList, ho.rangeList, ho.range]
  exact h.apart q

theorem addrToRange (hlive : m.live (.user n) = true) {res : Option RangeId}
    (hrun : m.addrToRange (.user n) v = (res, m')) : RangesOk m' :=
  h.of_sameRanges (sameRanges_addrToRange hrun) (cacheOk_addrToRange (h.cache n hlive) hrun)

theorem fault (hlive : m.live (.user n) = true) {res : Option U64}
    (hrun : m.handlePageFault (.user n) v = .ok (res, m')) : RangesOk m' :=
  h.of_sameRanges (sameRanges_handlePageFault hrun)
    (cacheOk_handlePageFaultFuel (h.cache n hlive) hrun)

end

/-! ## `add_range` -/

theorem added (h : RangesOk m) {a : RangeArgs} (hle : a.base ≤ a.end_)
    (hover : a.resolveOverlap = true) {res : Option RangeId}
    (hrun : m.addRange (.user n) a = .ok (res, m')) : AddedRange (.user n) a m m' :=
  h.linked.added hle hover hrun

theorem range_of_added (h : RangesOk m) {a : RangeArgs} (hadd : AddedRange (.user n) a m m')
    {q : PagemapId} (hq : q ≠ .user n) (hr : r ∈ m.rangeList q) : m'.range r = m.range r :=
  h.linked.range_of_added hadd hq hr

theorem addRange (h : RangesOk m) {a : RangeArgs} (hle : a.base ≤ a.end_)
    (hlt : a.type ≠ .none → a.base < a.end_) (hover : a.resolveOverlap = true)
    (hoff : a.OffKernel m) {res : Option RangeId}
    (hrun : m.addRange (.user n) a = .ok (res, m')) : RangesOk m' := by
  have hadd := h.added hle hover hrun
  refine of_linked (h.linked.addRange hle hlt hover hrun) fun q r hr s hs v hv => ?_
  rw [hadd.others .kernel (by simp)] at hs
  rw [h.range_of_added hadd (by simp) hs]
  by_cases hqn : q = n
  · rw [hqn] at hr
    by_cases hc : a.Covers v
    · exact hoff s hs v hc
    · obtain ⟨t, ht, htv, -⟩ := hadd.outside r hr v hv hc
      exact h.apart n t ht s hs v htv
  · have hne : PagemapId.user q ≠ .user n := by simpa using hqn
    rw [hadd.others _ hne] at hr
    rw [h.range_of_added hadd hne hr] at hv
    exact h.apart q r hr s hs v hv

end RangesOk

/-! ## `fork` and `new Pagemap()` -/

theorem pagesOnly_mapPage {m m' : Machine} {p : PagemapId} {phy v flags : U64}
    (h : m.mapPage p phy v flags = .ok m') : PagesOnly m m' := by
  unfold mapPage at h
  obtain ⟨m1, h1, h⟩ := bind_ok h
  cases h
  exact (pagesOnly_createEntry h1).trans (pagesOnly_writeEntry _ _ _ _)

theorem forkPage_same {q : PagemapId} {new : RangeId} {m m' : Machine} {g : Pfn}
    (h : forkPage q new m g = .ok m') : SameRanges q m m' ∧
      (m'.pagemap q).cachedRangeLookup = (m.pagemap q).cachedRangeLookup := by
  unfold forkPage at h
  obtain ⟨⟨f, m1⟩, ha, h⟩ := bind_ok h
  dsimp only at h
  obtain ⟨m2, hmap, h⟩ := bind_ok h
  cases h
  have ho := (((pagesOnly_allocPage ha).trans (pagesOnly_setPage _ _ _)).trans
    (pagesOnly_linkLast _ _ _)).trans (pagesOnly_mapPage hmap)
  exact ⟨(ho.sameRanges q).trans ⟨rfl, rfl, fun _ => rfl, rfl, rfl, rfl, rfl, rfl, fun _ _ => rfl⟩,
    ho.cachedRangeLookup q⟩

/-- From `m0`, the ranges `rs` have been copied into page map `q`. -/
structure CopiedRanges (m0 : Machine) (q : PagemapId) (rs : List RangeId) (m : Machine) :
    Prop where
  next : m0.nextRange ≤ m.nextRange
  range : ∀ r, r < m0.nextRange → m.range r = m0.range r
  others : ∀ o, o ≠ q → m.rangeList o = m0.rangeList o
  cache_other : ∀ o, o ≠ q → (m.pagemap o).cachedRangeLookup = (m0.pagemap o).cachedRangeLookup
  cache : (m.pagemap q).cachedRangeLookup = none
  live : m.live = m0.live
  nodup : (m.rangeList q).Nodup
  new : ∀ s ∈ m.rangeList q, m0.nextRange ≤ s ∧ s < m.nextRange
  copy : ∀ s ∈ m.rangeList q, ∃ r ∈ rs, m.range s = forkedRange (m0.range r)
  copied : ∀ r ∈ rs, ∃ s ∈ m.rangeList q, m.range s = forkedRange (m0.range r)
  distinct : ∀ s ∈ m.rangeList q, ∀ t ∈ m.rangeList q, s ≠ t → ∃ r ∈ rs, ∃ r' ∈ rs, r ≠ r' ∧
    m.range s = forkedRange (m0.range r) ∧ m.range t = forkedRange (m0.range r')

namespace CopiedRanges

variable {m0 m m' : Machine} {q : PagemapId} {rs : List RangeId} {r : RangeId}

theorem of_same (h : CopiedRanges m0 q rs m) (hs : SameRanges q m m')
    (hc : (m'.pagemap q).cachedRangeLookup = (m.pagemap q).cachedRangeLookup) :
    CopiedRanges m0 q rs m' := by
  refine ⟨by rw [hs.nextRange]; exact h.next, ?_, ?_, ?_, hc.trans h.cache, hs.live.trans h.live,
    ?_, ?_, ?_, ?_, ?_⟩
  · rw [hs.range]
    exact h.range
  · intro o ho
    rw [hs.rangeList]
    exact h.others o ho
  · intro o ho
    rw [hs.cache_other o ho]
    exact h.cache_other o ho
  · rw [hs.rangeList]
    exact h.nodup
  · rw [hs.rangeList, hs.nextRange]
    exact h.new
  · rw [hs.rangeList, hs.range]
    exact h.copy
  · rw [hs.rangeList, hs.range]
    exact h.copied
  · rw [hs.rangeList, hs.range]
    exact h.distinct

/-- One more range is copied. -/
theorem link (h : CopiedRanges m0 q rs m) (hr : r < m0.nextRange) (hnot : r ∉ rs) :
    CopiedRanges m0 q (rs ++ [r]) (linkedCopy m q (m.range r)) := by
  have hspec := linkedCopy_spec m q (m.range r)
  have hperm := hspec.perm
  rw [nextRange_clearCache, rangeList_clearCache] at hperm
  have hmem := mem_rangeList_linkedCopy m q (m.range r)
  have hlt : ∀ s ∈ m.rangeList q, s ≠ m.nextRange := fun s hs => (h.new s hs).2.ne
  have hnew : (linkedCopy m q (m.range r)).range m.nextRange = forkedRange (m0.range r) := by
    rw [range_linkedCopy, if_pos rfl, h.range r hr]
  have hold : ∀ s ∈ m.rangeList q, (linkedCopy m q (m.range r)).range s = m.range s := by
    intro s hs
    rw [range_linkedCopy, if_neg (hlt s hs)]
  refine ⟨?_, ?_, ?_, ?_, cache_linkedCopy m q _, ?_, ?_, ?_, ?_, ?_, ?_⟩
  · rw [nextRange_linkedCopy]
    exact h.next.trans (Nat.le_succ _)
  · intro s hs
    rw [range_linkedCopy, if_neg (lt_of_lt_of_le hs h.next).ne]
    exact h.range s hs
  · intro o ho
    unfold rangeList
    rw [pagemap_linkedCopy m _ ho]
    exact h.others o ho
  · intro o ho
    rw [pagemap_linkedCopy m _ ho]
    exact h.cache_other o ho
  · rw [(rangesOnly_linkedCopy m q _).live]
    exact h.live
  · rw [hperm.nodup_iff, List.nodup_cons]
    exact ⟨fun hs => hlt _ hs rfl, h.nodup⟩
  · intro s hs
    rw [nextRange_linkedCopy]
    rcases (hmem s).mp hs with rfl | hs
    · exact ⟨h.next, Nat.lt_succ_self _⟩
    · obtain ⟨h1, h2⟩ := h.new s hs
      exact ⟨h1, Nat.lt_succ_of_lt h2⟩
  · intro s hs
    rcases (hmem s).mp hs with rfl | hs
    · exact ⟨r, by simp, hnew⟩
    · obtain ⟨r', hr', he⟩ := h.copy s hs
      exact ⟨r', by simp [hr'], by rw [hold s hs, he]⟩
  · intro r' hr'
    rcases List.mem_append.mp hr' with hr' | hr'
    · obtain ⟨s, hs, he⟩ := h.copied r' hr'
      exact ⟨s, (hmem s).mpr (.inr hs), by rw [hold s hs, he]⟩
    · rw [List.mem_singleton] at hr'
      subst hr'
      exact ⟨m.nextRange, (hmem _).mpr (.inl rfl), hnew⟩
  · intro s hs t ht hst
    rcases (hmem s).mp hs with rfl | hs
    · have ht := ((hmem t).mp ht).resolve_left hst.symm
      obtain ⟨r', hr', he⟩ := h.copy t ht
      exact ⟨r, by simp, r', by simp [hr'], fun heq => hnot (heq ▸ hr'), hnew,
        by rw [hold t ht, he]⟩
    · rcases (hmem t).mp ht with rfl | ht
      · obtain ⟨r', hr', he⟩ := h.copy s hs
        exact ⟨r', by simp [hr'], r, by simp, fun heq => hnot (heq ▸ hr'),
          by rw [hold s hs, he], hnew⟩
      · obtain ⟨r1, hr1, r2, hr2, hne, h1, h2⟩ := h.distinct s hs t ht hst
        exact ⟨r1, by simp [hr1], r2, by simp [hr2], hne, by rw [hold s hs, h1],
          by rw [hold t ht, h2]⟩

end CopiedRanges

section

variable {m m' : Machine}

/-- Induction rule for the copying of `fork`: `R` holds of the ranges copied so far and the state,
    is kept by the copy of a range and does not depend on pages. -/
theorem fork_rule {n k : ℕ} (hne : k ≠ n) (h : m.fork (.user n) (.user k) = .ok m') :
    ∃ m0, TablesForked m (.user n) (.user k) m0 ∧ ∀ R : List RangeId → Machine → Prop, R [] m0 →
      (∀ pre r post s, m.rangeList (.user n) = pre ++ r :: post → R pre s →
        R (pre ++ [r]) (linkedCopy s (.user k) (s.range r))) →
      (∀ pre s s', R pre s → SameRanges (.user k) s s' →
        (s'.pagemap (.user k)).cachedRangeLookup = (s.pagemap (.user k)).cachedRangeLookup →
        R pre s') → R (m.rangeList (.user n)) m' := by
  unfold fork at h
  obtain ⟨m0, h0, h⟩ := bind_ok h
  have ht := tablesForked_forkStart h0
  refine ⟨m0, ht, fun R hstart hlink hsame => ?_⟩
  have hl : m0.rangeList (.user n) = m.rangeList (.user n) := by
    unfold rangeList
    rw [ht.pagemap _ (by simpa using hne.symm)]
  rw [hl] at h
  refine (yields_foldlM (R := R) (E := fun _ => True) ?_ hstart).ok h
  intro pre r post s hl' hs
  have hcopy := hlink pre r post s hl' hs
  refine yields_of_ok fun s' hrun => ?_
  rw [forkRange_eq] at hrun
  split_ifs at hrun with hp
  · exact foldlM_ok_invariant (R (pre ++ [r])) hcopy
      (fun g t t' _ ht' hstep => hsame _ _ _ ht' (forkPage_same hstep).1 (forkPage_same hstep).2) hrun
  · cases hrun
    exact hcopy

/-- The ranges after a completed `fork`. -/
theorem fork_copied {n k : ℕ} (hm : HeapOk m) (hne : k ≠ n)
    (h : m.fork (.user n) (.user k) = .ok m') :
    ∃ m0, TablesForked m (.user n) (.user k) m0 ∧
      CopiedRanges m0 (.user k) (m.rangeList (.user n)) m' := by
  obtain ⟨m0, ht, hrule⟩ := fork_rule hne h
  refine ⟨m0, ht, hrule (CopiedRanges m0 (.user k)) ?_ ?_ fun _ _ _ hs hsame hc => hs.of_same hsame hc⟩
  · refine ⟨le_rfl, fun _ _ => rfl, fun _ _ => rfl, fun _ _ => rfl, ht.cache, rfl, ?_, ?_, ?_, ?_,
      ?_⟩
    · rw [ht.rangeList]
      exact List.nodup_nil
    · simp [ht.rangeList]
    · simp [ht.rangeList]
    · simp
    · simp [ht.rangeList]
  · intro pre r post s hl hs
    have hr : r ∈ m.rangeList (.user n) := by rw [hl]; simp
    have hlt : r < m0.nextRange := by
      rw [ht.nextRange]
      exact hm.lt _ r hr
    refine hs.link hlt fun hp => ?_
    have hnd := hm.nodup (.user n)
    rw [hl] at hnd
    exact (List.nodup_append.mp hnd).2.2 r hp r (by simp) rfl

theorem newPagemap_pagemap {p : PagemapId} (h : m.newPagemap p = .ok m') :
    (∃ f, m'.pagemap p = emptyPagemap f) ∧ (∀ q, q ≠ p → m'.pagemap q = m.pagemap q) ∧
      m'.live = Function.update m.live p true ∧ m'.range = m.range ∧
      m'.nextRange = m.nextRange := by
  unfold newPagemap at h
  dsimp only at h
  obtain ⟨⟨f, m1⟩, h1, h⟩ := bind_ok h
  cases h
  have hsame := (allocPageForPageTable_spec h1).same
  refine ⟨⟨f, Function.update_self ..⟩, fun q hq => ?_, ?_, ?_, ?_⟩
  · show Function.update m1.pagemap p _ q = _
    rw [Function.update_of_ne hq, hsame]
    rfl
  · show Function.update m1.live p true = _
    rw [hsame]
    rfl
  · show m1.range = _
    rw [hsame]
    rfl
  · show m1.nextRange = _
    rw [hsame]
    rfl

theorem rangeList_newPagemap {p : PagemapId} (h : m.newPagemap p = .ok m') (q : PagemapId) :
    m'.rangeList q = if q = p then [] else m.rangeList q := by
  obtain ⟨⟨f, hself⟩, hother, -⟩ := newPagemap_pagemap h
  unfold rangeList
  split_ifs with hq
  · rw [hq, hself]
    rfl
  · rw [hother q hq]

/-- A new page map has no range. -/
theorem HeapOk.create {p : PagemapId} (h : HeapOk m) (hrun : m.newPagemap p = .ok m') :
    HeapOk m' := by
  have hl := rangeList_newPagemap hrun
  have hsub : ∀ o, ∀ s ∈ m'.rangeList o, s ∈ m.rangeList o := by
    intro o s hs
    rw [hl] at hs
    split_ifs at hs
    · cases hs
    · exact hs
  refine ⟨fun o => ?_, fun o s hs => ?_, fun o o' s hs hs' => ?_⟩
  · rw [hl]
    split_ifs
    · exact List.nodup_nil
    · exact h.nodup o
  · rw [(newPagemap_pagemap hrun).2.2.2.2]
    exact h.lt o s (hsub o s hs)
  · exact h.owner o o' s (hsub o s hs) (hsub o' s hs')

theorem LinkedOk.create {n : ℕ} (h : LinkedOk m) (hrun : m.newPagemap (.user n) = .ok m') :
    LinkedOk m' := by
  obtain ⟨⟨f, hself⟩, hother, hlive, hrange, -⟩ := newPagemap_pagemap hrun
  have hl := rangeList_newPagemap hrun
  have hsub : ∀ o, ∀ s ∈ m'.rangeList o, s ∈ m.rangeList o := by
    intro o s hs
    rw [hl] at hs
    split_ifs at hs
    · cases hs
    · exact hs
  refine ⟨h.heap.create hrun, fun q => ?_, fun q => ?_, fun q hq => ?_⟩
  · intro s hs t ht
    rw [hrange]
    exact h.disj q s (hsub _ s hs) t (hsub _ t ht)
  · intro s hs
    rw [hrange]
    exact h.nonempty q s (hsub _ s hs)
  · intro c hc
    by_cases hqn : PagemapId.user q = .user n
    · rw [hqn, hself] at hc
      cases hc
    · rw [hlive, Function.update_of_ne hqn] at hq
      rw [hother _ hqn] at hc
      rw [hl, if_neg hqn, hl, if_neg (by simp)]
      exact h.cache q hq c hc

end

/-- What a completed `fork` leaves as it is, and the list of the new page map. -/
structure ForkedLists (m : Machine) (n k : ℕ) (m' : Machine) : Prop where
  other : ∀ o, o ≠ .user k → m'.rangeList o = m.rangeList o
  range : ∀ o, ∀ r ∈ m.rangeList o, m'.range r = m.range r
  next : m.nextRange ≤ m'.nextRange
  nodup : (m'.rangeList (.user k)).Nodup
  new : ∀ s ∈ m'.rangeList (.user k), m.nextRange ≤ s ∧ s < m'.nextRange
  copy : ∀ s ∈ m'.rangeList (.user k), ∃ r ∈ m.rangeList (.user n),
    m'.range s = forkedRange (m.range r)
  distinct : ∀ s ∈ m'.rangeList (.user k), ∀ t ∈ m'.rangeList (.user k), s ≠ t →
    ∃ r ∈ m.rangeList (.user n), ∃ r' ∈ m.rangeList (.user n), r ≠ r' ∧
      m'.range s = forkedRange (m.range r) ∧ m'.range t = forkedRange (m.range r')
  live : m'.live = Function.update m.live (.user k) true
  cache : (m'.pagemap (.user k)).cachedRangeLookup = none
  cache_other : ∀ o, o ≠ .user k →
    (m'.pagemap o).cachedRangeLookup = (m.pagemap o).cachedRangeLookup

theorem forkedLists {m m' : Machine} {n k : ℕ} (hm : HeapOk m) (hkn : k ≠ n)
    (hrun : m.fork (.user n) (.user k) = .ok m') : ForkedLists m n k m' := by
  obtain ⟨m0, h0, hc⟩ := fork_copied hm hkn hrun
  refine ⟨fun o ho => ?_, fun o r hr => ?_, ?_, hc.nodup, ?_, ?_, ?_, ?_, hc.cache, fun o ho => ?_⟩
  · rw [hc.others o ho]
    unfold rangeList
    rw [h0.pagemap o ho]
  · have hlt := hm.lt o r hr
    rw [← h0.nextRange] at hlt
    rw [hc.range r hlt, h0.range]
  · rw [← h0.nextRange]
    exact hc.next
  · rw [← h0.nextRange]
    exact hc.new
  · rw [← h0.range]
    exact hc.copy
  · rw [← h0.range]
    exact hc.distinct
  · rw [hc.live, h0.live]
  · rw [hc.cache_other o ho, h0.pagemap o ho]

theorem ForkedLists.heap {m m' : Machine} {n k : ℕ} (hf : ForkedLists m n k m') (hm : HeapOk m) :
    HeapOk m' := by
  have hold : ∀ o, o ≠ .user k → ∀ s ∈ m'.rangeList o, s < m.nextRange := by
    intro o ho s hs
    rw [hf.other o ho] at hs
    exact hm.lt o s hs
  refine ⟨fun o => ?_, fun o s hs => ?_, fun o o' s hs hs' => ?_⟩
  · by_cases ho : o = .user k
    · rw [ho]
      exact hf.nodup
    · rw [hf.other o ho]
      exact hm.nodup o
  · by_cases ho : o = .user k
    · rw [ho] at hs
      exact (hf.new s hs).2
    · exact lt_of_lt_of_le (hold o ho s hs) hf.next
  · by_cases ho : o = .user k
    · by_cases ho' : o' = .user k
      · rw [ho, ho']
      · rw [ho] at hs
        exact absurd (hf.new s hs).1 (not_le.mpr (hold o' ho' s hs'))
    · by_cases ho' : o' = .user k
      · rw [ho'] at hs'
        exact absurd (hf.new s hs').1 (not_le.mpr (hold o ho s hs))
      · rw [hf.other o ho] at hs
        rw [hf.other o' ho'] at hs'
        exact hm.owner o o' s hs hs'

theorem LinkedOk.fork {m m' : Machine} {n k : ℕ} (h : LinkedOk m) (hkn : k ≠ n)
    (hrun : m.fork (.user n) (.user k) = .ok m') : LinkedOk m' := by
  have hf := forkedLists h.heap hkn hrun
  have hcontains : ∀ e v, (forkedRange e).Contains v ↔ e.Contains v := fun _ _ => Iff.rfl
  refine ⟨hf.heap h.heap, fun q => ?_, fun q => ?_, fun q hq => ?_⟩
  · by_cases hqk : q = k
    · rw [hqk]
      intro s hs t ht hst v hv hv'
      obtain ⟨r, hr, r', hr', hne, he, he'⟩ := hf.distinct s hs t ht hst
      rw [he, hcontains] at hv
      rw [he', hcontains] at hv'
      exact h.disj n r hr r' hr' hne v hv hv'
    · have ho : PagemapId.user q ≠ .user k := by simpa using hqk
      intro s hs t ht
      rw [hf.other _ ho] at hs ht
      rw [hf.range _ s hs, hf.range _ t ht]
      exact h.disj q s hs t ht
  · by_cases hqk : q = k
    · rw [hqk]
      intro s hs
      obtain ⟨r, hr, he⟩ := hf.copy s hs
      rw [he]
      exact h.nonempty n r hr
    · have ho : PagemapId.user q ≠ .user k := by simpa using hqk
      intro s hs
      rw [hf.other _ ho] at hs
      rw [hf.range _ s hs]
      exact h.nonempty q s hs
  · intro c hcache
    by_cases hqk : q = k
    · rw [hqk, hf.cache] at hcache
      cases hcache
    · have ho : PagemapId.user q ≠ .user k := by simpa using hqk
      rw [hf.live, Function.update_of_ne ho] at hq
      rw [hf.cache_other _ ho] at hcache
      rw [hf.other _ ho, hf.other .kernel (by simp)]
      exact h.cache q hq c hcache

namespace RangesOk

variable {m m' : Machine} {n k : ℕ}

theorem fork (h : RangesOk m) (hlive : m.live (.user n) = true) (hdead : m.live (.user k) = false)
    (hrun : m.fork (.user n) (.user k) = .ok m') : RangesOk m' := by
  have hkn : k ≠ n := by
    rintro rfl
    rw [hlive] at hdead
    cases hdead
  have hf := forkedLists h.heap hkn hrun
  refine of_linked (h.linked.fork hkn hrun) fun q s hs t ht v hv => ?_
  rw [hf.other .kernel (by simp)] at ht
  rw [hf.range _ t ht]
  by_cases hqk : q = k
  · rw [hqk] at hs
    obtain ⟨r, hr, he⟩ := hf.copy s hs
    rw [he] at hv
    exact h.apart n r hr t ht v hv
  · have ho : PagemapId.user q ≠ .user k := by simpa using hqk
    rw [hf.other _ ho] at hs
    rw [hf.range _ s hs] at hv
    exact h.apart q s hs t ht v hv

theorem create (h : RangesOk m) (hrun : m.newPagemap (.user n) = .ok m') : RangesOk m' := by
  have hl := rangeList_newPagemap hrun
  have hrange := (newPagemap_pagemap hrun).2.2.2.1
  refine of_linked (h.linked.create hrun) fun q s hs t ht => ?_
  rw [hl] at hs ht
  rw [hrange]
  split_ifs at hs
  · cases hs
  · exact h.apart q s hs t (by simpa using ht)

/-- A call that keeps pages and matches a range of the page map exactly changes its flags and
    nothing else. -/
theorem addRange_exact (h : RangesOk m) {a : RangeArgs} {r : RangeId}
    (hover : a.resolveOverlap = true) (hr : r ∈ m.rangeList (.user n))
    (hexact : a.Exact (m.range r)) (hne : a.base < a.end_) {res : Option RangeId}
    (hrun : m.addRange (.user n) a = .ok (res, m')) :
    (∀ q, m'.rangeList q = m.rangeList q) ∧ m'.nextRange = m.nextRange ∧
      ∀ s, m'.range s = if s = r then { m.range r with pageFlags := a.pageFlags } else m.range s := by
  have hcov : (m.range r).Contains a.base := by
    unfold MappedRange.Contains
    rw [← hexact.2.1, ← hexact.2.2.1]
    exact ⟨BitVec.le_refl _, hne⟩
  -- a range that the call hits shares an address with `r`
  have honly : ∀ s ∈ m.rangeList (.user n), a.Hits (m.range s) → s = r := by
    intro s hs hit
    by_contra hsr
    have hb := hexact.2.1
    have he := hexact.2.2.1
    by_cases hlow : (m.range s).base ≤ a.base
    · refine h.disj n s hs r hr hsr a.base ⟨hlow, ?_⟩ hcov
      unfold RangeArgs.Hits at hit
      bv_omega
    · refine h.disj n s hs r hr hsr (m.range s).base ⟨BitVec.le_refl _, h.nonempty n s hs⟩ ⟨?_, ?_⟩
      · bv_omega
      · unfold RangeArgs.Hits at hit
        bv_omega
  have hhit : a.Hits (m.range r) := by
    have hb := hexact.2.1
    have he := hexact.2.2.1
    unfold RangeArgs.Hits
    bv_omega
  let P : List RangeId → Bool → Machine → Prop := fun rest _ s =>
    r ∈ rest ∧ (∀ t ∈ rest, t ∈ m.rangeList (.user n)) ∧ s = m.clearCache (.user n)
  have hmiss : ∀ t rest again s, P (t :: rest) again s → ¬ a.Hits (s.range t) → P rest again s := by
    rintro t rest again s ⟨hmem, hrest, rfl⟩ miss
    refine ⟨?_, fun u hu => hrest u (List.mem_cons_of_mem _ hu), rfl⟩
    rcases List.mem_cons.mp hmem with rfl | hmem
    · exact absurd hhit miss
    · exact hmem
  have hstep : ∀ t rest again s s', P (t :: rest) again s → ResolveOne s (.user n) a t .changed s' →
      P rest true s' := by
    rintro t rest again s s' ⟨hmem, hrest, rfl⟩ hone
    exfalso
    cases hone with
    | covered hit low high exact run del =>
      rw [honly t (hrest t (by simp)) hit] at exact
      exact exact hexact
    | front hit low high =>
      have htr := honly t (hrest t (by simp)) hit
      have he := hexact.2.2.1
      have high' : a.end_ < (m.range t).end_ := high
      rw [htr] at high'
      bv_omega
    | back hit low high =>
      have htr := honly t (hrest t (by simp)) hit
      have hb := hexact.2.1
      have low' : (m.range t).base < a.base := low
      rw [htr] at low'
      bv_omega
    | split hit low high run =>
      have htr := honly t (hrest t (by simp)) hit
      have hb := hexact.2.1
      have low' : (m.range t).base < a.base := low
      rw [htr] at low'
      bv_omega
  rcases addRange_rule (P := P) hmiss hstep h.heap hover ⟨hr, fun _ ht => ht, rfl⟩ hrun with
    ⟨t, rest, again, m1, -, ⟨-, hrest, rfl⟩, hone⟩ | ⟨had, m1, ⟨hmem, -, -⟩, -⟩
  · have hl := rangeList_clearCache m (.user n)
    cases hone with
    | found hit exact flags =>
      have htr := honly t (hrest t (by simp)) hit
      subst htr
      refine ⟨hl, rfl, fun s => ?_⟩
      split_ifs with hs
      · rw [hs, ← flags]
        rfl
      · rfl
    | reflag hit exact flags run =>
      have htr := honly t (hrest t (by simp)) hit
      subst htr
      have ho := pagesOnly_invalidatePages run
      refine ⟨fun q => (ho.rangeList q).trans (hl q), ho.nextRange, fun s => ?_⟩
      rw [ho.range, range_setRange]
      rfl
  · cases hmem

end RangesOk

end Fishix.Mem
