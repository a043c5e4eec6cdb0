import Fishix.Mem.Backing
import Fishix.Mem.Mirror

/-!
# The cache of `addr_to_range`

A page map remembers the range that it looked up last (mem/vmm.cpp:226-243). `add_range` clears the
cache of the page map that it is called for and no other. The range that a user page map remembers
may be one of the kernel's: `mincore` looks up any address that it is given. When a thread is
destroyed, its stack is unmapped from the kernel page map and the range is deleted.

* `transparent_iff`: what the cache must hold for the lookup to be a search.
* `addRange_kept`: which ranges a call of `add_range` leaves linked, and over which addresses.
* `transparent_run`: runs of calls of processes and of the kernel.
* `stale_stack`: the stack of a thread that has been destroyed.
-/

namespace Fishix.Mem

/-! ## The search -/

/-- The ranges that `addr_to_range` goes through, in this order. -/
def Machine.searchOrder (m : Machine) (p : PagemapId) : List RangeId :=
  m.rangeList p ++ if p = .kernel then [] else m.rangeList .kernel

/-- No range that comes before `r` in the search holds an address of `r`. -/
def Machine.Unshadowed (m : Machine) (p : PagemapId) (r : RangeId) : Prop :=
  ∀ pre post, m.searchOrder p = pre ++ r :: post → ∀ s ∈ pre, ∀ v,
    (m.range r).Contains v → ¬(m.range s).Contains v

/-- The lookups of `p` are searches, and its cache points to a range that is linked. -/
def Machine.Transparent (m : Machine) (p : PagemapId) : Prop :=
  (∀ v, (m.addrToRange p v).1 = m.searchRange p v) ∧
    ∀ c, (m.pagemap p).cachedRangeLookup = some c → c ∈ m.rangeList p ∨ c ∈ m.rangeList .kernel

/-- A linked range that the search finds for all of its addresses. -/
structure Machine.Finds (m : Machine) (p : PagemapId) (r : RangeId) : Prop where
  linked : r ∈ m.rangeList p ∨ r ∈ m.rangeList .kernel
  search : ∀ v, (m.range r).Contains v → m.searchRange p v = some r

/-- The cache of `p` is empty or holds such a range. -/
def Machine.CacheFinds (m : Machine) (p : PagemapId) : Prop :=
  ∀ c, (m.pagemap p).cachedRangeLookup = some c → m.Finds p c

section Search

variable {m m' : Machine} {p : PagemapId} {r : RangeId} {v : U64}

theorem searchRange_eq (m : Machine) (p : PagemapId) (v : U64) :
    m.searchRange p v =
      (m.searchOrder p).find? fun r => decide ((m.range r).Contains v) := by
  unfold Machine.searchRange Machine.searchOrder
  rw [List.find?_append]
  cases (m.rangeList p).find? fun r => decide ((m.range r).Contains v) with
  | some s => rfl
  | none =>
    split_ifs <;> rfl

/-- What a search finds is found for all of its addresses, unless another range comes first. -/
theorem finds_of_search (h : m.searchRange p v = some r) (hr : m.Unshadowed p r) :
    m.Finds p r := by
  refine ⟨(searchRange_some h).1, fun w hw => ?_⟩
  rw [searchRange_eq, List.find?_eq_some_iff_append] at h ⊢
  obtain ⟨-, pre, post, hl, -⟩ := h
  refine ⟨by simpa using hw, pre, post, hl, fun s hs => ?_⟩
  simpa using hr pre post hl s hs w hw

/-- The range of a list without overlaps is found if no range of the lists before holds the
    address. -/
theorem search_own (hr : r ∈ m.rangeList p) (hv : (m.range r).Contains v)
    (hd : ∀ s ∈ m.rangeList p, (m.range s).Contains v → s = r) : m.searchRange p v = some r := by
  unfold Machine.searchRange
  cases hfind : (m.rangeList p).find? fun s => decide ((m.range s).Contains v) with
  | none => exact absurd hv (by simpa using List.find?_eq_none.mp hfind r hr)
  | some s =>
    rw [hd s (List.mem_of_find?_eq_some hfind) (by simpa using List.find?_some hfind)]

theorem search_kernel (hp : p ≠ .kernel) (hr : r ∈ m.rangeList .kernel)
    (hv : (m.range r).Contains v) (hown : ∀ s ∈ m.rangeList p, ¬(m.range s).Contains v)
    (hd : DisjointRanges m .kernel) : m.searchRange p v = some r := by
  have hkernel : m.searchRange .kernel v = some r := search_own hr hv fun s hs hsv => by
    by_contra hne
    exact hd s hs r hr hne v hsv hv
  have hnone : ((m.rangeList p).find? fun s => decide ((m.range s).Contains v)) = none :=
    List.find?_eq_none.mpr fun s hs => by simpa using hown s hs
  unfold Machine.searchRange at hkernel ⊢
  rw [hnone]
  dsimp only
  rw [if_neg hp]
  cases hfind : (m.rangeList .kernel).find? fun s => decide ((m.range s).Contains v) with
  | none => rw [hfind] at hkernel; simp at hkernel
  | some s => rwa [hfind] at hkernel

/-- A lookup is a search if and only if the cached range is one that the search finds. -/
theorem transparent_iff (m : Machine) (p : PagemapId) : m.Transparent p ↔ m.CacheFinds p := by
  constructor
  · rintro ⟨hlook, hlinked⟩ c hc
    refine ⟨hlinked c hc, fun v hv => ?_⟩
    rw [← hlook v]
    unfold Machine.addrToRange
    dsimp only
    rw [hc]
    dsimp only
    rw [if_pos hv]
  · intro h
    refine ⟨fun v => ?_, fun c hc => (h c hc).linked⟩
    unfold Machine.addrToRange
    dsimp only
    cases hc : (m.pagemap p).cachedRangeLookup with
    | none => cases m.searchRange p v <;> rfl
    | some c =>
      dsimp only
      split_ifs with hv
      · exact ((h c hc).search v hv).symm
      · cases m.searchRange p v <;> rfl

theorem searchRange_congr (hl : m'.searchOrder p = m.searchOrder p)
    (hr : ∀ r ∈ m.searchOrder p, m'.range r = m.range r) :
    m'.searchRange p v = m.searchRange p v := by
  rw [searchRange_eq, searchRange_eq, hl]
  exact List.find?_congr fun r hmem => by rw [hr r hmem]

end Search

/-! ## `add_range` -/

/-- The call deletes the range: it lies in the window, and is not kept because it matches. -/
def RangeArgs.Deletes (a : RangeArgs) (e : MappedRange) : Prop :=
  a.Hits e ∧ a.base ≤ e.base ∧ e.end_ ≤ a.end_ ∧ ¬a.Exact e

/-- The call may merge its window with the range. -/
def RangeArgs.MayMerge (a : RangeArgs) (e : MappedRange) : Prop :=
  a.merge = true ∧ a.type = .anonymous ∧ e.type = .anonymous ∧ e.pageFlags = a.pageFlags

/-- What a call of `add_range` keeps, for any window. -/
structure KeptRanges (p : PagemapId) (a : RangeArgs) (m m' : Machine) : Prop where
  heap : HeapOk m'
  others : ∀ q, q ≠ p → m'.rangeList q = m.rangeList q
  range_other : ∀ q, q ≠ p → ∀ r ∈ m.rangeList q, m'.range r = m.range r
  kept : ∀ r ∈ m.rangeList p, ¬a.Deletes (m.range r) → r ∈ m'.rangeList p ∧
    ∀ v, (m'.range r).Contains v →
      (m.range r).Contains v ∨ a.MayMerge (m.range r) ∧ a.Covers v

section Kept

variable {p : PagemapId} {a : RangeArgs} {m m1 m' : Machine}

theorem KeptRanges.pagesOnly (h : KeptRanges p a m m1) (ho : PagesOnly m1 m') :
    KeptRanges p a m m' := by
  refine ⟨h.heap.pagesOnly ho, fun q hq => ?_, ?_, ?_⟩
  · rw [ho.rangeList]
    exact h.others q hq
  · rw [ho.range]
    exact h.range_other
  · rw [ho.rangeList, ho.range]
    exact h.kept

/-- The loop deletes only ranges in the window, and others do not grow in it. -/
theorem PassInv.kept {rest : List RangeId} (h : PassInv p a m rest m1) (hm : HeapOk m)
    (hlinked : ∀ r ∈ m.rangeList p, ¬a.Deletes (m.range r) → r ∈ m1.rangeList p) :
    KeptRanges p a m m1 := by
  refine ⟨h.heap, h.others, fun q hq r hr => ?_, fun r hr hdel =>
    ⟨hlinked r hr hdel, fun v hv => ?_⟩⟩
  · exact h.range_other r (fun hr' => hq (hm.owner q p r hr hr')) (hm.lt q r hr)
  · obtain ⟨s, -, hpiece, rfl | hnew⟩ := h.sound r (hlinked r hr hdel)
    · exact .inl (hpiece.sub v hv)
    · exact absurd (hm.lt p r hr) (not_lt.mpr hnew)

/-- A range is written back, larger only if the window is merged with it. -/
theorem KeptRanges.setRange (h : KeptRanges p a m m1) {t : RangeId} {x : MappedRange}
    (ht : t ∈ m1.rangeList p)
    (hx : ∀ r ∈ m.rangeList p, r = t → ∀ v, x.Contains v →
      (m1.range t).Contains v ∨ a.MayMerge (m.range r) ∧ a.Covers v) :
    KeptRanges p a m (m1.setRange t x) := by
  refine ⟨h.heap.congr (fun _ => rfl) rfl, h.others, fun q hq r hr => ?_, fun r hr hdel => ?_⟩
  · have hrt : r ≠ t := by
      rintro rfl
      have hlist := h.others q hq
      exact hq (h.heap.owner q p r (hlist ▸ hr) ht)
    rw [range_setRange, if_neg hrt]
    exact h.range_other q hq r hr
  · obtain ⟨hmem, hsub⟩ := h.kept r hr hdel
    refine ⟨hmem, fun v hv => ?_⟩
    rw [range_setRange] at hv
    split_ifs at hv with hrt
    · rcases hx r hr hrt v hv with hv | hv
      · exact hsub v (hrt ▸ hv)
      · exact .inr hv
    · exact hsub v hv

theorem contains_growEnd {e : MappedRange} (hadj : a.base = e.end_) {v : U64}
    (hv : (growEnd a e).Contains v) : e.Contains v ∨ a.Covers v := by
  obtain ⟨hlow, hhigh⟩ := hv
  rw [growEnd_end hadj] at hhigh
  by_cases h : v < e.end_
  · exact .inl ⟨hlow, h⟩
  · exact .inr ⟨hadj ▸ BitVec.not_lt.mp h, hhigh⟩

theorem contains_growFront {e : MappedRange} (hadj : a.end_ = e.base) {v : U64}
    (hv : (growFront a e).Contains v) : e.Contains v ∨ a.Covers v := by
  obtain ⟨hlow, hhigh⟩ := hv
  rw [growFront_base hadj] at hlow
  rw [growFront_end] at hhigh
  by_cases h : v < a.end_
  · exact .inr ⟨hlow, h⟩
  · exact .inl ⟨hadj ▸ BitVec.not_lt.mp h, hhigh⟩

/-- A range that a call of `add_range` does not delete stays linked, and holds no further address
    but those of a window that it is merged with. -/
theorem addRange_kept (hm : HeapOk m) (hover : a.resolveOverlap = true) {res : Option RangeId}
    (hrun : m.addRange p a = .ok (res, m')) : KeptRanges p a m m' := by
  let P : List RangeId → Bool → Machine → Prop := fun rest _ s =>
    PassInv p a m rest s ∧ ∀ r ∈ m.rangeList p, ¬a.Deletes (m.range r) → r ∈ s.rangeList p
  have hmiss : ∀ t rest again s, P (t :: rest) again s → ¬a.Hits (s.range t) → P rest again s :=
    fun t rest _ s hP miss => ⟨hP.1.step (.noOverlap miss) (by decide), hP.2⟩
  have hstep : ∀ t rest again s s', P (t :: rest) again s → ResolveOne s p a t .changed s' →
      P rest true s' := by
    rintro t rest again s s' ⟨hinv, hlinked⟩ hone
    refine ⟨hinv.step hone (by decide), fun r hr hdel => ?_⟩
    have hmem := hlinked r hr hdel
    cases hone with
    | covered hit low high exact run del =>
      have ho := pagesOnly_invalidatePages run
      have hrt : r ≠ t := by
        rintro rfl
        rw [(hinv.rest_mem r (by simp)).2.2] at hit low high exact
        exact hdel ⟨hit, low, high, exact⟩
      rw [(deleteRange_spec del).rangeList, if_pos rfl, ho.rangeList]
      exact (List.mem_erase_of_ne hrt).mpr hmem
    | front => exact hmem
    | back => exact hmem
    | split hit low high run =>
      rw [(pagesOnly_invalidatePages run).rangeList, (splitState_spec s p a t).perm.mem_iff]
      refine List.mem_cons_of_mem _ ?_
      rw [rangeList_clearCache]
      exact hmem
  have hstart : P (m.rangeList p) false (m.clearCache p) :=
    ⟨(PassInv.start a hm).congr (rangeList_clearCache m p) rfl rfl, fun r hr _ => by
      rw [rangeList_clearCache]
      exact hr⟩
  rcases addRange_rule hmiss hstep hm hover hstart hrun with
    ⟨t, rest, again, m1, -, ⟨hinv, hlinked⟩, hone⟩ | ⟨had, m1, ⟨hinv, hlinked⟩, hfin⟩
  · -- the window matches a range, which gets new flags
    have hkept := hinv.kept hm hlinked
    cases hone with
    | found => exact hkept
    | reflag _ _ _ run =>
      have hset := hkept.setRange (x := { m1.range t with pageFlags := a.pageFlags })
        (hinv.rest_mem t (by simp)).2.1 fun _ _ _ v hv => .inl hv
      exact hset.pagesOnly (pagesOnly_invalidatePages run)
  · have hkept := hinv.kept hm hlinked
    have hmerge : ∀ {t : RangeId}, t ∈ m1.rangeList p → a.merge = true → a.type = .anonymous →
        a.type = (m1.range t).type → a.pageFlags = (m1.range t).pageFlags →
        ∀ r ∈ m.rangeList p, r = t → a.MayMerge (m.range r) := by
      rintro t ht hmerge hanon htype hflags r hr rfl
      obtain ⟨s, -, hpiece, rfl | hnew⟩ := hinv.sound r ht
      · exact ⟨hmerge, hanon, hpiece.type ▸ htype ▸ hanon, hpiece.pageFlags ▸ hflags.symm⟩
      · exact absurd (hm.lt p r hr) (not_lt.mpr hnew)
    cases hfin with
    | growEnd merge anon mem type flags adj run =>
      refine (hkept.setRange mem fun r hr hrt v hv => ?_).pagesOnly (pagesOnly_invalidateIf run)
      exact (contains_growEnd adj hv).imp_right fun h =>
        ⟨hmerge mem merge anon type flags r hr hrt, h⟩
    | growFront merge anon mem type flags adj run =>
      refine (hkept.setRange mem fun r hr hrt v hv => ?_).pagesOnly (pagesOnly_invalidateIf run)
      exact (contains_growFront adj hv).imp_right fun h =>
        ⟨hmerge mem merge anon type flags r hr hrt, h⟩
    | unmap _ run => exact hkept.pagesOnly (pagesOnly_invalidatePages run)
    | insert type run =>
      refine KeptRanges.pagesOnly ?_ (pagesOnly_invalidateIf run)
      have hspec := newRange_spec m1 p a type
      have hold : ∀ q, ∀ r ∈ m1.rangeList q, (m1.newRange p a type).2.range r = m1.range r := by
        intro q r hr
        rw [hspec.range, if_neg (hkept.heap.lt q r hr).ne]
      refine ⟨hkept.heap.newRange hspec, fun q hq => ?_, fun q hq r hr => ?_, fun r hr hdel => ?_⟩
      · rw [hspec.rangeList_other q hq]
        exact hkept.others q hq
      · rw [hold q r (hkept.others q hq ▸ hr)]
        exact hkept.range_other q hq r hr
      · obtain ⟨hmem, hsub⟩ := hkept.kept r hr hdel
        rw [hold p r hmem]
        exact ⟨hspec.perm.mem_iff.mpr (List.mem_cons_of_mem _ hmem), hsub⟩

end Kept

/-! ## Calls -/

/-- A call of a process or of the kernel. -/
inductive CacheOp where
  | call (c : Call)
  /-- A call of `add_range` for the kernel page map: the stack of a new thread, a memfd, a device,
      `~Thread` (sched/sched.cpp:99, 120, userland/memfd.cpp:18, dev/pci.cpp:12). -/
  | kernelMap (k : Mapping) (base length pageFlags : U64)
  | kernelFault (virt : U64)
  /-- A lookup alone, as `mincore` makes one for each page (mem/vmm.cpp:655). -/
  | lookup (p : PagemapId) (virt : U64)

def cacheStep (m : Machine) : CacheOp → Except Panic Machine
  | .call c => callMachine m c
  | .kernelMap k base length pageFlags => m.mapAs .kernel k base length pageFlags
  | .kernelFault virt => do
    let (_, m) ← m.handlePageFault .kernel virt
    .ok m
  | .lookup p virt => .ok (m.addrToRange p virt).2

/-- A page fault at `virt` may look `r` up, there or at a mirrored address. -/
inductive LooksUp (m : Machine) (p : PagemapId) : U64 → RangeId → Prop
  | here {virt : U64} {r : RangeId} (find : m.searchRange p virt = some r) : LooksUp m p virt r
  | mirror {virt : U64} {r s : RangeId} (find : m.searchRange p virt = some s)
      (type : (m.range s).type = .directVirtual)
      (there : LooksUp m p ((m.range s).mirrored virt) r) : LooksUp m p virt r

/-- The call of `add_range` for the kernel page map leaves the range that `n` has cached as it is:
    it does not delete it, and does not merge it with addresses that `n` has mapped. -/
def RangeArgs.Spares (m : Machine) (a : RangeArgs) (n : ℕ) (c : RangeId) : Prop :=
  ¬a.Deletes (m.range c) ∧
    (a.MayMerge (m.range c) → ∀ s ∈ m.rangeList (.user n), ¬a.Hits (m.range s))

/-- The condition on one call, in the state before it. -/
def CacheOp.Keeps (m : Machine) : CacheOp → Prop
  | .call (.fault n virt) =>
    m.Present (.user n) virt ∨ ∀ r, LooksUp m (.user n) virt r → m.Unshadowed (.user n) r
  | .call (.fork n k) => k ≠ n
  | .call _ => True
  | .kernelMap k base length pageFlags =>
    let a := k.args base length pageFlags
    a.base ≤ a.end_ ∧ ∀ n, m.live (.user n) = true → ∀ c ∈ m.rangeList .kernel,
      (m.pagemap (.user n)).cachedRangeLookup = some c → a.Spares m n c
  | .kernelFault _ => True
  | .lookup p virt => ∀ r, m.searchRange p virt = some r → m.Unshadowed p r

/-! ## The invariant -/

/-- The lists, apart from the caches. -/
structure ListsOk (m : Machine) : Prop where
  heap : HeapOk m
  disj : DisjointRanges m .kernel
  ordered : OrderedRanges m .kernel

/-- All caches but that of `p` hold ranges that the search finds. -/
structure OthersFind (p : PagemapId) (m : Machine) : Prop extends ListsOk m where
  others : ∀ q, q ≠ p → m.live q = true → m.CacheFinds q

/-- All caches hold ranges that the search finds. -/
structure CachesOk (m : Machine) : Prop extends ListsOk m where
  caches : ∀ q, m.live q = true → m.CacheFinds q

section Invariant

variable {p : PagemapId} {m m' : Machine}

theorem searchOrder_congr {q : PagemapId} (hq : m'.rangeList q = m.rangeList q)
    (hk : m'.rangeList .kernel = m.rangeList .kernel) : m'.searchOrder q = m.searchOrder q := by
  unfold Machine.searchOrder
  rw [hq, hk]

theorem Machine.Finds.congr {c : RangeId} (h : m.Finds p c) (hp : m'.rangeList p = m.rangeList p)
    (hk : m'.rangeList .kernel = m.rangeList .kernel)
    (hr : ∀ r, r ∈ m.rangeList p ∨ r ∈ m.rangeList .kernel → m'.range r = m.range r) :
    m'.Finds p c := by
  refine ⟨by rw [hp, hk]; exact h.linked, fun v hv => ?_⟩
  rw [hr c h.linked] at hv
  rw [searchRange_congr (searchOrder_congr hp hk), h.search v hv]
  intro r hmem
  refine hr r ?_
  unfold Machine.searchOrder at hmem
  rcases List.mem_append.mp hmem with hmem | hmem
  · exact .inl hmem
  · split_ifs at hmem
    · cases hmem
    · exact .inr hmem

theorem Machine.CacheFinds.congr (h : m.CacheFinds p)
    (hc : (m'.pagemap p).cachedRangeLookup = (m.pagemap p).cachedRangeLookup)
    (hp : m'.rangeList p = m.rangeList p) (hk : m'.rangeList .kernel = m.rangeList .kernel)
    (hr : ∀ r, r ∈ m.rangeList p ∨ r ∈ m.rangeList .kernel → m'.range r = m.range r) :
    m'.CacheFinds p := by
  intro c hcache
  rw [hc] at hcache
  exact (h c hcache).congr hp hk hr

theorem CachesOk.othersFind (h : CachesOk m) (p : PagemapId) : OthersFind p m :=
  ⟨h.toListsOk, fun q _ => h.caches q⟩

theorem OthersFind.cachesOk (h : OthersFind p m) (hp : m.CacheFinds p) : CachesOk m := by
  refine ⟨h.toListsOk, fun q hlive => ?_⟩
  by_cases hq : q = p
  · rw [hq]
    exact hp
  · exact h.others q hq hlive

theorem ListsOk.congr (h : ListsOk m) (hl : ∀ q, m'.rangeList q = m.rangeList q)
    (hr : m'.range = m.range) (hn : m'.nextRange = m.nextRange) : ListsOk m' := by
  refine ⟨h.heap.congr hl hn, h.disj.congr (hl _) hr, ?_⟩
  unfold OrderedRanges
  rw [hl, hr]
  exact h.ordered

/-- What happens to the cache of `p` alone. -/
theorem OthersFind.sameRanges (h : OthersFind p m) (hs : SameRanges p m m') : OthersFind p m' := by
  refine ⟨h.toListsOk.congr hs.rangeList hs.range hs.nextRange, fun q hq hlive => ?_⟩
  rw [hs.live] at hlive
  exact (h.others q hq hlive).congr (hs.cache_other q hq) (hs.rangeList q) (hs.rangeList .kernel)
    fun r _ => by rw [hs.range]

theorem CachesOk.pagesOnly (h : CachesOk m) (ho : PagesOnly m m') : CachesOk m' := by
  refine ⟨h.toListsOk.congr ho.rangeList ho.range ho.nextRange, fun q hlive => ?_⟩
  rw [ho.live] at hlive
  exact (h.caches q hlive).congr (ho.cachedRangeLookup q) (ho.rangeList q) (ho.rangeList .kernel)
    fun r _ => by rw [ho.range]

end Invariant

/-! ## Lookups and faults -/

section Lookups

variable {p : PagemapId} {m m' : Machine} {v : U64}

theorem cacheFinds_addrToRange (h : m.CacheFinds p)
    (hr : ∀ r, m.searchRange p v = some r → m.Unshadowed p r) {res : Option RangeId}
    (hrun : m.addrToRange p v = (res, m')) : m'.CacheFinds p ∧ res = m.searchRange p v := by
  have hres : res = m.searchRange p v := by
    rw [← ((transparent_iff m p).mpr h).1 v, hrun]
  refine ⟨?_, hres⟩
  cases res with
  | none =>
    rw [(addrToRange_none hrun).1]
    exact h
  | some r =>
    have hs := sameRanges_addrToRange hrun
    intro c hc
    rw [cached_addrToRange hrun] at hc
    obtain rfl := Option.some.inj hc
    exact (finds_of_search hres.symm (hr r hres.symm)).congr (hs.rangeList _) (hs.rangeList _)
      fun s _ => by rw [hs.range]

theorem LooksUp.congr {r : RangeId} (hl : ∀ q, m'.rangeList q = m.rangeList q)
    (hr : m'.range = m.range) (h : LooksUp m' p v r) : LooksUp m p v r := by
  have hsearch : ∀ v, m'.searchRange p v = m.searchRange p v := fun v =>
    searchRange_congr (searchOrder_congr (hl p) (hl .kernel)) fun s _ => by rw [hr]
  induction h with
  | here find => exact .here ((hsearch _).symm.trans find)
  | mirror find type _ ih =>
    rw [hr] at type ih
    exact .mirror ((hsearch _).symm.trans find) type ih

theorem Machine.Unshadowed.congr {r : RangeId} (hl : ∀ q, m'.rangeList q = m.rangeList q)
    (hr : m'.range = m.range) (h : m.Unshadowed p r) : m'.Unshadowed p r := by
  unfold Machine.Unshadowed
  rw [searchOrder_congr (hl p) (hl .kernel), hr]
  exact h

theorem cacheFinds_fault : ∀ {fuel : ℕ} {v : U64} {m m' : Machine} {res : Option U64},
    m.CacheFinds p → (∀ r, LooksUp m p v r → m.Unshadowed p r) →
      Machine.handlePageFaultFuel p fuel v m = .ok (res, m') → m'.CacheFinds p := by
  intro fuel
  induction fuel with
  | zero =>
    intro v m m' res _ _ h
    cases h
  | succ fuel ih =>
    intro v m m' res hc hlook h
    have hpages : ∀ {s s' : Machine}, PagesOnly s s' → s.CacheFinds p → s'.CacheFinds p :=
      fun ho hs => hs.congr (ho.cachedRangeLookup p) (ho.rangeList p) (ho.rangeList .kernel)
        fun _ _ => by rw [ho.range]
    obtain ⟨m1, h1, hcase⟩ := handlePageFaultFuel_cases h
    have ho := pagesOnly_createEntry h1
    have hc1 := hpages ho hc
    have hlook1 : ∀ r, LooksUp m1 p v r → m1.Unshadowed p r := fun r hr =>
      (hlook r (hr.congr ho.rangeList ho.range)).congr ho.rangeList ho.range
    rcases hcase with ⟨-, -, rfl⟩ | ⟨-, h2, -⟩ | ⟨r, m2, -, h2, hin⟩
    · exact hc1
    · exact (cacheFinds_addrToRange hc1 (fun r hr => hlook1 r (.here hr)) h2).1
    · obtain ⟨hc2, hfind⟩ := cacheFinds_addrToRange hc1 (fun r hr => hlook1 r (.here hr)) h2
      have hs := sameRanges_addrToRange h2
      -- the lookups at the mirrored address
      have hlook2 : (m2.range r).type = .directVirtual → ∀ s,
          LooksUp m2 p ((m2.range r).mirrored v) s → m2.Unshadowed p s := by
        intro htype s hlooks
        rw [hs.range] at htype hlooks
        exact (hlook1 s (.mirror hfind.symm htype (hlooks.congr hs.rangeList hs.range))).congr
          hs.rangeList hs.range
      have hplace : ∀ {f : Pfn} {m3 : Machine} (c : Frame), m2.allocPage = .ok (f, m3) →
          (placeFault m3 p v r f c).CacheFinds p := by
        intro f m3 c ha
        exact (hpages (pagesOnly_relinked _ _ _ _ _) (hpages (pagesOnly_allocPage ha) hc2)).congr
          rfl rfl rfl fun _ _ => rfl
      cases hin with
      | anonymous _ ha => exact hplace _ ha
      | file _ _ ha => exact hplace _ ha
      | direct _ => exact hpages (pagesOnly_writeEntry _ _ _ _) hc2
      | mirror type walk _ =>
        refine hpages (pagesOnly_writeEntry _ _ _ _) ?_
        rcases walk with rfl | ⟨-, res', hrec⟩
        · exact hc2
        · exact ih hc2 (hlook2 type) hrec
      | mirrorFails type _ walk => exact ih hc2 (hlook2 type) walk

/-- A fault at a page that is present looks nothing up. -/
theorem pagesOnly_fault_present (hp : m.Present p v) {res : Option U64}
    (h : m.handlePageFault p v = .ok (res, m')) : PagesOnly m m' := by
  obtain ⟨m1, h1, hcase⟩ := handlePageFault_cases h
  obtain ⟨-, -, -, -, -, -, hentry, -⟩ := createEntry_spec h1
  have hp1 : m1.Present p v := by
    unfold Machine.Present at hp ⊢
    rwa [hentry]
  rcases hcase with ⟨-, -, rfl⟩ | ⟨habs, -⟩ | ⟨r, m2, habs, -⟩
  · exact pagesOnly_createEntry h1
  · exact absurd hp1 habs
  · exact absurd hp1 habs

theorem ListsOk.unshadowed (h : ListsOk m) (r : RangeId) : m.Unshadowed .kernel r := by
  intro pre post hl s hs v hv hsv
  unfold Machine.searchOrder at hl
  rw [if_pos rfl, List.append_nil] at hl
  have hnodup := h.heap.nodup .kernel
  have hsr : s ≠ r := by
    rintro rfl
    rw [hl, List.nodup_append] at hnodup
    exact hnodup.2.2 s hs s (by simp) rfl
  exact h.disj s (by rw [hl]; simp [hs]) r (by rw [hl]; simp) hsr v hsv hv

end Lookups

/-! ## Steps -/

section Steps

variable {m m' : Machine} {n : ℕ} {a : RangeArgs}

theorem OthersFind.addRange (h : OthersFind (.user n) m) (hover : a.resolveOverlap = true)
    {res : Option RangeId} (hrun : m.addRange (.user n) a = .ok (res, m')) : CachesOk m' := by
  have hkept := addRange_kept h.heap hover hrun
  obtain ⟨hframe, hcache⟩ := addRange_frame h.heap hover hrun
  have hkernel : PagemapId.kernel ≠ .user n := by simp
  have hothers : OthersFind (.user n) m' := by
    refine ⟨⟨hkept.heap, ?_, ?_⟩, fun q hq hlive => ?_⟩
    · intro r hr s hs
      rw [hkept.others _ hkernel] at hr hs
      rw [hkept.range_other _ hkernel r hr, hkept.range_other _ hkernel s hs]
      exact h.disj r hr s hs
    · intro r hr
      rw [hkept.others _ hkernel] at hr
      rw [hkept.range_other _ hkernel r hr]
      exact h.ordered r hr
    · rw [hframe.live] at hlive
      refine (h.others q hq hlive).congr (hframe.cache_other q hq) (hkept.others q hq)
        (hkept.others _ hkernel) fun r hr => ?_
      rcases hr with hr | hr
      · exact hkept.range_other q hq r hr
      · exact hkept.range_other _ hkernel r hr
  refine hothers.cachesOk fun c hc => ?_
  rw [hcache] at hc
  cases hc

theorem CachesOk.protectLoop {end_ flags : U64} :
    ∀ {fuel : ℕ} {current : U64} {m m' : Machine} {res : SysResult}, CachesOk m →
      Machine.protectLoop (.user n) end_ flags fuel current m = .ok (res, m') → CachesOk m' := by
  intro fuel
  induction fuel with
  | zero =>
    intro current m m' res _ h
    cases h
  | succ fuel ih =>
    intro current m m' res hm h
    rw [Machine.protectLoop] at h
    split_ifs at h with hlt
    · cases hlook : m.addrToRange (.user n) current with
      | mk found m1 =>
        rw [hlook] at h
        cases found with
        | none =>
          obtain rfl := (pure_pair h).2
          rw [(addrToRange_none hlook).1]
          exact hm
        | some r =>
          obtain ⟨⟨res1, m2⟩, hadd, h⟩ := bind_ok h
          have hm1 := (hm.othersFind (.user n)).sameRanges (sameRanges_addrToRange hlook)
          exact ih (hm1.addRange rfl hadd) h
    · obtain rfl := (pure_pair h).2
      exact hm

section

variable (h : CachesOk m)

include h

theorem CachesOk.create (hrun : m.newPagemap (.user n) = .ok m') : CachesOk m' := by
  obtain ⟨⟨f, hself⟩, hother, hlive', hrange, -⟩ := newPagemap_pagemap hrun
  have hl : ∀ q, q ≠ .user n → m'.rangeList q = m.rangeList q := fun q hq => by
    rw [rangeList_newPagemap hrun, if_neg hq]
  have hkernel : PagemapId.kernel ≠ .user n := by simp
  refine ⟨⟨h.heap.create hrun, h.disj.congr (hl _ hkernel) hrange, ?_⟩, fun q hlive => ?_⟩
  · unfold OrderedRanges
    rw [hl _ hkernel, hrange]
    exact h.ordered
  · by_cases hq : q = .user n
    · intro c hc
      rw [hq, hself] at hc
      cases hc
    · rw [hlive', Function.update_of_ne hq] at hlive
      exact (h.caches q hlive).congr (by rw [hother q hq]) (hl q hq) (hl _ hkernel)
        fun _ _ => by rw [hrange]

theorem CachesOk.fork {k : ℕ} (hkn : k ≠ n) (hrun : m.fork (.user n) (.user k) = .ok m') :
    CachesOk m' := by
  have hf := forkedLists h.heap hkn hrun
  have hkernel : PagemapId.kernel ≠ .user k := by simp
  refine ⟨⟨hf.heap h.heap, ?_, ?_⟩, fun q hlive => ?_⟩
  · intro r hr s hs
    rw [hf.other _ hkernel] at hr hs
    rw [hf.range _ r hr, hf.range _ s hs]
    exact h.disj r hr s hs
  · intro r hr
    rw [hf.other _ hkernel] at hr
    rw [hf.range _ r hr]
    exact h.ordered r hr
  · by_cases hq : q = .user k
    · intro c hc
      rw [hq, hf.cache] at hc
      cases hc
    · rw [hf.live, Function.update_of_ne hq] at hlive
      refine (h.caches q hlive).congr (hf.cache_other q hq) (hf.other q hq) (hf.other _ hkernel)
        fun r hr => ?_
      rcases hr with hr | hr
      · exact hf.range _ r hr
      · exact hf.range _ r hr

theorem CachesOk.fault {p : PagemapId} {v : U64}
    (hlook : m.Present p v ∨ ∀ r, LooksUp m p v r → m.Unshadowed p r) {res : Option U64}
    (hrun : m.handlePageFault p v = .ok (res, m')) : CachesOk m' := by
  rcases hlook with hp | hlook
  · exact h.pagesOnly (pagesOnly_fault_present hp hrun)
  · have hs := sameRanges_handlePageFault hrun
    refine ⟨h.toListsOk.congr hs.rangeList hs.range hs.nextRange, fun q hlive => ?_⟩
    rw [hs.live] at hlive
    by_cases hq : q = p
    · subst hq
      exact cacheFinds_fault (h.caches q hlive) hlook hrun
    · exact ((h.othersFind p).sameRanges hs).others q hq (by rw [hs.live]; exact hlive)

theorem CachesOk.lookup {p : PagemapId} {v : U64}
    (hlook : ∀ r, m.searchRange p v = some r → m.Unshadowed p r) {res : Option RangeId}
    (hrun : m.addrToRange p v = (res, m')) : CachesOk m' := by
  have hs := sameRanges_addrToRange hrun
  have hothers := (h.othersFind p).sameRanges hs
  refine ⟨hothers.toListsOk, fun q hlive => ?_⟩
  by_cases hq : q = p
  · subst hq
    rw [hs.live] at hlive
    exact (cacheFinds_addrToRange (h.caches q hlive) hlook hrun).1
  · exact hothers.others q hq hlive

/-- A call of `add_range` for the kernel page map, if it spares the ranges that user page maps have
    cached. -/
theorem CachesOk.kernelAdd (hle : a.base ≤ a.end_) (hover : a.resolveOverlap = true) (hspares : ∀ n,
    m.live (.user n) = true → ∀ c ∈ m.rangeList .kernel, (m.pagemap (.user n)).cachedRangeLookup =
    some c → a.Spares m n c) {res : Option RangeId} (hrun : m.addRange .kernel a = .ok (res, m')) :
    CachesOk m' := by
  have hkept := addRange_kept h.heap hover hrun
  have hadded := addRange_added h.heap h.disj h.ordered hle hover hrun
  obtain ⟨hframe, hcache⟩ := addRange_frame h.heap hover hrun
  refine ⟨⟨hadded.heap, hadded.disj, hadded.ordered⟩, fun q hlive c hc => ?_⟩
  rw [hframe.live] at hlive
  cases q with
  | kernel =>
    rw [hcache] at hc
    cases hc
  | user n =>
    have hne : PagemapId.user n ≠ .kernel := by simp
    rw [hframe.cache_other _ hne] at hc
    obtain ⟨hlinked, hsearch⟩ := h.caches _ hlive c hc
    have hown : ∀ s ∈ m.rangeList (.user n), m'.range s = m.range s := hkept.range_other _ hne
    rcases hlinked with hmem | hmem
    · -- the search ends in the list of the page map
      refine ⟨.inl ((hkept.others _ hne).symm ▸ hmem), fun v hv => ?_⟩
      rw [hown c hmem] at hv
      have hfirst := hsearch v hv
      unfold Machine.searchRange at hfirst ⊢
      have hfind : (m'.rangeList (.user n)).find? (fun r => decide ((m'.range r).Contains v)) =
          (m.rangeList (.user n)).find? fun r => decide ((m.range r).Contains v) := by
        rw [hkept.others _ hne]
        exact List.find?_congr fun r hr => by rw [hown r hr]
      rw [hfind]
      cases hs : (m.rangeList (.user n)).find? fun r => decide ((m.range r).Contains v) with
      | some s =>
        rw [hs] at hfirst
        exact hfirst
      | none =>
        exact absurd hv (by simpa using List.find?_eq_none.mp hs c hmem)
    · -- the range is one of the kernel
      obtain ⟨hdel, hmerge⟩ := hspares n hlive c hmem hc
      obtain ⟨hmem', hsub⟩ := hkept.kept c hmem hdel
      refine ⟨.inr hmem', fun v hv => search_kernel hne hmem' hv (fun s hs hsv => ?_) hadded.disj⟩
      rw [hkept.others _ hne] at hs
      rw [hown s hs] at hsv
      rcases hsub v hv with hv | ⟨hmay, hcov⟩
      · have hfirst := hsearch v hv
        unfold Machine.searchRange at hfirst
        cases hfind : (m.rangeList (.user n)).find? fun r => decide ((m.range r).Contains v) with
        | none => exact absurd hsv (by simpa using List.find?_eq_none.mp hfind s hs)
        | some t =>
          rw [hfind] at hfirst
          obtain rfl := Option.some.inj hfirst
          have := h.heap.owner _ _ t (List.mem_of_find?_eq_some hfind) hmem
          cases this
      · refine hmerge hmay s hs ?_
        unfold RangeArgs.Hits
        unfold RangeArgs.Covers at hcov
        unfold MappedRange.Contains at hsv
        bv_omega

/-- One call that meets the condition. -/
theorem CachesOk.step {c : CacheOp} (hkeeps : c.Keeps m) (hrun : cacheStep m c = .ok m') :
    CachesOk m' := by
  cases c with
  | kernelMap k base length pageFlags =>
    obtain ⟨res, hadd⟩ := mapAs_addRange
      (show m.mapAs .kernel k base length pageFlags = .ok m' from hrun)
    exact h.kernelAdd hkeeps.1 (by cases k <;> rfl) hkeeps.2 hadd
  | kernelFault virt =>
    obtain ⟨⟨res, m1⟩, h1, rfl⟩ := bind_pure_ok hrun
    exact h.fault (.inr fun r _ => h.unshadowed r) h1
  | lookup p virt =>
    rw [← Except.ok.inj hrun]
    exact h.lookup hkeeps rfl
  | call c =>
    cases c with
    | map n k base length pageFlags =>
      obtain ⟨res, hadd⟩ := mapAs_addRange
        (show m.mapAs (.user n) k base length pageFlags = .ok m' from hrun)
      exact (h.othersFind _).addRange (by cases k <;> rfl) hadd
    | protect n addr length prot =>
      obtain ⟨⟨res, m1⟩, h1, rfl⟩ := bind_pure_ok hrun
      unfold Machine.syscallMprotect at h1
      split_ifs at h1 with hmis
      · rw [← (pure_pair h1).2]
        exact h
      · exact h.protectLoop h1
    | fault n virt =>
      obtain ⟨⟨res, m1⟩, h1, rfl⟩ := bind_pure_ok hrun
      exact h.fault hkeeps h1
    | dontNeed n virt =>
      exact h.pagesOnly (pagesOnly_invalidatePage
        (show m.invalidatePage (.user n) virt none = .ok m' from hrun))
    | create n => exact h.create hrun
    | fork n k => exact h.fork hkeeps hrun

end

/-- **Main theorem.** Along runs of calls that meet the condition, every lookup of every page map
    gives what a search of its list and the kernel's gives, and no cache points to a range that has
    been deleted. -/
theorem transparent_run (h : CachesOk m) (hrun : Run cacheStep (fun m c => c.Keeps m) m m')
    (p : PagemapId) (hlive : m'.live p = true) : m'.Transparent p := by
  have hok := hrun.invariant (P := CachesOk) (fun _ _ _ hs hkeeps hstep => hs.step hkeeps hstep) h
  exact (transparent_iff m' p).mpr (hok.caches p hlive)

end Steps

theorem cachesOk_booted : CachesOk booted where
  heap := heapOk_booted
  disj := fun _ hr => absurd hr List.not_mem_nil
  ordered := fun _ hr => absurd hr List.not_mem_nil
  caches := by
    intro q _ c hc
    cases hc

/-- A process, and the stack of a new thread. -/
def mapsStack : Except Panic Machine := do
  let m ← cacheStep booted (.call (.create 0))
  cacheStep m (.kernelMap (.anonymous true) 0xffff900000000000#64 0x40000#64
    (pagePresent ||| pageWritable ||| pageNoExecute))

/-- The process asks `mincore` for the lowest page of the stack. -/
def looksAtStack : Except Panic Machine := do
  let m ← mapsStack
  cacheStep m (.lookup (.user 0) 0xffff900000000000#64)

theorem transparent_run_looksAtStack :
    ∃ m, looksAtStack = .ok m ∧ (m.pagemap (.user 0)).cachedRangeLookup = some 0 ∧
      m.Transparent (.user 0) := by
  obtain ⟨m, hm⟩ : ∃ m, looksAtStack = .ok m := ⟨_, rfl⟩
  obtain ⟨m2, h, h3⟩ := bind_ok hm
  obtain ⟨m1, h1, h2⟩ := bind_ok h
  have hkernel : m1.rangeList .kernel = [] := map_ok_eq h1 (fun m => m.rangeList .kernel) rfl
  have horder : m2.searchOrder (.user 0) = [0] := map_ok_eq h (fun m => m.searchOrder (.user 0)) rfl
  have hrun : Run cacheStep (fun m c => c.Keeps m) booted m := by
    refine .step (.step (.step .start ?_ h1) ?_ h2) ?_ h3
    · exact trivial
    · refine ⟨by decide, fun n _ c hc => ?_⟩
      rw [hkernel] at hc
      cases hc
    · intro r _ pre post hl s hs
      rw [horder] at hl
      cases pre with
      | nil => cases hs
      | cons t pre => simp at hl
  refine ⟨m, hm, ?_, transparent_run cachesOk_booted hrun (.user 0) ?_⟩
  · exact map_ok_eq hm (fun m => (m.pagemap (.user 0)).cachedRangeLookup) rfl
  · exact map_ok_eq hm (fun m => m.live (.user 0)) rfl

/-- The thread is destroyed: the process still has the range of its stack in the cache. -/
theorem stale_stack :
    ∃ m m', looksAtStack = .ok m ∧
      cacheStep m (.kernelMap .unmap 0xffff900000000000#64 0x40000#64 0#64) = .ok m' ∧
      (m'.pagemap (.user 0)).cachedRangeLookup = some 0 ∧
      0 ∉ m'.rangeList (.user 0) ++ m'.rangeList .kernel ∧
      (m'.addrToRange (.user 0) 0xffff900000000000#64).1 = some 0 ∧
      m'.searchRange (.user 0) 0xffff900000000000#64 = none ∧ ¬m'.Transparent (.user 0) := by
  obtain ⟨m, hm⟩ : ∃ m, looksAtStack = .ok m := ⟨_, rfl⟩
  obtain ⟨m', hm'⟩ : ∃ m', (looksAtStack >>= fun m =>
      cacheStep m (.kernelMap .unmap 0xffff900000000000#64 0x40000#64 0#64)) = .ok m' := ⟨_, rfl⟩
  have hlook : (m'.addrToRange (.user 0) 0xffff900000000000#64).1 = some 0 :=
    map_ok_eq hm' (fun m => (m.addrToRange (.user 0) 0xffff900000000000#64).1) rfl
  have hsearch : m'.searchRange (.user 0) 0xffff900000000000#64 = none :=
    map_ok_eq hm' (fun m => m.searchRange (.user 0) 0xffff900000000000#64) rfl
  have hlists : m'.rangeList (.user 0) ++ m'.rangeList .kernel = [] :=
    map_ok_eq hm' (fun m => m.rangeList (.user 0) ++ m.rangeList .kernel) rfl
  have hcache : (m'.pagemap (.user 0)).cachedRangeLookup = some 0 :=
    map_ok_eq hm' (fun m => (m.pagemap (.user 0)).cachedRangeLookup) rfl
  rw [hm, ok_bind] at hm'
  refine ⟨m, m', hm, hm', hcache, by rw [hlists]; simp, hlook, hsearch, fun h => ?_⟩
  have := h.1 0xffff900000000000#64
  rw [hlook, hsearch] at this
  cases this

end Fishix.Mem
