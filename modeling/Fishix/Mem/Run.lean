import Fishix.Mem.OwnedFork
import Fishix.Mem.Syscall
import Fishix.Mem.Boot

/-!
# Runs of the memory subsystem

The operations on user page maps, one call at a time: page faults, calls of `add_range` (a
mapping, an `munmap`, one iteration of the loop of `mprotect`), the `invalidate_page` of
`madvise`, and the creation, `fork` and destruction of page maps. A run is any sequence of
them, on any page maps.

* `Sound.step`, `Sound.run`: the ownership invariant in every state of a run.
* `ownership_run`: no frame that is mapped is free, and every page is in the one list it
  belongs to.
* `coherence_run`: page tables, ranges and page lists agree, for page maps with ANONYMOUS
  and FILE ranges.
-/

namespace Fishix.Mem

/-! ## Operations -/

/-- One call into the memory subsystem; a page map is named by its number. -/
inductive Op where
  /-- A page fault at `virt`. -/
  | fault (n : ℕ) (virt : U64)
  /-- A call of `add_range`. -/
  | addRange (n : ℕ) (a : RangeArgs)
  /-- `invalidate_page(virt, nullptr)`, the body of the loop of `madvise`. -/
  | dontNeed (n : ℕ) (virt : U64)
  /-- `new Pagemap()`. -/
  | create (n : ℕ)
  /-- `fork` of page map `n` as page map `k`. -/
  | fork (n k : ℕ)
  /-- `delete pagemap`. -/
  | destroy (n : ℕ)

def step (m : Machine) : Op → Except Panic Machine
  | .fault n virt => do
    let (_, m) ← m.handlePageFault (.user n) virt
    .ok m
  | .addRange n a => do
    let (_, m) ← m.addRange (.user n) a
    .ok m
  | .dontNeed n virt => m.invalidatePage (.user n) virt none
  | .create n => m.newPagemap (.user n)
  | .fork n k => m.fork (.user n) (.user k)
  | .destroy n => m.deletePagemap (.user n)

/-- The operation is one the kernel can make, with page-aligned lower-half addresses: it is on
    a page map that is alive, and a new page map gets a name that is not in use. -/
def Op.Admissible (m : Machine) : Op → Prop
  | .fault n virt => m.live (.user n) = true ∧ virt.toNat < 2 ^ 47
  | .addRange n a => m.live (.user n) = true ∧ UserArgs a ∧ a.resolveOverlap = true
  | .dontNeed n virt => m.live (.user n) = true ∧ LowerPage virt
  | .create n => m.live (.user n) = false
  | .fork n k => m.live (.user n) = true ∧ m.live (.user k) = false
  | .destroy n => m.live (.user n) = true

/-- The operation keeps off frames of other owners: a page that mirrors the kernel is not
    taken from its list, a DIRECT range maps no frame of the physical memory manager and a
    DIRECT_VIRTUAL range mirrors a present page of the kernel. -/
def Op.KeepsOff (m : Machine) : Op → Prop
  | .fault n virt => FaultOk m n virt
  | .addRange n a => ∀ v, LowerPage v → Touches m (.user n) a v → ¬ MirrorsKernel m n v
  | .dontNeed n virt => ¬ MirrorsKernel m n virt
  | .create _ => True
  | .fork _ _ => True
  | .destroy _ => True

/-! ## The invariant along a run -/

/-- The ownership invariant between two calls, with caches that point to linked ranges. -/
structure Sound (window : U64 → Prop) (m : Machine) : Prop where
  owned : Owned window 0 (fun _ _ => False) m
  cache : ∀ n, m.live (.user n) = true → CacheOk m (.user n)

namespace Sound

variable {window : U64 → Prop} {m m' : Machine} {n k : ℕ}

section

variable (h : Sound window m) (hlive : m.live (.user n) = true)

include h hlive

theorem fault {v : U64} (hv : v.toNat < 2 ^ 47) (hok : FaultOk m n v) {res : Option U64}
    (hrun : m.handlePageFault (.user n) v = .ok (res, m')) :
    Sound window m' ∧ (OnlyPaged m n → NoNewForeign m m') := by
  obtain ⟨h1, h2, h3⟩ := (h.owned.any n).handlePageFault hlive (h.cache n hlive) hv hok hrun
  have hsame := sameRanges_handlePageFault hrun
  refine ⟨⟨h1.any 0, fun q hq => ?_⟩, h3⟩
  by_cases hqn : q = n
  · subst hqn
    exact h2
  · rw [hsame.live] at hq
    exact (h.cache q hq).congr (hsame.cache_other _ (by simpa using hqn)) hsame.rangeList

theorem addRange {a : RangeArgs} (ha : UserArgs a) (hover : a.resolveOverlap = true)
    (hmir : ∀ v, LowerPage v → Touches m (.user n) a v → ¬ MirrorsKernel m n v)
    {res : Option RangeId} (hrun : m.addRange (.user n) a = .ok (res, m')) :
    Sound window m' ∧ NoNewForeign m m' := by
  have ho := h.owned.any n
  obtain ⟨h1, h2⟩ := ho.addRange hlive ha hover hmir hrun
  obtain ⟨hframe, hcache⟩ := addRange_frame ho.heap hover hrun
  have hadd := addRange_added ho.heap (ho.disj n) ho.ordered ha.le hover hrun
  refine ⟨⟨h1.any 0, fun q hq => ?_⟩, h2⟩
  by_cases hqn : q = n
  · subst hqn
    intro c hc
    rw [hcache] at hc
    cases hc
  · rw [hframe.live] at hq
    have hne : PagemapId.user q ≠ .user n := by simpa using hqn
    intro c hc
    rw [hframe.cache_other _ hne] at hc
    rw [hadd.others _ hne, hadd.others .kernel (by simp)]
    exact h.cache q hq c hc

theorem dontNeed {v : U64} (hv : LowerPage v) (hmir : ¬ MirrorsKernel m n v)
    (hrun : m.invalidatePage (.user n) v none = .ok m') : Sound window m' ∧ NoNewForeign m m' := by
  obtain ⟨h1, h2⟩ := (h.owned.any n).invalidatePage hlive hv hmir (by simp) hrun
  have hpo := pagesOnly_invalidatePage hrun
  refine ⟨⟨(h1.mono fun _ _ _ _ hd => hd.1).any 0, fun q hq => ?_⟩, h2⟩
  rw [hpo.live] at hq
  exact (h.cache q hq).congr (hpo.cachedRangeLookup _) hpo.rangeList

end

section

variable (h : Sound window m)

include h

theorem create (hdead : m.live (.user n) = false) (hrun : m.newPagemap (.user n) = .ok m') :
    Sound window m' ∧ NoNewForeign m m' := by
  obtain ⟨h1, h2⟩ := h.owned.newPagemap hdead hrun
  obtain ⟨⟨f, hself⟩, hother, hlive, -⟩ := newPagemap_pagemap hrun
  refine ⟨⟨h1, fun q hq c hc => ?_⟩, h2⟩
  by_cases hqn : PagemapId.user q = .user n
  · rw [hqn, hself] at hc
    cases hc
  · rw [hlive, Function.update_of_ne hqn] at hq
    unfold Machine.rangeList
    rw [hother _ hqn] at hc ⊢
    rw [hother .kernel (by simp)]
    exact h.cache q hq c hc

theorem fork (hlive : m.live (.user n) = true) (hdead : m.live (.user k) = false)
    (hrun : m.fork (.user n) (.user k) = .ok m') : Sound window m' ∧ NoNewForeign m m' := by
  have ho := h.owned.any n
  obtain ⟨h1, h2⟩ := ho.fork hlive hdead hrun
  obtain ⟨m0, h0, hf⟩ := (ho.forkSource hlive hdead).phases hrun
  refine ⟨⟨h1.any 0, fun q hq c hc => ?_⟩, h2⟩
  by_cases hqk : PagemapId.user q = .user k
  · rw [hqk, hf.cache] at hc
    cases hc
  · rw [hf.live, h0.live, Function.update_of_ne hqk] at hq
    unfold Machine.rangeList
    rw [hf.pagemap _ hqk, h0.pagemap _ hqk] at hc ⊢
    rw [hf.pagemap .kernel (by simp), h0.pagemap .kernel (by simp)]
    exact h.cache q hq c hc

theorem destroy (hrun : m.deletePagemap (.user n) = .ok m') :
    Sound window m' ∧ NoNewForeign m m' := by
  have ho := h.owned.any n
  obtain ⟨h1, h2⟩ := ho.deletePagemap hrun
  obtain ⟨s, hrel, rfl, hrl⟩ := deletePagemap_released ho.pages ho.heap hrun
  refine ⟨⟨h1.any 0, fun q hq c hc => ?_⟩, h2⟩
  have hq' : Function.update s.live (.user n) false (.user q) = true := hq
  have hqn : PagemapId.user q ≠ .user n := by
    intro he
    rw [he, Function.update_self] at hq'
    cases hq'
  rw [Function.update_of_ne hqn, hrel.live] at hq'
  have hc' : (s.pagemap (.user q)).cachedRangeLookup = some c := hc
  rw [hrel.cache] at hc'
  show c ∈ s.rangeList (.user q) ∨ c ∈ s.rangeList .kernel
  rw [hrl, if_neg hqn, hrl, if_neg (by simp)]
  exact h.cache q hq' c hc'

/-- One operation keeps the invariant. -/
theorem step {op : Op} (hadm : op.Admissible m) (hoff : op.KeepsOff m)
    (hrun : Mem.step m op = .ok m') : Sound window m' := by
  cases op with
  | fault n v =>
    obtain ⟨⟨res, m1⟩, h1, h2⟩ := bind_ok hrun
    cases h2
    exact (h.fault hadm.1 hadm.2 hoff h1).1
  | addRange n a =>
    obtain ⟨⟨res, m1⟩, h1, h2⟩ := bind_ok hrun
    cases h2
    exact (h.addRange hadm.1 hadm.2.1 hadm.2.2 hoff h1).1
  | dontNeed n v => exact (h.dontNeed hadm.1 hadm.2 hoff hrun).1
  | create n => exact (h.create hadm hrun).1
  | fork n k => exact (h.fork hadm.1 hadm.2 hrun).1
  | destroy n => exact (h.destroy hrun).1

theorem run (hrun : Run Mem.step (fun m op => op.Admissible m ∧ op.KeepsOff m) m m') :
    Sound window m' :=
  hrun.invariant (fun _ _ _ hs hok hnext => hs.step hok.1 hok.2 hnext) h

end

end Sound

/-! ## Who owns a frame, in every state of a run -/

/-- The page is linked once, in the list `l` and in no other. -/
def LinkedOnce (m : Machine) (f : Pfn) (l : ListId) : Prop :=
  ∀ k, (m.list k).count f = if k = l then 1 else 0

theorem PagesOk.linkedOnce {m : Machine} (h : PagesOk m) {f : Pfn} {l : ListId}
    (hf : f ∈ m.list l) : LinkedOnce m f l := by
  intro k
  split_ifs with hk
  · subst hk
    exact List.count_eq_one_of_mem (h.nodup k) hf
  · refine List.count_eq_zero_of_not_mem fun hfk => hk ?_
    exact h.unique hfk hf

/-- Frames and their owners. `window` is the part of the kernel's address space that is mapped
    at boot and maps frames whether they are in use or not. -/
structure FrameOwnership (window : U64 → Prop) (m : Machine) : Prop where
  /-- No present entry of a live page map maps a frame that is free. -/
  mapped : ∀ p v, m.live p = true → m.Present p v → (tablesOf p v = .kernel → ¬ window v) →
    m.Known (frameOf (m.entry p v)) → (m.page (frameOf (m.entry p v))).free = false
  /-- A page that backs a mapping is linked once, in the list of a range. -/
  backing : ∀ p v, m.live p = true → m.Present p v → (tablesOf p v = .kernel → ¬ window v) →
    m.Known (frameOf (m.entry p v)) → ∃ r, LinkedOnce m (frameOf (m.entry p v)) (.range r)
  /-- A page that holds a table is in use and linked once, in the list of its page map. -/
  table : ∀ p f, m.live p = true → m.HasTable p f →
    (m.page f).free = false ∧ LinkedOnce m f (.tables p)
  /-- A free page is linked once, in the freelist. -/
  free : ∀ f, m.Known f → (m.page f).free = true → LinkedOnce m f .freelist

/-- An address of the lower half has the entry of a page of the lower half. -/
theorem exists_lowerPage {v : U64} (h : ¬ UpperHalf v) : ∃ w, LowerPage w ∧ vpn w = vpn v := by
  rw [upperHalf_iff] at h
  have hw : (BitVec.ofNat 64 (vpn v * 4096)).toNat = vpn v * 4096 := by
    rw [BitVec.toNat_ofNat]
    omega
  have hlow : LowerPage (BitVec.ofNat 64 (vpn v * 4096)) := by
    unfold LowerPage
    rw [hw]
    omega
  refine ⟨_, hlow, ?_⟩
  rw [hlow.vpn_eq, hw]
  omega

namespace Sound

variable {window : U64 → Prop} {m m' : Machine} {n k : ℕ}

theorem backing (h : Sound window m) {p : PagemapId} {v : U64} (hlive : m.live p = true)
    (hp : m.Present p v) (hwin : tablesOf p v = .kernel → ¬ window v)
    (hk : m.Known (frameOf (m.entry p v))) : ∃ r, frameOf (m.entry p v) ∈ m.list (.range r) := by
  have ho := h.owned
  by_cases htab : tablesOf p v = .kernel
  · have hent : m.entry p v = m.entry .kernel v := entry_congr m (by rw [htab, tablesOf_kernel]) rfl
    unfold Machine.Present at hp
    rw [hent] at hp hk ⊢
    obtain ⟨r, -, hr⟩ := ho.kernel v (hwin htab) hp hk
    exact ⟨r, hr⟩
  · cases p with
    | kernel => exact absurd (tablesOf_kernel v) htab
    | user n =>
      have hup : ¬ UpperHalf v := by
        intro hu
        unfold tablesOf at htab
        rw [if_pos hu] at htab
        exact htab rfl
      obtain ⟨w, hw, hvpn⟩ := exists_lowerPage hup
      have hent : m.entry (.user n) v = m.entry (.user n) w :=
        entry_congr m (tablesOf_of_vpn _ hvpn.symm) hvpn.symm
      unfold Machine.Present at hp
      rw [hent] at hp hk ⊢
      by_cases hfor : Foreign m n w
      · rcases hfor.2.2 with hn | ⟨r, -, hr⟩
        · exact absurd hk hn
        · exact ⟨r, hr⟩
      · obtain ⟨r, -, hr, -⟩ := ho.owned n w hlive hw hp hfor
        exact ⟨r, hr⟩

theorem frameOwnership (h : Sound window m) : FrameOwnership window m := by
  have hpages := h.owned.pages
  refine ⟨?_, ?_, ?_, ?_⟩
  · intro p v hlive hp hwin hk
    obtain ⟨r, hr⟩ := h.backing hlive hp hwin hk
    exact hpages.used hr (by simp)
  · intro p v hlive hp hwin hk
    obtain ⟨r, hr⟩ := h.backing hlive hp hwin hk
    exact ⟨r, hpages.linkedOnce hr⟩
  · intro p f hlive hf
    have hmem := h.owned.tables p hlive f hf
    exact ⟨hpages.used hmem (by simp), hpages.linkedOnce hmem⟩
  · intro f hk hf
    exact hpages.linkedOnce (hpages.mem_freelist f hk hf)

end Sound

/-! ## Page maps with ANONYMOUS and FILE ranges -/

/-- Page tables, ranges and page lists of page map `n` agree. -/
structure Coherent (m : Machine) (n : ℕ) : Prop where
  /-- A present page lies in exactly one range. -/
  inRange : ∀ v, LowerPage v → m.Present (.user n) v →
    ∃! r, r ∈ m.rangeList (.user n) ∧ (m.range r).Contains v
  /-- It has the flags of the range, and its frame is that of exactly one page of the range's
      list, which is mapped there. -/
  entry : ∀ v, LowerPage v → m.Present (.user n) v → ∀ r ∈ m.rangeList (.user n),
    (m.range r).Contains v → flagsOf (m.entry (.user n) v) = (m.range r).pageFlags ∧
      (m.list (.range r)).count (frameOf (m.entry (.user n) v)) = 1 ∧
      (m.page (frameOf (m.entry (.user n) v))).mappedAddr = v
  /-- Every page of the list of a range is mapped in the range, at its `mapped_addr`. -/
  page : ∀ r ∈ m.rangeList (.user n), ∀ f ∈ m.list (.range r),
    (m.range r).Contains (m.page f).mappedAddr ∧ m.Present (.user n) (m.page f).mappedAddr ∧
      frameOf (m.entry (.user n) (m.page f).mappedAddr) = f

/-- The operation makes no DIRECT and no DIRECT_VIRTUAL range. -/
def Op.Paged : Op → Prop
  | .addRange _ a => a.type = .none ∨ a.type = .anonymous ∨ a.type = .file
  | _ => True

/-- The invariant of runs without DIRECT and DIRECT_VIRTUAL ranges. -/
structure PagedSound (window : U64 → Prop) (m : Machine) : Prop extends Sound window m where
  only : ∀ n, OnlyPaged m n
  own : ∀ n v, LowerPage v → ¬ Foreign m n v

namespace PagedSound

variable {window : U64 → Prop} {m m' : Machine} {n k : ℕ}

section

variable (h : PagedSound window m)

include h

theorem not_mirrors {v : U64} (hv : LowerPage v) :
    ¬ MirrorsKernel m n v := fun hm => h.own n v hv ⟨hm.1, hm.2.1, .inr hm.2.2⟩

theorem coherent (hlive : m.live (.user n) = true) : Coherent m n := by
  have ho := h.owned
  have hback : ∀ v, LowerPage v → m.Present (.user n) v → ∃ r ∈ m.rangeList (.user n),
      frameOf (m.entry (.user n) v) ∈ m.list (.range r) ∧
      (m.page (frameOf (m.entry (.user n) v))).mappedAddr = v ∧ (m.range r).Contains v ∧
      flagsOf (m.entry (.user n) v) = (m.range r).pageFlags := by
    intro v hv hp
    obtain ⟨r, hr, hf, haddr⟩ := ho.owned n v hlive hv hp (h.own n v hv)
    obtain ⟨-, hfit⟩ := ho.listed hr hf
    unfold Fits at hfit
    rw [haddr] at hfit
    exact ⟨r, hr, hf, haddr, hfit⟩
  have huniq : ∀ {r s : RangeId} {v : U64}, r ∈ m.rangeList (.user n) → s ∈ m.rangeList (.user n) →
      (m.range r).Contains v → (m.range s).Contains v → r = s := by
    intro r s v hr hs hrv hsv
    by_contra hne
    exact ho.disj n r hr s hs hne v hrv hsv
  refine ⟨?_, ?_, ?_⟩
  · intro v hv hp
    obtain ⟨r, hr, -, -, hc, -⟩ := hback v hv hp
    exact ⟨r, ⟨hr, hc⟩, fun s hs => huniq hs.1 hr hs.2 hc⟩
  · intro v hv hp s hs hsc
    obtain ⟨r, hr, hf, haddr, hc, hflags⟩ := hback v hv hp
    cases huniq hr hs hc hsc
    exact ⟨hflags, List.count_eq_one_of_mem (ho.pages.nodup _) hf, haddr⟩
  · intro r hr f hf
    obtain ⟨hmap, hfit⟩ := ho.listed hr hf
    exact ⟨hfit.1, hmap.present, hmap.frame⟩

theorem step {op : Op} (hadm : op.Admissible m) (hpaged : op.Paged) (hrun : Mem.step m op = .ok m')
    : PagedSound window m' := by
  have hnext : ∀ {m'}, Sound window m' ∧ NoNewForeign m m' → (∀ n, OnlyPaged m' n) →
      PagedSound window m' := by
    rintro m' ⟨h1, h2⟩ h3
    exact ⟨h1, h3, fun n v hv hf => h.own n v hv (h2.foreign n v hv hf)⟩
  cases op with
  | fault n v =>
    obtain ⟨⟨res, m1⟩, h1, h2⟩ := bind_ok hrun
    cases h2
    obtain ⟨h3, h4⟩ := h.fault hadm.1 hadm.2 ((h.only n).faultOk v) h1
    have hsame := sameRanges_handlePageFault h1
    refine hnext ⟨h3, h4 (h.only n)⟩ fun q r hr => ?_
    rw [hsame.rangeList] at hr
    rw [hsame.range]
    exact h.only q r hr
  | addRange n a =>
    obtain ⟨⟨res, m1⟩, h1, h2⟩ := bind_ok hrun
    cases h2
    have ho := h.owned.any n
    have hadd := addRange_added ho.heap (ho.disj n) ho.ordered hadm.2.1.le hadm.2.2 h1
    refine hnext (h.addRange hadm.1 hadm.2.1 hadm.2.2 (fun v hv _ => h.not_mirrors hv) h1)
      fun q r hr => ?_
    by_cases hqn : q = n
    · subst hqn
      rcases hadd.type_mem r hr with he | ⟨s, hs, he⟩
      · rcases hpaged with ht | ht
        · exact absurd (he.trans ht) (m'.range r).type_ne
        · rw [he]
          exact ht
      · rw [he]
        exact h.only q s hs
    · have hne : PagemapId.user q ≠ .user n := by simpa using hqn
      rw [hadd.others _ hne] at hr
      have hout : r ∉ m.rangeList (.user n) := fun hr' => hne (ho.heap.owner _ _ r hr hr')
      rw [hadd.range_other r hout (ho.heap.lt _ r hr)]
      exact h.only q r hr
  | dontNeed n v =>
    have hrun' : m.invalidatePage (.user n) v none = .ok m' := hrun
    have hpo := pagesOnly_invalidatePage hrun'
    refine hnext (h.dontNeed hadm.1 hadm.2 (h.not_mirrors hadm.2) hrun') fun q r hr => ?_
    rw [hpo.rangeList] at hr
    rw [hpo.range]
    exact h.only q r hr
  | create n =>
    obtain ⟨⟨f, hself⟩, hother, -, hrange, -⟩ := newPagemap_pagemap hrun
    refine hnext (h.create hadm hrun) fun q r hr => ?_
    unfold Machine.rangeList at hr
    rw [hrange]
    by_cases hqn : PagemapId.user q = .user n
    · rw [hqn, hself] at hr
      cases hr
    · rw [hother _ hqn] at hr
      exact h.only q r hr
  | fork n k =>
    obtain ⟨m0, h0, hf⟩ := ((h.owned.any n).forkSource hadm.1 hadm.2).phases hrun
    refine hnext (h.fork hadm.1 hadm.2 hrun) fun q r hr => ?_
    by_cases hqk : PagemapId.user q = .user k
    · rw [hqk] at hr
      obtain ⟨-, -, s, hs, he⟩ := hf.ranges r hr
      rw [he, h0.range]
      exact h.only n s hs
    · unfold Machine.rangeList at hr
      rw [hf.pagemap _ hqk, h0.pagemap _ hqk] at hr
      have hlt := h.owned.heap.lt _ r hr
      rw [← h0.nextRange] at hlt
      rw [hf.range r hlt, h0.range]
      exact h.only q r hr
  | destroy n =>
    obtain ⟨s, hrel, rfl, hrl⟩ := deletePagemap_released h.owned.pages h.owned.heap hrun
    refine hnext (h.destroy hrun) fun q r hr => ?_
    have hr' : r ∈ s.rangeList (.user q) := hr
    rw [hrl] at hr'
    show (s.range r).type = _ ∨ _
    rw [hrel.range]
    split_ifs at hr'
    · cases hr'
    · exact h.only q r hr'

theorem run (hrun : Run Mem.step (fun m op => op.Admissible m ∧ op.Paged) m m') :
    PagedSound window m' :=
  hrun.invariant (fun _ _ _ hs hok hnext => hs.step hok.1 hok.2 hnext) h

end

end PagedSound

section

variable {window : U64 → Prop} {m : Machine} (h : PagedSound window m)

include h

/-- Operations on such page maps keep off frames of other owners. -/
theorem PagedSound.keepsOff {op : Op} (hadm : op.Admissible m) : op.KeepsOff m := by
  cases op with
  | fault n v => exact (h.only n).faultOk v
  | addRange n a => exact fun v hv _ => h.not_mirrors hv
  | dontNeed n v => exact h.not_mirrors hadm.2
  | create n => trivial
  | fork n k => trivial
  | destroy n => trivial

theorem PagedSound.run_keepsOff {m' : Machine}
    (hrun : Run Mem.step (fun m op => op.Admissible m ∧ op.Paged) m m') :
    Run Mem.step (fun m op => op.Admissible m ∧ op.KeepsOff m) m m' := by
  induction hrun with
  | start => exact .start
  | step run ok next ih => exact .step ih ⟨ok.1, (h.run run).keepsOff ok.1⟩ next

/-- A live page map of such a run can be forked. -/
theorem PagedSound.forkReady {n k : ℕ} (hlive : m.live (.user n) = true)
    (hdead : m.live (.user k) = false) : ForkReady m n k := by
  have hc := h.coherent hlive
  refine ⟨(h.owned.any n).forkSource hlive hdead, fun r hr _ v hv hcon hp => ?_⟩
  obtain ⟨-, hcount, haddr⟩ := hc.entry v hv hp r hr hcon
  exact ⟨List.count_pos_iff.mp (by omega), haddr⟩

end

/-! ## The booted machine -/

theorem not_present_booted (p : PagemapId) (v : U64) : ¬ booted.Present p v := by
  have hfind : booted.findEntry p v = none := by
    exact (Radix.lookup_empty 0#64 3 0x101#40 (tableIndex v)).resolve_right (by simp [Radix.lookup, Radix.empty])
  unfold Machine.Present Machine.entry
  rw [hfind]
  decide

theorem pagesOk_booted : PagesOk booted := by
  have hcases : ∀ l, ∀ f ∈ booted.list l, (l = .freelist ∧ f ∈ bootPages) ∨
      (l = .tables .kernel ∧ f = 0x101#40) := by
    intro l f hf
    rw [list_booted] at hf
    split_ifs at hf with h1 h2
    · exact .inl ⟨h1, hf⟩
    · exact .inr ⟨h2, List.mem_singleton.mp hf⟩
    · cases hf
  have hfree : ∀ f ∈ bootPages,
      booted.page f = { free := true, mappedAddr := 0#64, link := some .freelist } :=
    fun f hf => if_pos hf
  have hroot : booted.page 0x101#40 =
      { free := false, mappedAddr := 0#64, link := some (.tables .kernel) } := rfl
  refine ⟨?_, ?_, ?_, ?_, ?_⟩
  · intro l
    rw [list_booted]
    split_ifs
    · refine List.Nodup.map_on ?_ List.nodup_range
      intro i hi j hj hij
      rw [List.mem_range] at hi hj
      have := congrArg BitVec.toNat hij
      rw [BitVec.toNat_ofNat, BitVec.toNat_ofNat] at this
      omega
    · exact List.nodup_singleton _
    · exact List.nodup_nil
  · intro l f hf
    obtain ⟨rfl, hf⟩ | ⟨rfl, rfl⟩ := hcases l f hf
    · rw [hfree f hf]
    · rw [hroot]
  · intro l f hf
    obtain ⟨rfl, hf⟩ | ⟨rfl, rfl⟩ := hcases l f hf
    · have := (mem_bootPages f).mp hf
      exact known_booted (by omega) this.2
    · exact known_booted (by decide) (by decide)
  · intro l f hf
    obtain ⟨rfl, hf⟩ | ⟨rfl, rfl⟩ := hcases l f hf
    · rw [hfree f hf]
      simp
    · rw [hroot]
      simp
  · intro f _ hf
    by_contra hnot
    have hpage : booted.page f = if f = 0x101#40 then
        { free := false, mappedAddr := 0#64, link := some (.tables .kernel) }
        else { free := false, mappedAddr := 0#64, link := none } := if_neg hnot
    rw [hpage] at hf
    split_ifs at hf

theorem pagedSound_booted : PagedSound (fun _ => False) booted where
  owned := {
    heap := {
      nodup := fun _ => List.nodup_nil
      lt := fun _ _ hr => absurd hr List.not_mem_nil
      owner := fun _ _ _ hr => absurd hr List.not_mem_nil }
    pages := pagesOk_booted
    kernelLive := rfl
    dead := by
      intro q hq
      refine ⟨rfl, ?_⟩
      rw [list_booted, if_neg (by simp), if_neg]
      rintro ⟨⟩
      cases hq
    ranges := fun _ _ hr => absurd hr List.not_mem_nil
    disj := fun _ _ hr => absurd hr List.not_mem_nil
    kernelRanges := fun _ hr => absurd hr List.not_mem_nil
    backed := by
      intro r f hf
      rw [list_booted, if_neg (by simp), if_neg (by simp)] at hf
      cases hf
    owned := fun _ v _ _ hp => absurd hp (not_present_booted _ v)
    kernel := fun v _ hp => absurd hp (not_present_booted _ v)
    tables := by
      intro q hq f hf
      have hk : q = .kernel := of_decide_eq_true hq
      rw [hk, list_booted, if_neg (by simp), if_pos rfl, List.mem_singleton]
      exact ((Radix.hasPage_empty 0#64 3 0x101#40 f).mp hf).symm }
  cache := fun n hn => by simp [booted] at hn
  only := fun _ _ hr => absurd hr List.not_mem_nil
  own := fun _ v _ hf => not_present_booted _ v hf.2.1

/-- `n` pages of anonymous memory at `base`, as `mmap` with `PROT_READ | PROT_WRITE` asks for. -/
def anonymousPages (base : U64) (n : ℕ) : RangeArgs :=
  { base, length := BitVec.ofNat 64 n * pageSize
    pageFlags := mmapProtToPageFlags (protRead ||| protWrite), type := .anonymous, phyBase := 0#64
    file := none, fileOffset := 0#64, merge := true, resolveOverlap := true, keepPages := true }

/-- A process that maps two pages and touches the first one. -/
def firstTouch : Except Panic Machine := do
  let m ← step booted (.create 0)
  let m ← step m (.addRange 0 (anonymousPages 0x1000#64 2))
  step m (.fault 0 0x1000#64)

theorem userArgs_anonymousPages : UserArgs (anonymousPages 0x1000#64 2) where
  base_aligned := by decide
  length_aligned := by decide
  fits := by decide
  mask := fun _ => by decide
  present := fun _ => by decide

/-- The operations of `firstTouch` are a run. -/
theorem run_firstTouch : ∃ m, firstTouch = .ok m ∧
    Run step (fun m op => op.Admissible m ∧ op.Paged) booted m ∧
    m.live (.user 0) = true ∧ m.live (.user 1) = false ∧ m.Present (.user 0) 0x1000#64 := by
  obtain ⟨m, hm⟩ : ∃ m, firstTouch = .ok m := ⟨_, rfl⟩
  obtain ⟨m1, h1, hrest⟩ := bind_ok hm
  obtain ⟨m2, h2, h3⟩ := bind_ok hrest
  have h12 : (step booted (.create 0) >>= fun m =>
      step m (.addRange 0 (anonymousPages 0x1000#64 2))) = .ok m2 := bind_ok_iff.mpr ⟨m1, h1, h2⟩
  refine ⟨m, hm, .step (.step (.step .start ?_ h1) ?_ h2) ?_ h3, ?_, ?_, ?_⟩
  · exact ⟨rfl, trivial⟩
  · exact ⟨⟨map_ok_eq h1 (fun m => m.live (.user 0)) rfl, userArgs_anonymousPages, rfl⟩,
      .inr (.inl rfl)⟩
  · exact ⟨⟨map_ok_eq h12 (fun m => m.live (.user 0)) rfl, by decide⟩, trivial⟩
  · exact map_ok_eq hm (fun m => m.live (.user 0)) rfl
  · exact map_ok_eq hm (fun m => m.live (.user 1)) rfl
  · exact map_ok_eq hm (fun m => isPresent (m.entry (.user 0) 0x1000#64)) rfl

/-- **Main theorem.** In every state of a run whose operations keep off frames of other owners,
    no frame that is mapped is free and every page is in the one list it belongs to. -/
theorem ownership_run {window : U64 → Prop} {m m' : Machine} (h : Sound window m)
    (hrun : Run step (fun m op => op.Admissible m ∧ op.KeepsOff m) m m') :
    FrameOwnership window m' :=
  (h.run hrun).frameOwnership

theorem ownership_run_firstTouch :
    ∃ m, firstTouch = .ok m ∧ FrameOwnership (fun _ => False) m := by
  obtain ⟨m, hm, hrun, -⟩ := run_firstTouch
  exact ⟨m, hm, ownership_run pagedSound_booted.toSound (pagedSound_booted.run_keepsOff hrun)⟩

/-- The entry of `v` in page map `p` maps a frame that is free. -/
def MapsFree (m : Machine) (p : PagemapId) (v : U64) : Prop :=
  m.live p = true ∧ m.Present p v ∧ m.Known (frameOf (m.entry p v)) ∧
    (m.page (frameOf (m.entry p v))).free = true

theorem mapsFree_of_map {x : Except Panic Machine} {p : PagemapId} {v : U64} {f : Pfn} {m : Machine}
    (hx : x = .ok m) (hk : booted.Known f)
    (h : (x.map fun m => m.live p && isPresent (m.entry p v) && frameOf (m.entry p v) == f &&
      (m.page f).free && decide (m.regions = booted.regions)).toOption = some true) :
    MapsFree m p v := by
  rw [hx] at h
  have hall := Option.some.inj h
  simp only [Bool.and_eq_true, beq_iff_eq, decide_eq_true_eq] at hall
  obtain ⟨⟨⟨⟨h1, h2⟩, h3⟩, h4⟩, hregions⟩ := hall
  refine ⟨h1, h2, ?_, ?_⟩
  · rw [h3]
    unfold Machine.Known Machine.findPage
    rw [hregions]
    exact hk
  · rw [h3]
    exact h4

/-- The direct map of the usable entry of `booted` (mem/vmm.cpp:57-58). -/
def directMap : Except Panic Machine :=
  booted.mapPages .kernel 0x100000#64 0xFFFF800000100000#64 0x10000#64
    (pagePresent ||| pageWritable ||| pageNoExecute)

/-- The address of a memory file in the kernel. -/
abbrev memfdAddress : U64 := 0xFFFF900000000000#64

/-- A memory file of one page is mapped with `MAP_SHARED`, touched and unmapped. -/
def sharedUnmapped : Except Panic Machine := do
  let m ← booted.mapAnonymous .kernel memfdAddress 0x1000#64 (pagePresent ||| pageWritable) true
  let (_, m) ← m.handlePageFault .kernel memfdAddress
  let m ← m.newPagemap (.user 0)
  let m ← m.mapVirtual (.user 0) 0x1000#64 0x1000#64 (mmapProtToPageFlags protRead) memfdAddress
  let (_, m) ← m.handlePageFault (.user 0) 0x1000#64
  m.unmapRange (.user 0) 0x1000#64 0x1000#64

/-- The direct map maps free frames, and unmapping a shared memory file frees a frame that the
    kernel still maps. -/
theorem kernel_maps_free_frames :
    (∃ m, directMap = .ok m ∧ MapsFree m .kernel 0xFFFF80000010F000#64) ∧
      ∃ m, sharedUnmapped = .ok m ∧ MapsFree m .kernel memfdAddress := by
  obtain ⟨m, hm⟩ : ∃ m, directMap = .ok m := ⟨_, rfl⟩
  obtain ⟨m', hm'⟩ : ∃ m, sharedUnmapped = .ok m := ⟨_, rfl⟩
  refine ⟨⟨m, hm, mapsFree_of_map (f := 0x10F#40) hm ?_ (by decide +kernel)⟩,
    ⟨m', hm', mapsFree_of_map (f := 0x105#40) hm' ?_ (by decide +kernel)⟩⟩
  · exact known_booted (by decide) (by decide)
  · exact known_booted (by decide) (by decide)

/-- **Main theorem.** In every state of a run on page maps with ANONYMOUS and FILE ranges,
    page tables, ranges and page lists of every page map agree. -/
theorem coherence_run {window : U64 → Prop} {m m' : Machine} (h : PagedSound window m)
    (hrun : Run step (fun m op => op.Admissible m ∧ op.Paged) m m') {n : ℕ}
    (hlive : m'.live (.user n) = true) : Coherent m' n :=
  (h.run hrun).coherent hlive

theorem coherence_run_firstTouch :
    ∃ m, firstTouch = .ok m ∧ Coherent m 0 ∧ m.Present (.user 0) 0x1000#64 := by
  obtain ⟨m, hm, hrun, hlive, -, hp⟩ := run_firstTouch
  exact ⟨m, hm, coherence_run pagedSound_booted hrun hlive, hp⟩

/-- `fork` of the process of `firstTouch`. -/
theorem fork_copies_firstTouch :
    ∃ m m', firstTouch = .ok m ∧ ForkReady m 0 1 ∧ m.fork (.user 0) (.user 1) = .ok m' ∧
      Forked m 0 1 m' := by
  obtain ⟨m, hm, hrun, hlive, hdead, -⟩ := run_firstTouch
  have hready := (pagedSound_booted.run hrun).forkReady hlive hdead
  have hdone : (firstTouch >>= fun m => m.fork (.user 0) (.user 1)).isOk = true := by decide +kernel
  have hcopies := fork_copies hready
  rw [hm, ok_bind] at hdone
  cases hfork : m.fork (.user 0) (.user 1) with
  | error e =>
    rw [hfork] at hdone
    cases hdone
  | ok m' =>
    rw [hfork] at hcopies
    exact ⟨m, m', hm, hready, hfork, hcopies⟩

end Fishix.Mem
