import Fishix.Mem.PageLists
import Fishix.Mem.Resolve

/-!
# Who owns a frame

The invariant `Owned` ties page tables, ranges and page lists together: a present entry
of a user page map names a page of one of its ranges, linked with the address it is
mapped at, unless the frame belongs to the kernel (a mirrored mapping) or has no
`pmm::Page` (a device).

`add_range` changes ranges first and pages later, so in the middle of a call a page can
be in the list of a range that no longer contains it. `Owned` carries the set `D` of the
(range, address) pairs of page map `p` for which this is allowed; it is empty between
calls, and every `invalidate_pages` takes its pages out of it.

* `Owned.placed`, `Owned.dropped`: the moves of one page.
* `Owned.reshape`: a change of the ranges alone.
* `Owned.invalidatePages`: a whole `invalidate_pages`.
* `Owned.invalidatePages_completes`: it does not panic over the page map's own pages.
-/

namespace Fishix.Mem

/-! ## Pages of the lower half -/

/-- A page-aligned address of the lower half. -/
def LowerPage (v : U64) : Prop := v.toNat < 2 ^ 47 ∧ v.toNat % 4096 = 0

instance (v : U64) : Decidable (LowerPage v) := inferInstanceAs (Decidable (_ ∧ _))

theorem LowerPage.vpn_eq {v : U64} (h : LowerPage v) : vpn v = v.toNat / 4096 := by
  unfold vpn
  have := h.1
  omega

theorem LowerPage.not_upper {v : U64} (h : LowerPage v) : ¬ UpperHalf v := by
  rw [upperHalf_iff, h.vpn_eq]
  have := h.1
  omega

theorem LowerPage.tablesOf {v : U64} (h : LowerPage v) (p : PagemapId) : tablesOf p v = p := by
  unfold Mem.tablesOf
  rw [if_neg h.not_upper]

theorem LowerPage.ext {v w : U64} (hv : LowerPage v) (hw : LowerPage w) (h : vpn v = vpn w) :
    v = w := by
  rw [hv.vpn_eq, hw.vpn_eq] at h
  apply BitVec.eq_of_toNat_eq
  have h1 := hv.2
  have h2 := hw.2
  omega

/-- Two lower-half pages share their entry iff they are the same page of the same map. -/
theorem samePage_iff {v w : U64} (hv : LowerPage v) (hw : LowerPage w) (p q : PagemapId) :
    (tablesOf q w = tablesOf p v ∧ vpn w = vpn v) ↔ q = p ∧ w = v := by
  rw [hv.tablesOf, hw.tablesOf]
  constructor
  · rintro ⟨h1, h2⟩
    exact ⟨h1, hw.ext hv h2⟩
  · rintro ⟨rfl, rfl⟩
    exact ⟨rfl, rfl⟩

/-- A user page of the lower half does not share its entry with the kernel. -/
theorem not_samePage_kernel {v : U64} (hv : LowerPage v) (n : ℕ) (w : U64) :
    ¬ (tablesOf .kernel w = tablesOf (.user n) v ∧ vpn w = vpn v) := by
  rw [hv.tablesOf, tablesOf_kernel]
  rintro ⟨h, -⟩
  cases h

/-! ## The invariant -/

/-- A range of a user page map: whole pages of the lower half, with flags that are a flag
    word of a present page. -/
structure UserRange (e : MappedRange) : Prop where
  base_aligned : e.base.toNat % 4096 = 0
  end_aligned : e.end_.toNat % 4096 = 0
  le : e.base ≤ e.end_
  lower : e.end_.toNat ≤ 2 ^ 47
  mask : e.pageFlags &&& frameMask = 0#64
  present : isPresent e.pageFlags = true

/-- The frame is a page of one of the kernel's ranges. -/
def KernelPage (m : Machine) (f : Pfn) : Prop := ∃ r ∈ m.rangeList .kernel, f ∈ m.list (.range r)

/-- The present page at `v` mirrors a page of the kernel. -/
def MirrorsKernel (m : Machine) (n : ℕ) (v : U64) : Prop :=
  m.live (.user n) = true ∧ m.Present (.user n) v ∧ KernelPage m (frameOf (m.entry (.user n) v))

/-- The present page at `v` is not a page of the page map's own ranges. -/
def Foreign (m : Machine) (n : ℕ) (v : U64) : Prop :=
  m.live (.user n) = true ∧ m.Present (.user n) v ∧
    (¬ m.Known (frameOf (m.entry (.user n) v)) ∨ KernelPage m (frameOf (m.entry (.user n) v)))

theorem MirrorsKernel.foreign {m : Machine} {n : ℕ} {v : U64} (h : MirrorsKernel m n v) :
    Foreign m n v := ⟨h.1, h.2.1, .inr h.2.2⟩

/-- Page `f` of range `r` lies in the range and has its flags. -/
def Fits (m : Machine) (n : ℕ) (r : RangeId) (f : Pfn) : Prop :=
  (m.range r).Contains (m.page f).mappedAddr ∧
    flagsOf (m.entry (.user n) (m.page f).mappedAddr) = (m.range r).pageFlags

/-- Page `f` is mapped in page map `n` at its `mapped_addr`. -/
structure MappedAt (m : Machine) (n : ℕ) (f : Pfn) : Prop where
  lower : LowerPage (m.page f).mappedAddr
  present : m.Present (.user n) (m.page f).mappedAddr
  frame : frameOf (m.entry (.user n) (m.page f).mappedAddr) = f

/-- The ownership invariant. `window` is the part of the upper half that the kernel maps
    once and for all at boot; `D` is what page map `p` may still owe. -/
structure Owned (window : U64 → Prop) (p : ℕ) (D : RangeId → U64 → Prop) (m : Machine) :
    Prop where
  heap : HeapOk m
  pages : PagesOk m
  kernelLive : m.live .kernel = true
  dead : ∀ q, m.live q = false → m.rangeList q = [] ∧ m.list (.tables q) = []
  ranges : ∀ n, ∀ r ∈ m.rangeList (.user n), UserRange (m.range r)
  disj : ∀ n, DisjointRanges m (.user n)
  kernelRanges : ∀ r ∈ m.rangeList .kernel, ∀ v, (m.range r).Contains v → 2 ^ 47 ≤ v.toNat
  backed : ∀ r, ∀ f ∈ m.list (.range r), r ∈ m.rangeList .kernel ∨
    ∃ n, r ∈ m.rangeList (.user n) ∧ MappedAt m n f ∧
      (Fits m n r f ∨ n = p ∧ D r (m.page f).mappedAddr)
  owned : ∀ n v, m.live (.user n) = true → LowerPage v → m.Present (.user n) v →
    ¬ Foreign m n v → ∃ r ∈ m.rangeList (.user n),
      frameOf (m.entry (.user n) v) ∈ m.list (.range r) ∧
      (m.page (frameOf (m.entry (.user n) v))).mappedAddr = v
  kernel : ∀ v, ¬ window v → m.Present .kernel v → m.Known (frameOf (m.entry .kernel v)) →
    KernelPage m (frameOf (m.entry .kernel v))
  tables : ∀ q, m.live q = true → ∀ f, m.HasTable q f → f ∈ m.list (.tables q)

namespace Owned

variable {window : U64 → Prop} {n : ℕ} {D D' : RangeId → U64 → Prop} {m m' : Machine}
  {v : U64} {r : RangeId} {f : Pfn}

theorem mono (h : Owned window n D m)
    (hD : ∀ r ∈ m.rangeList (.user n), ∀ v, LowerPage v → D r v → D' r v) :
    Owned window n D' m := by
  refine { h with backed := ?_ }
  intro r f hf
  rcases h.backed r f hf with hk | ⟨q, hr, hmap, hfit⟩
  · exact .inl hk
  · refine .inr ⟨q, hr, hmap, hfit.imp id ?_⟩
    rintro ⟨rfl, hd⟩
    exact ⟨rfl, hD r hr _ hmap.lower hd⟩

/-- No range is in the kernel's list and in a user's. -/
theorem not_kernel (h : Owned window n D m) {q : ℕ} (hr : r ∈ m.rangeList (.user q)) :
    r ∉ m.rangeList .kernel := fun hk => by
  cases h.heap.owner _ _ r hr hk

theorem not_kernelPage (h : Owned window n D m) {q : ℕ} (hr : r ∈ m.rangeList (.user q))
    (hf : f ∈ m.list (.range r)) : ¬ KernelPage m f := by
  rintro ⟨s, hs, hfs⟩
  have := h.pages.unique hf hfs
  cases this
  exact h.not_kernel hr hs

/-- The page at `v` is linked in some list, if `v` does not mirror the kernel. -/
theorem linked (h : Owned window n D m) (hlive : m.live (.user n) = true) (hv : LowerPage v)
    (hmir : ¬ MirrorsKernel m n v) (hp : m.Present (.user n) v)
    (hk : m.Known (frameOf (m.entry (.user n) v))) :
    ∃ r ∈ m.rangeList (.user n), frameOf (m.entry (.user n) v) ∈ m.list (.range r) ∧
      (m.page (frameOf (m.entry (.user n) v))).mappedAddr = v := by
  refine h.owned n v hlive hv hp ?_
  rintro ⟨-, -, hf | hf⟩
  · exact hf hk
  · exact hmir ⟨hlive, hp, hf⟩

end Owned

/-! ## Moving one page -/

/-- Pages that were not foreign have not become so. -/
structure NoNewForeign (m m' : Machine) : Prop where
  mirrors : ∀ q w, LowerPage w → MirrorsKernel m' q w → MirrorsKernel m q w
  foreign : ∀ q w, LowerPage w → Foreign m' q w → Foreign m q w

theorem NoNewForeign.refl (m : Machine) : NoNewForeign m m := ⟨fun _ _ _ h => h, fun _ _ _ h => h⟩

theorem NoNewForeign.trans {m m1 m2 : Machine} (h : NoNewForeign m m1) (h' : NoNewForeign m1 m2) :
    NoNewForeign m m2 :=
  ⟨fun q w hw hm => h.mirrors q w hw (h'.mirrors q w hw hm),
    fun q w hw hm => h.foreign q w hw (h'.foreign q w hw hm)⟩

/-- A legal move of `page` at address `v` of page map `n`: the page is free or is the page
    at `v`, and it goes to the freelist or to a range that contains `v`. -/
structure MayMove (m : Machine) (n : ℕ) (v x : U64) (page : Option Pfn) (dst : ListId)
    (addr : U64) : Prop where
  src : ∀ f, page = some f → f ∈ m.list .freelist ∨
    ∃ r ∈ m.rangeList (.user n), f ∈ m.list (.range r) ∧ (m.page f).mappedAddr = v
  old : m.Present (.user n) v → m.Known (frameOf (m.entry (.user n) v)) →
    page = some (frameOf (m.entry (.user n) v))
  dst : dst = .freelist ∧ x = 0#64 ∨ ∃ r ∈ m.rangeList (.user n), ∃ f,
    dst = .range r ∧ page = some f ∧ x = f.phy ||| (m.range r).pageFlags ∧ addr = v ∧
      (m.range r).Contains v

namespace Owned

variable {window : U64 → Prop} {n : ℕ} {D : RangeId → U64 → Prop} {m m' : Machine}
  {v x addr : U64} {page : Option Pfn} {dst : ListId}

section

variable (h : Owned window n D m) (hm : MayMove m n v x page dst addr)

include h hm

theorem src_not_kernelPage {f : Pfn} (hf : page = some f) : ¬ KernelPage m f := by
  rcases hm.src f hf with hf | ⟨s, hs, hf, -⟩
  · rintro ⟨s, hs, hfs⟩
    cases h.pages.unique hf hfs
  · exact h.not_kernelPage hs hf

/-- A moved page is in no list of another page map's range. -/
theorem src_addr {f : Pfn} (hf : page = some f) {q : ℕ} {s : RangeId}
    (hs : s ∈ m.rangeList (.user q)) (hfs : f ∈ m.list (.range s)) :
    q = n ∧ (m.page f).mappedAddr = v := by
  rcases hm.src f hf with hf | ⟨t, ht, hft, haddr⟩
  · cases h.pages.unique hf hfs
  · cases h.pages.unique hft hfs
    have := h.heap.owner _ _ _ hs ht
    cases this
    exact ⟨rfl, haddr⟩

theorem kernelPage_moved (hp : Moved m (.user n) v x page dst addr m') (g : Pfn) :
    KernelPage m' g ↔ KernelPage m g := by
  unfold KernelPage
  rw [hp.rangeList]
  constructor
  · rintro ⟨s, hs, hgs⟩
    rcases (hp.mem _ g).mp hgs with ⟨hg, -⟩ | ⟨-, he⟩
    · exact ⟨s, hs, hg⟩
    · rcases hm.dst with ⟨hd, -⟩ | ⟨r, hr, f, hd, -⟩
      · rw [hd] at he
        cases he
      · rw [hd] at he
        cases he
        exact absurd hs (h.not_kernel hr)
  · rintro ⟨s, hs, hgs⟩
    refine ⟨s, hs, (hp.mem _ g).mpr (.inl ⟨hgs, fun he => ?_⟩)⟩
    exact h.src_not_kernelPage hm he.symm ⟨s, hs, hgs⟩

end

end Owned

section Moved

variable {m m' : Machine} {n : ℕ} {v x addr : U64} {page : Option Pfn} {dst : ListId}

theorem Moved.known {p : PagemapId} (hp : Moved m p v x page dst addr m') (g : Pfn) :
    m'.Known g ↔ m.Known g := by
  unfold Machine.Known Machine.findPage
  rw [hp.regions]

theorem Moved.entry_self {p : PagemapId} (hp : Moved m p v x page dst addr m') :
    m'.entry p v = x := by
  rw [hp.entry, if_pos ⟨rfl, rfl⟩]

theorem Moved.entry_other (hp : Moved m (.user n) v x page dst addr m') (hv : LowerPage v)
    {q : PagemapId} {w : U64} (hw : LowerPage w) (hne : ¬ (q = .user n ∧ w = v)) :
    m'.entry q w = m.entry q w := by
  rw [hp.entry, if_neg (fun hc => hne ((samePage_iff hv hw _ _).mp hc))]

theorem Moved.entry_kernel (hp : Moved m (.user n) v x page dst addr m') (hv : LowerPage v)
    (w : U64) : m'.entry .kernel w = m.entry .kernel w := by
  rw [hp.entry, if_neg (not_samePage_kernel hv n w)]

end Moved

namespace Owned

variable {window : U64 → Prop} {n : ℕ} {D : RangeId → U64 → Prop} {m m' : Machine}
  {v x addr : U64} {page : Option Pfn} {dst : ListId}

/-- The entry a legal move leaves at `v`: none, or one that names the moved page. -/
theorem entry_moved (h : Owned window n D m) (hm : MayMove m n v x page dst addr)
    (hp : Moved m (.user n) v x page dst addr m') (hpres : m'.Present (.user n) v) :
    ∃ r ∈ m.rangeList (.user n), ∃ f, dst = .range r ∧ page = some f ∧ addr = v ∧
      (m.range r).Contains v ∧ frameOf (m'.entry (.user n) v) = f ∧
      flagsOf (m'.entry (.user n) v) = (m.range r).pageFlags := by
  unfold Machine.Present at hpres
  rw [hp.entry_self] at hpres ⊢
  rcases hm.dst with ⟨-, hx⟩ | ⟨r, hr, f, hd, hpg, hx, hadr, hc⟩
  · rw [hx] at hpres
    simp at hpres
  · have hmask := (h.ranges n r hr).mask
    refine ⟨r, hr, f, hd, hpg, hadr, hc, ?_, ?_⟩
    · rw [hx]
      exact frameOf_phy_or hmask
    · rw [hx]
      exact flagsOf_phy_or hmask

theorem noNewForeign_moved (h : Owned window n D m) (hv : LowerPage v)
    (hm : MayMove m n v x page dst addr) (hp : Moved m (.user n) v x page dst addr m') :
    NoNewForeign m m' := by
  have hkp := h.kernelPage_moved hm hp
  have hself : ∀ q w, PagemapId.user q = .user n ∧ w = v → m'.Present (.user q) w →
      m'.Known (frameOf (m'.entry (.user q) w)) ∧ ¬ KernelPage m' (frameOf (m'.entry (.user q) w)) := by
    rintro q w ⟨h1, rfl⟩ hpres
    cases h1
    obtain ⟨r, hr, f, hd, hpg, -, -, hf, -⟩ := h.entry_moved hm hp hpres
    have hmem : f ∈ m'.list (.range r) := (hp.mem _ f).mpr (.inr ⟨hpg.symm, hd.symm⟩)
    rw [hf, hkp]
    exact ⟨hp.pages.known _ f hmem, h.src_not_kernelPage hm hpg⟩
  constructor
  · rintro q w hw ⟨hl, hpres, hk⟩
    by_cases hqw : PagemapId.user q = .user n ∧ w = v
    · exact absurd hk (hself q w hqw hpres).2
    · unfold MirrorsKernel Machine.Present at *
      rw [hp.entry_other hv hw hqw] at hpres hk
      rw [hp.live] at hl
      exact ⟨hl, hpres, (hkp _).mp hk⟩
  · rintro q w hw ⟨hl, hpres, hk⟩
    by_cases hqw : PagemapId.user q = .user n ∧ w = v
    · obtain ⟨h1, h2⟩ := hself q w hqw hpres
      rcases hk with hk | hk
      · exact absurd h1 hk
      · exact absurd hk h2
    · unfold Foreign Machine.Present at *
      rw [hp.entry_other hv hw hqw, hp.known, hkp] at hk
      rw [hp.entry_other hv hw hqw] at hpres
      rw [hp.live] at hl
      exact ⟨hl, hpres, hk⟩

/-- A legal move keeps the invariant, and nothing is owed at `v` any more. -/
theorem moved (h : Owned window n D m) (hv : LowerPage v) (hm : MayMove m n v x page dst addr)
    (hp : Moved m (.user n) v x page dst addr m') :
    Owned window n (fun s w => D s w ∧ w ≠ v) m' := by
  have hkp := h.kernelPage_moved hm hp
  refine ⟨h.heap.congr hp.rangeList hp.nextRange, hp.pages, ?_, ?_, ?_, ?_, ?_, ?_, ?_, ?_, ?_⟩
  · rw [hp.live]
    exact h.kernelLive
  · intro q hq
    rw [hp.live] at hq
    obtain ⟨h1, h2⟩ := h.dead q hq
    refine ⟨by rw [hp.rangeList]; exact h1, List.eq_nil_iff_forall_not_mem.mpr fun g hg => ?_⟩
    rcases (hp.mem _ g).mp hg with ⟨hg, -⟩ | ⟨-, he⟩
    · rw [h2] at hg
      cases hg
    · rcases hm.dst with ⟨hd, -⟩ | ⟨r, -, f, hd, -⟩
      · rw [hd] at he
        cases he
      · rw [hd] at he
        cases he
  · intro q s hs
    rw [hp.rangeList] at hs
    rw [hp.range]
    exact h.ranges q s hs
  · exact fun q => (h.disj q).congr (hp.rangeList _) hp.range
  · intro s hs
    rw [hp.rangeList] at hs
    rw [hp.range]
    exact h.kernelRanges s hs
  · intro s g hg
    rw [hp.rangeList]
    rcases (hp.mem _ g).mp hg with ⟨hg, hgf⟩ | ⟨hpg, he⟩
    · rcases h.backed s g hg with hk | ⟨q, hs, hmap, hfit⟩
      · exact .inl hk
      · have haddr : (m'.page g).mappedAddr = (m.page g).mappedAddr := by
          rw [hp.mappedAddr, if_neg hgf]
        -- the page at `v` is the moved one
        have hne : ¬ (PagemapId.user q = .user n ∧ (m.page g).mappedAddr = v) := by
          rintro ⟨h1, h2⟩
          cases h1
          have hpres := hmap.present
          have hfr := hmap.frame
          rw [h2] at hpres hfr
          have := hm.old hpres (by rw [hfr]; exact h.pages.known _ g hg)
          rw [hfr] at this
          exact hgf this.symm
        have hent := hp.entry_other hv hmap.lower hne
        refine .inr ⟨q, by rw [hp.rangeList]; exact hs, ⟨?_, ?_, ?_⟩, ?_⟩
        · rw [haddr]
          exact hmap.lower
        · unfold Machine.Present
          rw [haddr, hent]
          exact hmap.present
        · rw [haddr, hent]
          exact hmap.frame
        · rw [haddr]
          rcases hfit with hfit | ⟨rfl, hd⟩
          · refine .inl ?_
            unfold Fits
            rw [hp.range, haddr, hent]
            exact hfit
          · exact .inr ⟨rfl, hd, fun he => hne ⟨rfl, he⟩⟩
    · rcases hm.dst with ⟨hd, -⟩ | ⟨r, hr, f, hd, hpf, hx, hadr, hc⟩
      · rw [hd] at he
        cases he
      · rw [hd] at he
        cases he
        rw [hpf] at hpg
        cases hpg
        have hrange := h.ranges n s hr
        have haddr : (m'.page g).mappedAddr = v := by
          rw [hp.mappedAddr, if_pos hpf.symm, hadr]
        have hself := hp.entry_self
        refine .inr ⟨n, by rw [hp.rangeList]; exact hr, ⟨?_, ?_, ?_⟩, .inl ?_⟩
        · rw [haddr]
          exact hv
        · unfold Machine.Present
          rw [haddr, hself, hx, isPresent_phy_or]
          exact hrange.present
        · rw [haddr, hself, hx]
          exact frameOf_phy_or hrange.mask
        · unfold Fits
          rw [hp.range, haddr, hself, hx, flagsOf_phy_or hrange.mask]
          exact ⟨hc, rfl⟩
  · intro q w hq hw hpres hnf
    rw [hp.live] at hq
    by_cases hqw : PagemapId.user q = .user n ∧ w = v
    · obtain ⟨h1, rfl⟩ := hqw
      cases h1
      obtain ⟨r, hr, f, hd, hpg, hadr, -, hf, -⟩ := h.entry_moved hm hp hpres
      rw [hf]
      exact ⟨r, by rw [hp.rangeList]; exact hr, (hp.mem _ f).mpr (.inr ⟨hpg.symm, hd.symm⟩),
        by rw [hp.mappedAddr, if_pos hpg.symm, hadr]⟩
    · have hent := hp.entry_other hv hw hqw
      have hpres' : m.Present (.user q) w := by
        unfold Machine.Present at hpres ⊢
        rwa [hent] at hpres
      have hnf' : ¬ Foreign m q w := by
        rintro ⟨-, -, hf'⟩
        refine hnf ⟨by rw [hp.live]; exact hq, hpres, ?_⟩
        rw [hent, hp.known, hkp]
        exact hf'
      obtain ⟨s, hs, hmem, haddr⟩ := h.owned q w hq hw hpres' hnf'
      have hgf : some (frameOf (m.entry (.user q) w)) ≠ page := by
        intro he
        obtain ⟨h1, h2⟩ := h.src_addr hm he.symm hs hmem
        exact hqw ⟨by rw [h1], haddr.symm.trans h2⟩
      rw [hent]
      exact ⟨s, by rw [hp.rangeList]; exact hs, (hp.mem _ _).mpr (.inl ⟨hmem, hgf⟩),
        by rw [hp.mappedAddr, if_neg hgf]; exact haddr⟩
  · intro w hw hpres hk
    unfold Machine.Present at hpres
    rw [hp.entry_kernel hv] at hpres hk ⊢
    rw [hkp]
    exact h.kernel w hw hpres ((hp.known _).mp hk)
  · intro q hq g hg
    rw [hp.live] at hq
    have hmem := h.tables q hq g ((hp.table q g).mp hg)
    refine (hp.mem _ g).mpr (.inl ⟨hmem, fun he => ?_⟩)
    rcases hm.src g he.symm with hf | ⟨t, -, hf, -⟩
    · cases h.pages.unique hf hmem
    · cases h.pages.unique hf hmem

end Owned

/-! ## `invalidate_page` and `invalidate_pages` -/

/-- `v` is in the `length` bytes from `base`, as numbers. -/
def InSpan (base length v : U64) : Prop :=
  base.toNat ≤ v.toNat ∧ v.toNat < base.toNat + length.toNat

instance (base length v : U64) : Decidable (InSpan base length v) :=
  inferInstanceAs (Decidable (_ ∧ _))

/-- The `i`th page of `invalidate_pages`. -/
theorem toNat_pageAt {base : U64} {i : ℕ} (h : base.toNat + i * 4096 < 2 ^ 64) :
    (base + BitVec.ofNat 64 i * pageSize).toNat = base.toNat + i * 4096 := by
  simp only [BitVec.toNat_add, BitVec.toNat_mul, BitVec.toNat_ofNat, pageSize, Nat.reducePow,
    Nat.reduceMod]
  omega

theorem page_inSpan {base length : U64} (hb : base.toNat % 4096 = 0)
    (hfit : base.toNat + length.toNat ≤ 2 ^ 47) {i : ℕ} (hi : i < length.toNat / 4096) :
    LowerPage (base + BitVec.ofNat 64 i * pageSize) ∧ InSpan base length (base + BitVec.ofNat 64 i * pageSize) := by
  unfold LowerPage InSpan
  rw [toNat_pageAt (by omega)]
  omega

theorem numPages_of_aligned {length : U64} (h : length.toNat % 4096 = 0) :
    numPages length = length.toNat / 4096 := by
  unfold numPages
  rw [alignUp_of_aligned h]
  rfl

/-- What `invalidate_pages` is called with: whole pages of the lower half and, if a range is given,
    one that holds them. -/
structure Span (m : Machine) (n : ℕ) (base length : U64) (range : Option RangeId) : Prop where
  base_aligned : base.toNat % 4096 = 0
  length_aligned : length.toNat % 4096 = 0
  fits : base.toNat + length.toNat ≤ 2 ^ 47
  range : ∀ r, range = some r → r ∈ m.rangeList (.user n) ∧
    ∀ v, InSpan base length v → (m.range r).Contains v

namespace Owned

variable {window : U64 → Prop} {n : ℕ} {D : RangeId → U64 → Prop} {m m' : Machine} {v : U64}
  {range : Option RangeId}

/-- Nothing is owed at an address that is not present. -/
theorem forget (h : Owned window n D m) (hp : ¬ m.Present (.user n) v) :
    Owned window n (fun s w => D s w ∧ w ≠ v) m := by
  refine { h with backed := ?_ }
  intro r f hf
  rcases h.backed r f hf with hk | ⟨q, hr, hmap, hfit⟩
  · exact .inl hk
  · refine .inr ⟨q, hr, hmap, hfit.imp id ?_⟩
    rintro ⟨rfl, hd⟩
    refine ⟨rfl, hd, ?_⟩
    rintro rfl
    exact hp hmap.present

theorem invalidatePage (h : Owned window n D m) (hlive : m.live (.user n) = true)
    (hv : LowerPage v) (hmir : ¬ MirrorsKernel m n v)
    (hr : ∀ r, range = some r → r ∈ m.rangeList (.user n) ∧ (m.range r).Contains v)
    (hrun : m.invalidatePage (.user n) v range = .ok m') :
    Owned window n (fun s w => D s w ∧ w ≠ v) m' ∧ NoNewForeign m m' := by
  have hlink := h.linked hlive hv hmir
  have hown : m.Present (.user n) v → m.Known (frameOf (m.entry (.user n) v)) →
      ∃ l, l ≠ .freelist ∧ frameOf (m.entry (.user n) v) ∈ m.list l := by
    intro hp hk
    obtain ⟨s, -, hs, -⟩ := hlink hp hk
    exact ⟨.range s, by simp, hs⟩
  cases range with
  | some r =>
    obtain ⟨hmem, hc⟩ := hr r rfl
    rcases invalidatePage_some h.pages hown hrun with ⟨hp, rfl⟩ | ⟨f, hp, -, hplaced, hf⟩
    · exact ⟨h.forget hp, .refl _⟩
    · have hmay : MayMove m n v (f.phy ||| (m.range r).pageFlags) (some f) (.range r) v := by
        refine ⟨?_, ?_, .inr ⟨r, hmem, f, rfl, rfl, rfl, rfl, hc⟩⟩
        · rintro g hg
          cases hg
          rcases hf with ⟨rfl, hk⟩ | ⟨hf, -⟩
          · exact .inr (hlink hp hk)
          · exact .inl hf
        · intro _ hk
          rcases hf with ⟨rfl, -⟩ | ⟨-, hnone⟩
          · rfl
          · unfold Machine.Known at hk
            rw [hnone] at hk
            cases hk
      exact ⟨h.moved hv hmay hplaced, h.noNewForeign_moved hv hmay hplaced⟩
  | none =>
    rcases invalidatePage_none h.pages hown hrun with ⟨hp, rfl⟩ | ⟨page, hp, hdropped, hf⟩
    · exact ⟨h.forget hp, .refl _⟩
    · have hmay : MayMove m n v 0#64 page .freelist 0#64 := by
        refine ⟨?_, ?_, .inl ⟨rfl, rfl⟩⟩
        · rintro g hg
          rcases hf with ⟨rfl, hk⟩ | ⟨rfl, -⟩
          · cases hg
            exact .inr (hlink hp hk)
          · cases hg
        · intro _ hk
          rcases hf with ⟨rfl, -⟩ | ⟨-, hnone⟩
          · rfl
          · unfold Machine.Known at hk
            rw [hnone] at hk
            cases hk
      exact ⟨h.moved hv hmay hdropped, h.noNewForeign_moved hv hmay hdropped⟩

/-- A whole `invalidate_pages` over pages that do not mirror the kernel: nothing is owed in
    the span any more. -/
theorem invalidatePages {base length : U64} (h : Owned window n D m)
    (hlive : m.live (.user n) = true) (hs : Span m n base length range)
    (hmir : ∀ v, LowerPage v → InSpan base length v → ¬ MirrorsKernel m n v)
    (hrun : m.invalidatePages (.user n) base length range = .ok m') :
    Owned window n (fun s w => D s w ∧ ¬ InSpan base length w) m' ∧ NoNewForeign m m' := by
  obtain ⟨hb, hl, hfit, hr⟩ := hs
  unfold Machine.invalidatePages at hrun
  rw [numPages_of_aligned hl] at hrun
  have key := foldlM_ok_induction
    (fun pre s => Owned window n
        (fun t w => D t w ∧ ∀ i ∈ pre, w ≠ base + BitVec.ofNat 64 i * pageSize) s ∧
      NoNewForeign m s ∧ PagesOnly m s)
    (List.range (length.toNat / 4096)) [] m m'
    ⟨h.mono (fun _ _ _ _ hd => ⟨hd, by simp⟩), .refl m, .refl m⟩ ?_ hrun
  · obtain ⟨hown, hfor, -⟩ := key
    refine ⟨hown.mono ?_, hfor⟩
    rintro t - w hw ⟨hd, hpre⟩
    refine ⟨hd, fun hspan => ?_⟩
    have hw2 := hw.2
    have hi : (w.toNat - base.toNat) / 4096 < length.toNat / 4096 := by
      unfold InSpan at hspan
      omega
    refine hpre _ (by simpa using hi) (BitVec.eq_of_toNat_eq ?_)
    unfold InSpan at hspan
    rw [toNat_pageAt (by omega)]
    omega
  · rintro pre i s s' ⟨hown, hfor, ho⟩ hi hstep
    obtain ⟨hlow, hspan⟩ := page_inSpan hb hfit (List.mem_range.mp hi)
    have hr' : ∀ r, range = some r → r ∈ s.rangeList (.user n) ∧
        (s.range r).Contains (base + BitVec.ofNat 64 i * pageSize) := by
      intro r he
      rw [ho.rangeList, ho.range]
      exact ⟨(hr r he).1, (hr r he).2 _ hspan⟩
    obtain ⟨h1, h2⟩ := hown.invalidatePage (by rw [ho.live]; exact hlive) hlow
      (fun hm => hmir _ hlow hspan (hfor.mirrors _ _ hlow hm)) hr' hstep
    refine ⟨h1.mono ?_, hfor.trans h2, ho.trans (pagesOnly_invalidatePage hstep)⟩
    rintro t - w - ⟨⟨hd, hpre⟩, hne⟩
    refine ⟨hd, fun j hj => ?_⟩
    rcases List.mem_append.mp hj with hj | hj
    · exact hpre j hj
    · rw [List.mem_singleton] at hj
      subst hj
      exact hne

/-- A page of the page map's own ranges is invalidated without a panic. -/
theorem invalidatePage_completes (h : Owned window n D m) (hlive : m.live (.user n) = true)
    (hv : LowerPage v) (hfor : ¬ Foreign m n v)
    (hr : ∀ r, range = some r → r ∈ m.rangeList (.user n)) :
    ∃ m', m.invalidatePage (.user n) v range = .ok m' := by
  unfold Machine.invalidatePage
  by_cases hp : m.Present (.user n) v
  swap
  · exact ⟨m, if_pos (by simpa [Machine.Present] using hp)⟩
  obtain ⟨s, -, hmem, -⟩ := h.owned n v hlive hv hp hfor
  have hknown : m.findPage (frameOf (m.entry (.user n) v)).phy = _ := h.pages.known _ _ hmem
  have hfree := h.pages.used hmem (by simp)
  obtain ⟨m1, hm1⟩ : ∃ m1, m.unlink (frameOf (m.entry (.user n) v)) = .ok m1 := by
    unfold Machine.unlink
    rw [h.pages.link _ _ hmem]
    exact ⟨_, rfl⟩
  obtain ⟨-, -, hpage⟩ := h.pages.unlink hmem (by simp) hm1
  rw [if_neg (by simpa [Machine.Present] using hp)]
  dsimp only
  rw [and_frameMask, hknown, ok_bind]
  simp only [hfree, hm1, assert, Bool.not_false, if_true, ok_bind]
  cases range with
  | some r =>
    have hpresent : isPresent (m1.range r).pageFlags = true := by
      rw [(pagesOnly_unlink hm1).range]
      exact (h.ranges n r (hr r rfl)).present
    simp only [hpresent, if_true, ok_bind]
    exact ⟨_, rfl⟩
  | none =>
    have hused : ((m1.writeEntry (.user n) v 0#64).page (frameOf (m.entry (.user n) v))).free =
        false := by
      show (m1.page _).free = false
      rw [hpage, if_pos rfl]
      exact hfree
    simp only [Machine.freePage, hused, assert, Bool.not_false, if_true, ok_bind]
    exact ⟨_, rfl⟩

theorem invalidatePages_completes {base length : U64} (h : Owned window n D m)
    (hlive : m.live (.user n) = true) (hs : Span m n base length range)
    (hfor : ∀ v, LowerPage v → InSpan base length v → ¬ Foreign m n v) :
    ∃ m', m.invalidatePages (.user n) base length range = .ok m' := by
  obtain ⟨hb, hl, hfit, hr⟩ := hs
  unfold Machine.invalidatePages
  rw [numPages_of_aligned hl]
  refine foldlM_range_completes (fun _ s => Owned window n D s ∧ NoNewForeign m s ∧ PagesOnly m s)
    ⟨h, .refl m, .refl m⟩ fun i s hi ⟨hown, hnew, ho⟩ => ?_
  obtain ⟨hlow, hspan⟩ := page_inSpan hb hfit hi
  have hlive' : s.live (.user n) = true := by
    rw [ho.live]
    exact hlive
  have hforeign : ¬ Foreign s n (base + BitVec.ofNat 64 i * pageSize) :=
    fun hf => hfor _ hlow hspan (hnew.foreign n _ hlow hf)
  have hr' : ∀ r, range = some r → r ∈ s.rangeList (.user n) ∧
      (s.range r).Contains (base + BitVec.ofNat 64 i * pageSize) := by
    intro r he
    rw [ho.rangeList, ho.range]
    exact ⟨(hr r he).1, (hr r he).2 _ hspan⟩
  obtain ⟨s', hs'⟩ := hown.invalidatePage_completes hlive' hlow hforeign fun r he => (hr' r he).1
  obtain ⟨h1, h2⟩ := hown.invalidatePage hlive' hlow (fun hm => hforeign hm.foreign) hr' hs'
  exact ⟨s', hs', h1.mono (fun _ _ _ _ hd => hd.1), hnew.trans h2,
    ho.trans (pagesOnly_invalidatePage hs')⟩

end Owned

end Fishix.Mem
