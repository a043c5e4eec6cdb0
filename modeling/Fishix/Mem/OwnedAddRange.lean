import Fishix.Mem.Ownership
import Fishix.Mem.Entries

/-!
# `add_range` keeps the ownership invariant

While a call is under way the pages of the window `[base, end)` that were in a range the
scan has already visited are owed (`D`); a range that is still to be visited owes
nothing, so a fully covered range has no page left in its list when it is deleted. The
part after the loop settles the whole window.

* `Owned.addRange`: a call that touches no page mirroring the kernel keeps `Owned`.
* `Owned.addRange_completes`: a call that touches no foreign page returns.
-/

namespace Fishix.Mem

/-! ## Changing ranges alone -/

namespace Owned

variable {window : U64 → Prop} {n : ℕ} {D D' : RangeId → U64 → Prop} {m m' : Machine}

theorem kernelPage_rangesOnly (ho : RangesOnly m m')
    (hk : m'.rangeList .kernel = m.rangeList .kernel) (f : Pfn) :
    KernelPage m' f ↔ KernelPage m f := by
  unfold KernelPage
  rw [hk, ho.list]

theorem noNewForeign_rangesOnly (ho : RangesOnly m m')
    (hk : m'.rangeList .kernel = m.rangeList .kernel) : NoNewForeign m m' := by
  have hkp := kernelPage_rangesOnly ho hk
  have hknown : ∀ f, m'.Known f ↔ m.Known f := by
    intro f
    unfold Machine.Known
    rw [ho.findPage]
  refine ⟨fun q w _ hm => ?_, fun q w _ hm => ?_⟩
  · unfold MirrorsKernel Machine.Present at hm ⊢
    rw [ho.entry, hkp, ho.live] at hm
    exact hm
  · unfold Foreign Machine.Present at hm ⊢
    rw [ho.entry, hkp, hknown, ho.live] at hm
    exact hm

/-- The ranges of page map `n` change, its pages and entries do not. -/
theorem reshape (h : Owned window n D m) (hlive : m.live (.user n) = true) (ho : RangesOnly m m')
    (heap : HeapOk m') (others : ∀ q, q ≠ .user n → m'.rangeList q = m.rangeList q)
    (range_other : ∀ r, r ∉ m.rangeList (.user n) → r < m.nextRange → m'.range r = m.range r)
    (ranges : ∀ r ∈ m'.rangeList (.user n), UserRange (m'.range r))
    (disj : DisjointRanges m' (.user n))
    (backed : ∀ r ∈ m.rangeList (.user n), ∀ f ∈ m.list (.range r), Fits m n r f ∨
      D r (m.page f).mappedAddr → r ∈ m'.rangeList (.user n) ∧
        (Fits m' n r f ∨ D' r (m.page f).mappedAddr)) : Owned window n D' m' := by
  have hkl : m'.rangeList .kernel = m.rangeList .kernel := others .kernel (by simp)
  have hkp := kernelPage_rangesOnly ho hkl
  have hsame : ∀ q, q ≠ .user n → ∀ r ∈ m.rangeList q, m'.range r = m.range r := by
    intro q hq r hr
    refine range_other r (fun hr' => hq (h.heap.owner q _ r hr hr')) (h.heap.lt q r hr)
  have hmapped : ∀ q f, MappedAt m q f → MappedAt m' q f := by
    intro q f hf
    refine ⟨?_, ?_, ?_⟩
    · rw [ho.page]
      exact hf.lower
    · unfold Machine.Present
      rw [ho.page, ho.entry]
      exact hf.present
    · rw [ho.page, ho.entry]
      exact hf.frame
  refine ⟨heap, h.pages.congr ho.page ho.list ho.regions, ?_, ?_, ?_, ?_, ?_, ?_, ?_, ?_, ?_⟩
  · rw [ho.live]
    exact h.kernelLive
  · intro q hq
    rw [ho.live] at hq
    rw [ho.list]
    have hne : q ≠ .user n := by
      rintro rfl
      rw [hlive] at hq
      cases hq
    rw [others q hne]
    exact h.dead q hq
  · intro q r hr
    by_cases hq : q = n
    · subst hq
      exact ranges r hr
    · have hne : PagemapId.user q ≠ .user n := by simpa using hq
      rw [others _ hne] at hr
      rw [hsame _ hne r hr]
      exact h.ranges q r hr
  · intro q
    by_cases hq : q = n
    · subst hq
      exact disj
    · have hne : PagemapId.user q ≠ .user n := by simpa using hq
      intro r hr s hs hrs v hv
      rw [others _ hne] at hr hs
      rw [hsame _ hne r hr] at hv
      rw [hsame _ hne s hs]
      exact h.disj q r hr s hs hrs v hv
  · intro r hr
    rw [hkl] at hr
    rw [hsame .kernel (by simp) r hr]
    exact h.kernelRanges r hr
  · intro r f hf
    rw [ho.list] at hf
    rw [hkl]
    rcases h.backed r f hf with hk | ⟨q, hr, hmap, hfit⟩
    · exact .inl hk
    · by_cases hq : q = n
      · subst hq
        obtain ⟨h1, h2⟩ := backed r hr f hf (hfit.imp id And.right)
        refine .inr ⟨q, h1, hmapped q f hmap, h2.imp id fun hd => ⟨rfl, ?_⟩⟩
        rw [ho.page]
        exact hd
      · have hne : PagemapId.user q ≠ .user n := by simpa using hq
        refine .inr ⟨q, by rw [others _ hne]; exact hr, hmapped q f hmap, .inl ?_⟩
        rcases hfit with hfit | ⟨he, -⟩
        · unfold Fits
          rw [hsame _ hne r hr, ho.page, ho.entry]
          exact hfit
        · exact absurd he hq
  · intro q v hq hv hp hnf
    rw [ho.live] at hq
    unfold Machine.Present at hp
    rw [ho.entry] at hp ⊢
    have hnf' : ¬ Foreign m q v := by
      intro hf
      apply hnf
      unfold Foreign Machine.Present at hf ⊢
      rw [ho.entry, hkp, ho.live]
      unfold Machine.Known at hf ⊢
      rw [ho.findPage]
      exact hf
    obtain ⟨r, hr, hmem, haddr⟩ := h.owned q v hq hv hp hnf'
    refine ⟨r, ?_, by rw [ho.list]; exact hmem, by rw [ho.page]; exact haddr⟩
    by_cases hqn : q = n
    · subst hqn
      rcases h.backed r _ hmem with hk | ⟨q', hr', -, hfit⟩
      · exact absurd hk (h.not_kernel hr)
      · have := h.heap.owner _ _ r hr hr'
        cases this
        exact (backed r hr _ hmem (hfit.imp id And.right)).1
    · rw [others _ (by simpa using hqn)]
      exact hr
  · intro v hv hp hk
    unfold Machine.Present at hp
    rw [ho.entry] at hp hk ⊢
    rw [hkp]
    unfold Machine.Known at hk
    rw [ho.findPage] at hk
    exact h.kernel v hv hp hk
  · intro q hq f hf
    rw [ho.live] at hq
    rw [ho.list]
    refine h.tables q hq f ?_
    unfold Machine.HasTable at hf ⊢
    rwa [ho.pml4] at hf

end Owned

/-! ## The arguments of a call -/

/-- Page-aligned arguments in the lower half; the flags of a mapping are a flag word of a
    present page. -/
structure UserArgs (a : RangeArgs) : Prop where
  base_aligned : a.base.toNat % 4096 = 0
  length_aligned : a.length.toNat % 4096 = 0
  fits : a.base.toNat + a.length.toNat ≤ 2 ^ 47
  mask : a.type ≠ .none → a.pageFlags &&& frameMask = 0#64
  present : a.type ≠ .none → isPresent a.pageFlags = true

namespace UserArgs

variable {a : RangeArgs} (h : UserArgs a)

include h

theorem toNat_end : a.end_.toNat = a.base.toNat + a.length.toNat := by
  have := h.fits
  unfold RangeArgs.end_
  rw [BitVec.toNat_add]
  omega

theorem le : a.base ≤ a.end_ := by
  rw [BitVec.le_def, h.toNat_end]
  omega

theorem covers_iff (v : U64) : a.Covers v ↔ InSpan a.base a.length v := by
  unfold RangeArgs.Covers InSpan
  rw [BitVec.le_def, BitVec.lt_def, h.toNat_end]

end UserArgs

theorem UserArgs.span {a : RangeArgs} (h : UserArgs a) {m : Machine} {n : ℕ}
    {range : Option RangeId} (hr : ∀ r, range = some r → r ∈ m.rangeList (.user n) ∧
      ∀ v, a.Covers v → (m.range r).Contains v) : Span m n a.base a.length range :=
  ⟨h.base_aligned, h.length_aligned, h.fits, fun r he => (hr r he).imp_right fun hc v hv =>
    hc v ((h.covers_iff v).mpr hv)⟩

/-- A call invalidates the page at `v`: `v` is in the window, or in the tail of a range that
    is split, and the call is not the one that finds the window mapped as it should be. -/
def Touches (m : Machine) (p : PagemapId) (a : RangeArgs) (v : U64) : Prop :=
  (∀ r ∈ m.rangeList p, a.Hits (m.range r) → a.Exact (m.range r) →
    (m.range r).pageFlags ≠ a.pageFlags) ∧
  (a.Covers v ∨ ∃ r ∈ m.rangeList p, (m.range r).base < a.base ∧ a.end_ < (m.range r).end_ ∧
    a.end_ ≤ v ∧ v < (m.range r).end_)

theorem userRange_piece {a : RangeArgs} {e e' : MappedRange} (ha : UserArgs a) (h : UserRange e)
    (hp : Piece a e e') : UserRange e' := by
  have h1 := h.base_aligned
  have h2 := h.end_aligned
  have h3 := h.lower
  have h4 := ha.base_aligned
  have h5 := ha.length_aligned
  have h6 := ha.fits
  have h7 := ha.toNat_end
  refine ⟨?_, ?_, hp.le h.le, ?_, ?_, ?_⟩
  · rcases hp.base_eq with he | ⟨-, he⟩
    · rw [he]
      exact h1
    · rw [he]
      omega
  · rcases hp.end_eq with he | ⟨-, he⟩
    · rw [he]
      exact h2
    · rw [he]
      exact h4
  · rcases hp.end_eq with he | ⟨-, he⟩
    · rw [he]
      exact h3
    · rw [he]
      omega
  · rw [hp.pageFlags]
    exact h.mask
  · rw [hp.pageFlags]
    exact h.present

theorem UserRange.toNat_end {e : MappedRange} (h : UserRange e) :
    e.end_.toNat = e.base.toNat + e.length.toNat := by
  have hle := h.le
  unfold MappedRange.end_ at hle ⊢
  bv_omega

theorem UserRange.contains_iff {e : MappedRange} (h : UserRange e) (v : U64) :
    e.Contains v ↔ InSpan e.base e.length v := by
  unfold MappedRange.Contains InSpan
  rw [BitVec.le_def, BitVec.lt_def, h.toNat_end]

theorem UserRange.length_aligned {e : MappedRange} (h : UserRange e) :
    e.length.toNat % 4096 = 0 := by
  have h1 := h.toNat_end
  have h2 := h.base_aligned
  have h3 := h.end_aligned
  omega

theorem UserRange.span {e : MappedRange} (h : UserRange e) {m : Machine} {n : ℕ}
    {range : Option RangeId} (hr : ∀ r, range = some r → r ∈ m.rangeList (.user n) ∧
      ∀ v, e.Contains v → (m.range r).Contains v) : Span m n e.base e.length range := by
  refine ⟨h.base_aligned, h.length_aligned, ?_, fun r he => (hr r he).imp_right fun hc v hv =>
    hc v ((h.contains_iff v).mpr hv)⟩
  rw [← h.toNat_end]
  exact h.lower

/-- `invalidate_pages` visits every page of an aligned span. -/
theorem visits_of_inSpan {p : PagemapId} {base length w : U64} (hb : base.toNat % 4096 = 0)
    (hl : length.toNat % 4096 = 0) (hw : w.toNat % 4096 = 0) (hin : InSpan base length w) :
    Visits p base length p w := by
  have hwlt := w.isLt
  unfold InSpan at hin
  have heq : base + BitVec.ofNat 64 ((w.toNat - base.toNat) / 4096) * pageSize = w := by
    apply BitVec.eq_of_toNat_eq
    rw [toNat_pageAt (by omega)]
    omega
  refine ⟨(w.toNat - base.toNat) / 4096, ?_, ?_⟩
  · rw [numPages_of_aligned hl]
    omega
  · rw [heq]
    exact ⟨rfl, rfl⟩

theorem userRange_added {p : PagemapId} {a : RangeArgs} {m m' : Machine} (ha : UserArgs a)
    (h : AddedRange p a m m') (hm : ∀ r ∈ m.rangeList p, UserRange (m.range r)) :
    ∀ r ∈ m'.rangeList p, UserRange (m'.range r) := by
  intro r hr
  have h4 := ha.base_aligned
  have h5 := ha.length_aligned
  have h6 := ha.fits
  have h7 := ha.toNat_end
  refine ⟨?_, ?_, h.ordered r hr, ?_, ?_, ?_⟩
  · rcases h.base_mem r hr with he | he | ⟨s, hs, he⟩
    · rw [he]
      exact h4
    · rw [he]
      omega
    · rw [he]
      exact (hm s hs).base_aligned
  · rcases h.end_mem r hr with he | he | ⟨s, hs, he⟩
    · rw [he]
      exact h4
    · rw [he]
      omega
    · rw [he]
      exact (hm s hs).end_aligned
  · rcases h.end_mem r hr with he | he | ⟨s, hs, he⟩
    · rw [he]
      omega
    · rw [he]
      omega
    · rw [he]
      exact (hm s hs).lower
  · rcases h.flags_mem r hr with ⟨he, ht⟩ | ⟨s, hs, he⟩
    · rw [he]
      exact ha.mask ht
    · rw [he]
      exact (hm s hs).mask
  · rcases h.flags_mem r hr with ⟨he, ht⟩ | ⟨s, hs, he⟩
    · rw [he]
      exact ha.present ht
    · rw [he]
      exact (hm s hs).present

/-! ## The scan -/

theorem deleteRange_empty {m m' : Machine} {p : PagemapId} {r : RangeId}
    (he : m.list (.range r) = []) (h : m.deleteRange p r = .ok m') : RangesOnly m m' := by
  unfold Machine.deleteRange at h
  dsimp only at h
  have hl : (m.setRangeList p ((m.rangeList p).erase r)).list (.range r) = [] := he
  rw [hl, List.foldlM_nil] at h
  cases h
  have hset : (m.setRangeList p ((m.rangeList p).erase r)).setList (.range r) [] =
      m.setRangeList p ((m.rangeList p).erase r) := by
    unfold Machine.setList
    rw [← hl, Function.update_eq_self]
  rw [hset]
  exact (rangesOnly_setRangeList _ _ _).trans (rangesOnly_addRefCount _ _ _)

theorem deleteRange_completes {m : Machine} {p : PagemapId} {r : RangeId}
    (he : m.list (.range r) = []) : ∃ m', m.deleteRange p r = .ok m' := by
  unfold Machine.deleteRange
  dsimp only
  rw [show (m.setRangeList p ((m.rangeList p).erase r)).list (.range r) = [] from he]
  exact ⟨_, rfl⟩

/-- No page is left in the list of a range that owes nothing when its pages are gone. -/
theorem Owned.emptied {window : U64 → Prop} {n : ℕ} {D : RangeId → U64 → Prop} {m m1 : Machine}
    {r : RangeId} (h1 : Owned window n D m1) (hr : r ∈ m1.rangeList (.user n)) (hD : ∀ v, ¬ D r v)
    (run : m.invalidatePages (.user n) (m1.range r).base (m1.range r).length none = .ok m1) :
    m1.list (.range r) = [] := by
  have hrange := h1.ranges n r hr
  refine List.eq_nil_iff_forall_not_mem.mpr fun f hf => ?_
  rcases h1.backed r f hf with hk | ⟨q, hq, hmap, hfit⟩
  · exact h1.not_kernel hr hk
  · cases h1.heap.owner _ _ r hr hq
    rcases hfit with ⟨hc, -⟩ | ⟨-, hd⟩
    · exact invalidatePages_none run (visits_of_inSpan hrange.base_aligned hrange.length_aligned
        hmap.lower.2 ((hrange.contains_iff _).mp hc)) hmap.present
    · exact hD _ hd

theorem Owned.ordered {window : U64 → Prop} {n : ℕ} {D : RangeId → U64 → Prop} {m : Machine}
    (h : Owned window n D m) : OrderedRanges m (.user n) := fun r hr => (h.ranges n r hr).le

/-- What may be owed during a scan that began in `m0`: pages of the window that were in a range
    already visited. -/
def Owes (n : ℕ) (a : RangeArgs) (m0 : Machine) (rest : List RangeId) (r : RangeId) (v : U64) :
    Prop :=
  r ∉ rest ∧ a.Covers v ∧ ∃ s ∈ m0.rangeList (.user n), s ∉ rest ∧ (m0.range s).Contains v

theorem Owes.of_cons {n : ℕ} {a : RangeArgs} {m0 : Machine} {rest : List RangeId}
    {r s : RangeId} {v : U64} (h : Owes n a m0 (s :: rest) r v) : Owes n a m0 rest r v := by
  obtain ⟨h1, h2, t, ht, h3, h4⟩ := h
  exact ⟨fun hr => h1 (List.mem_cons_of_mem _ hr), h2, t, ht,
    fun hr => h3 (List.mem_cons_of_mem _ hr), h4⟩

/-- State of a scan over page map `n`, in terms of ownership. -/
structure PassOwned (window : U64 → Prop) (n : ℕ) (a : RangeArgs) (m0 : Machine)
    (rest : List RangeId) (m : Machine) : Prop where
  pass : PassInv (.user n) a m0 rest m
  owned : Owned window n (Owes n a m0 rest) m
  foreign : NoNewForeign m0 m
  live : m.live = m0.live
  exact_rest : ∀ r ∈ m0.rangeList (.user n), a.Hits (m0.range r) → a.Exact (m0.range r) → r ∈ rest

section Scan

variable {window : U64 → Prop} {n : ℕ} {a : RangeArgs} {m0 m m' : Machine} {r : RangeId}
  {rest : List RangeId}

/-- An exactly matching range that is hit is the only range at its addresses. -/
theorem exact_unique (hd : DisjointRanges m0 (.user n)) {r s : RangeId}
    (hr : r ∈ m0.rangeList (.user n)) (hs : s ∈ m0.rangeList (.user n))
    (hex : a.Exact (m0.range s)) {v : U64} (hv : (m0.range r).Contains v) (hc : a.Covers v) :
    r = s := by
  by_contra hne
  refine hd r hr s hs hne v hv ?_
  unfold MappedRange.Contains
  rw [← hex.2.1, ← hex.2.2.1]
  exact hc

/-- The range under the scan keeps addresses outside the window as `x`. -/
theorem PassOwned.keep (h0 : Owned window n (fun _ _ => False) m0) (ha : UserArgs a)
    (hlive : m0.live (.user n) = true) (h : PassOwned window n a m0 (r :: rest) m)
    {x : MappedRange} (hpass : PassInv (.user n) a m0 rest (m.setRange r x))
    (hx : Piece a (m.range r) x)
    (hcov : ∀ v, (m.range r).Contains v → ¬ a.Covers v → x.Contains v)
    (hexact : ¬ a.Exact (m0.range r)) : PassOwned window n a m0 rest (m.setRange r x) := by
  obtain ⟨hr0, hr, hrr, hnot⟩ := h.pass.head
  have hfl : x.pageFlags = (m.range r).pageFlags := hx.pageFlags
  refine ⟨hpass, ?_, ?_, h.live, ?_⟩
  · refine h.owned.reshape (by rw [h.live]; exact hlive) (rangesOnly_setRange _ _ _) hpass.heap
      (fun _ _ => rfl) ?_ ?_ (hpass.disj ha.le (h0.disj n)) ?_
    · intro s hs _
      rw [range_setRange, if_neg (fun he : s = r => hs (he ▸ hr))]
    · intro s hs
      rw [range_setRange]
      split_ifs with hsr
      · exact userRange_piece ha (h.owned.ranges n r hr) hx
      · exact h.owned.ranges n s hs
    · intro s hs f hf hfit
      refine ⟨hs, ?_⟩
      by_cases hsr : s = r
      · subst hsr
        rcases hfit with ⟨hc, hflags⟩ | ⟨hd, -⟩
        · by_cases hcv : a.Covers (m.page f).mappedAddr
          · exact .inr ⟨hnot, hcv, s, hr0, hnot, by rw [← hrr]; exact hc⟩
          · refine .inl ?_
            unfold Fits
            rw [range_setRange, if_pos rfl, hfl]
            exact ⟨hcov _ hc hcv, hflags⟩
        · simp at hd
      · rcases hfit with hfit | hd
        · refine .inl ?_
          unfold Fits
          rw [range_setRange, if_neg hsr]
          exact hfit
        · exact .inr hd.of_cons
  · exact h.foreign.trans (Owned.noNewForeign_rangesOnly (rangesOnly_setRange _ _ _) rfl)
  · intro s hs hhit hex
    rcases List.mem_cons.mp (h.exact_rest s hs hhit hex) with rfl | hs'
    · exact absurd hex hexact
    · exact hs'

section

variable (h0 : Owned window n (fun _ _ => False) m0) (h : PassOwned window n a m0 (r :: rest) m)

include h0 h

/-- The pages of a range that is covered, but not the one asked for, are touched. -/
theorem PassOwned.touches_covered (low : a.base ≤ (m.range r).base)
    (high : (m.range r).end_ ≤ a.end_)
    (exact : a.Exact (m.range r) → (m.range r).pageFlags ≠ a.pageFlags) {v : U64}
    (hv : (m.range r).Contains v) : Touches m0 (.user n) a v := by
  obtain ⟨hr0, hr, hrr, hnot⟩ := h.pass.head
  have hcov : a.Covers v := by
    unfold MappedRange.Contains at hv
    unfold RangeArgs.Covers
    bv_omega
  refine ⟨fun s hs hhit hex => ?_, .inl hcov⟩
  have := exact_unique (h0.disj n) hr0 hs hex (by rwa [← hrr]) hcov
  subst this
  rw [← hrr] at hex ⊢
  exact exact hex

/-- The pages behind the window in a range that is split are touched. -/
theorem PassOwned.touches_tail (ha : UserArgs a) (low : (m.range r).base < a.base)
    (high : a.end_ < (m.range r).end_) {v : U64} (hv : a.end_ ≤ v ∧ v < (m.range r).end_) :
    Touches m0 (.user n) a v := by
  obtain ⟨hr0, hr, hrr, hnot⟩ := h.pass.head
  refine ⟨fun s hs hhit hex _ => ?_, .inr ⟨r, hr0, by rw [← hrr]; exact ⟨low, high, hv⟩⟩⟩
  have hcv : a.Covers a.base := by
    unfold RangeArgs.Hits at hhit
    rw [← hex.2.1, ← hex.2.2.1] at hhit
    unfold RangeArgs.Covers
    bv_omega
  have hvr : (m0.range r).Contains a.base := by
    rw [← hrr]
    unfold MappedRange.Contains
    have := ha.le
    bv_omega
  have := exact_unique (h0.disj n) hr0 hs hex hvr hcv
  subst this
  have he := hex.2.1
  rw [← hrr] at he
  rw [he] at low
  bv_omega

/-- A range that is there as asked for gets the flags of the call; its pages still have the old. -/
theorem PassOwned.reflagged (ha : UserArgs a) (hlive : m0.live (.user n) = true)
    (exact : a.Exact (m.range r)) :
    Owned window n (fun _ v => a.Covers v)
        (m.setRange r { m.range r with pageFlags := a.pageFlags }) ∧
      NoNewForeign m0 (m.setRange r { m.range r with pageFlags := a.pageFlags }) ∧
      Span (m.setRange r { m.range r with pageFlags := a.pageFlags }) n (m.range r).base
        (m.range r).length (some r) := by
  obtain ⟨hr0, hr, hrr, hnot⟩ := h.pass.head
  have hrange := h.owned.ranges n r hr
  have hadd := h.pass.added_found ha.le (h0.disj n) h0.ordered exact
  refine ⟨h.owned.reshape (by rw [h.live]; exact hlive) (rangesOnly_setRange _ _ _) hadd.heap
      (fun _ _ => rfl) ?_ (userRange_added ha hadd (h0.ranges n)) hadd.disj ?_,
    h.foreign.trans (Owned.noNewForeign_rangesOnly (rangesOnly_setRange _ _ _) rfl),
    hrange.span ?_⟩
  · intro s hs _
    rw [range_setRange, if_neg (fun he : s = r => hs (he ▸ hr))]
  · intro s hs f hf hfit
    refine ⟨hs, ?_⟩
    rcases hfit with hfit | hd
    · by_cases hsr : s = r
      · subst hsr
        refine .inr ?_
        unfold RangeArgs.Covers
        rw [exact.2.1, exact.2.2.1]
        exact hfit.1
      · refine .inl ?_
        unfold Fits
        rw [range_setRange, if_neg hsr]
        exact hfit
    · exact .inr hd.2.1
  · intro s hs
    cases hs
    refine ⟨hr, fun v hv => ?_⟩
    rwa [range_setRange, if_pos rfl]

/-- Until the tail of a range that is split is invalidated, its pages are still in the list of the
    lower half. -/
theorem PassOwned.tailOwed (ha : UserArgs a) (hlive : m0.live (.user n) = true)
    (hit : a.Hits (m.range r)) (low : (m.range r).base < a.base) (high : a.end_ < (m.range r).end_) :
    Owned window n (fun s v => Owes n a m0 rest s v ∨ s = r ∧ a.end_ ≤ v ∧ v < (m.range r).end_)
        (splitState m (.user n) a r) ∧
      NoNewForeign m0 (splitState m (.user n) a r) ∧
      Span (splitState m (.user n) a r) n a.end_ ((m.range r).end_ - a.end_) (some m.nextRange) ∧
      ∀ v, InSpan a.end_ ((m.range r).end_ - a.end_) v ↔ a.end_ ≤ v ∧ v < (m.range r).end_ := by
  obtain ⟨hr0, hr, hrr, hnot⟩ := h.pass.head
  have hrange := h.owned.ranges n r hr
  have hlive' : m.live (.user n) = true := by
    rw [h.live]
    exact hlive
  have hspec := splitState_spec m (.user n) a r
  have hrng := range_splitState m (.user n) a r
  have hro := rangesOnly_splitState m (.user n) a r
  have hpass1 := h.pass.split hit low high
  have hrlt : r < m.nextRange := h.pass.heap.lt _ r hr
  have hmem : ∀ s, s ∈ (splitState m (.user n) a r).rangeList (.user n) ↔
      s = m.nextRange ∨ s ∈ m.rangeList (.user n) := by
    intro s
    rw [hspec.perm.mem_iff]
    simp
  have hlq : ∀ q, q ≠ .user n →
      (splitState m (.user n) a r).rangeList q = m.rangeList q := by
    intro q hq
    rw [hspec.rangeList_other q hq]
    simp
  have hhigh : UserRange (splitHigh a (m.range r)) :=
    userRange_piece ha hrange (piece_splitHigh hit low high)
  refine ⟨?_, h.foreign.trans (Owned.noNewForeign_rangesOnly hro (hlq .kernel (by simp))),
    hhigh.span ?_, fun v => ?_⟩
  · refine h.owned.reshape hlive' hro hpass1.heap hlq ?_ ?_
      (hpass1.disj ha.le (h0.disj n)) ?_
    · intro s hs hlt
      rw [hrng, if_neg hlt.ne, if_neg (fun he : s = r => hs (he ▸ hr))]
    · intro s hs
      rw [hrng]
      split_ifs with h1 h2
      · exact userRange_piece ha hrange (piece_splitHigh hit low high)
      · exact userRange_piece ha hrange (piece_splitLow hit low)
      · exact h.owned.ranges n s (((hmem s).mp hs).resolve_left h1)
    · intro s hs f hf hfit
      have hslt : s ≠ m.nextRange := (h.pass.heap.lt _ s hs).ne
      refine ⟨(hmem s).mpr (.inr hs), ?_⟩
      by_cases hsr : s = r
      · subst hsr
        rcases hfit with ⟨hc, hflags⟩ | ⟨hd, -⟩
        · by_cases hcv : a.Covers (m.page f).mappedAddr
          · exact .inr (.inl ⟨hnot, hcv, s, hr0, hnot, by rw [← hrr]; exact hc⟩)
          · by_cases htl : a.end_ ≤ (m.page f).mappedAddr
            · exact .inr (.inr ⟨rfl, htl, hc.2⟩)
            · refine .inl ?_
              unfold Fits
              rw [hrng, if_neg hslt, if_pos rfl, hro.page, hro.entry]
              refine ⟨⟨hc.1, ?_⟩, hflags⟩
              rw [splitLow_end]
              unfold RangeArgs.Covers at hcv
              bv_omega
        · simp at hd
      · rcases hfit with hfit | hd
        · refine .inl ?_
          unfold Fits
          rw [hrng, if_neg hslt, if_neg hsr, hro.page, hro.entry]
          exact hfit
        · exact .inr (.inl hd.of_cons)
  · intro s hs
    cases hs
    refine ⟨(hmem _).mpr (.inl rfl), fun v hv => ?_⟩
    rwa [hrng, if_pos rfl]
  · refine (hhigh.contains_iff v).symm.trans ?_
    unfold MappedRange.Contains
    rw [splitHigh_end]
    rfl

end

/-- The invariant of the scan is kept by every range that does not end it. -/
theorem PassOwned.step (h0 : Owned window n (fun _ _ => False) m0) (ha : UserArgs a)
    (hlive : m0.live (.user n) = true)
    (hmir : ∀ v, LowerPage v → Touches m0 (.user n) a v → ¬ MirrorsKernel m0 n v)
    (h : PassOwned window n a m0 (r :: rest) m) {res : Machine.Resolved}
    (hs : ResolveOne m (.user n) a r res m') (hne : res ≠ .found) :
    PassOwned window n a m0 rest m' := by
  have hpass := h.pass.step hs hne
  obtain ⟨hr0, hr, hrr, hnot⟩ := h.pass.head
  have hrange := h.owned.ranges n r hr
  have hlive' : m.live (.user n) = true := by
    rw [h.live]
    exact hlive
  cases hs with
  | noOverlap miss =>
    refine ⟨hpass, h.owned.mono ?_, h.foreign, h.live, ?_⟩
    · exact fun s _ v _ hd => hd.of_cons
    · intro s hs hhit hex
      rcases List.mem_cons.mp (h.exact_rest s hs hhit hex) with rfl | hs'
      · rw [hrr] at miss
        exact absurd hhit miss
      · exact hs'
  | found => exact absurd rfl hne
  | reflag => exact absurd rfl hne
  | front hit low high =>
    refine h.keep h0 ha hlive hpass (piece_trimFront hit high) ?_ ?_
    · rintro v ⟨h1, h2⟩ hc
      unfold MappedRange.Contains
      rw [trimFront_base, trimFront_end]
      unfold RangeArgs.Covers at hc
      refine ⟨?_, h2⟩
      bv_omega
    · rintro ⟨-, -, he, -⟩
      rw [← hrr] at he
      rw [he] at high
      bv_omega
  | back hit low high =>
    refine h.keep h0 ha hlive hpass (piece_trimBack hit low) ?_ ?_
    · rintro v ⟨h1, h2⟩ hc
      unfold MappedRange.Contains
      rw [trimBack_end]
      unfold RangeArgs.Covers at hc
      refine ⟨h1, ?_⟩
      bv_omega
    · rintro ⟨-, he, -, -⟩
      rw [← hrr] at he
      rw [he] at low
      bv_omega
  | @covered m1 _ hit low high exact run del =>
    have hspan := hrange.contains_iff
    obtain ⟨h1, hfor1⟩ := h.owned.invalidatePages hlive' (hrange.span (by simp))
      (fun v hv hin hm => hmir v hv
        (h.touches_covered h0 low high (fun hex => absurd hex exact) ((hspan v).mpr hin))
        (h.foreign.mirrors n v hv hm)) run
    have ho := pagesOnly_invalidatePages run
    have hempty : m1.list (.range r) = [] := h1.emptied (by rw [ho.rangeList]; exact hr)
      (fun _ hd => hd.1.1 (List.mem_cons_self ..)) (by rw [ho.range]; exact run)
    have hro := deleteRange_empty hempty del
    have hdel := deleteRange_spec del
    have hmem : ∀ s, s ∈ m'.rangeList (.user n) ↔ s ≠ r ∧ s ∈ m1.rangeList (.user n) := by
      intro s
      rw [hdel.rangeList, if_pos rfl]
      exact (h1.heap.nodup _).mem_erase_iff
    refine ⟨hpass, ?_, ?_, ?_, ?_⟩
    · refine h1.reshape (by rw [ho.live]; exact hlive') hro hpass.heap ?_ ?_ ?_
        (hpass.disj ha.le (h0.disj n)) ?_
      · intro q hq
        rw [hdel.rangeList, if_neg hq]
      · intro s _ _
        rw [hdel.range]
      · intro s hs
        rw [hdel.range]
        exact h1.ranges n s ((hmem s).mp hs).2
      · intro s hs f hf hfit
        have hsr : s ≠ r := by
          rintro rfl
          rw [hempty] at hf
          cases hf
        refine ⟨(hmem s).mpr ⟨hsr, hs⟩, ?_⟩
        rcases hfit with hfit | ⟨hd, -⟩
        · refine .inl ?_
          unfold Fits
          rw [hdel.range, hro.page, hro.entry]
          exact hfit
        · exact .inr hd.of_cons
    · refine (h.foreign.trans hfor1).trans (Owned.noNewForeign_rangesOnly hro ?_)
      rw [hdel.rangeList, if_neg (by simp)]
    · rw [hdel.live, ho.live]
      exact h.live
    · intro s hs hhit hex
      rcases List.mem_cons.mp (h.exact_rest s hs hhit hex) with rfl | hs'
      · rw [← hrr] at hex
        exact absurd hex exact
      · exact hs'
  | split hit low high run =>
    obtain ⟨hmid, hfor1, hspan, htail⟩ := h.tailOwed h0 ha hlive hit low high
    have hro := rangesOnly_splitState m (.user n) a r
    obtain ⟨h3, h4⟩ := hmid.invalidatePages (by rw [hro.live]; exact hlive') hspan
      (fun v hv hin hm => hmir v hv (h.touches_tail h0 ha low high ((htail v).mp hin))
        (hfor1.mirrors n v hv hm)) run
    have ho := pagesOnly_invalidatePages run
    refine ⟨hpass, h3.mono ?_, hfor1.trans h4, ?_, ?_⟩
    · rintro s - v - ⟨hd | ⟨-, hd⟩, hout⟩
      · exact hd
      · exact absurd ((htail v).mpr hd) hout
    · rw [ho.live, hro.live]
      exact h.live
    · intro s hs hhit hex
      rcases List.mem_cons.mp (h.exact_rest s hs hhit hex) with rfl | hs'
      · have he := hex.2.1
        rw [← hrr] at he
        rw [he] at low
        bv_omega
      · exact hs'

/-- What the loop does with a range completes if no foreign page is touched. -/
theorem PassOwned.completes (h0 : Owned window n (fun _ _ => False) m0) (ha : UserArgs a)
    (hlive : m0.live (.user n) = true)
    (hfor : ∀ v, LowerPage v → Touches m0 (.user n) a v → ¬ Foreign m0 n v)
    (h : PassOwned window n a m0 (r :: rest) m) : ∃ x, m.resolveOne (.user n) a r = .ok x := by
  obtain ⟨hr0, hr, hrr, hnot⟩ := h.pass.head
  have hrange := h.owned.ranges n r hr
  have hlive' : m.live (.user n) = true := by
    rw [h.live]
    exact hlive
  unfold Machine.resolveOne
  dsimp only
  split_ifs with hmiss low high hexact hflags high
  · exact ⟨_, rfl⟩
  · obtain ⟨hmid, hfor1, hspan⟩ := h.reflagged h0 ha hlive hexact
    obtain ⟨m', hm'⟩ := hmid.invalidatePages_completes hlive' hspan fun v hv hin hf =>
      hfor v hv (h.touches_covered h0 low high (fun _ => hflags) ((hrange.contains_iff v).mpr hin))
        (hfor1.foreign n v hv hf)
    exact ⟨_, by rw [hm']; rfl⟩
  · exact ⟨_, rfl⟩
  · have hmay : ∀ v, LowerPage v → InSpan (m.range r).base (m.range r).length v →
        ¬ Foreign m n v := fun v hv hin hf =>
      hfor v hv (h.touches_covered h0 low high (fun hex => absurd hex hexact)
        ((hrange.contains_iff v).mpr hin)) (h.foreign.foreign n v hv hf)
    have hspan : Span m n (m.range r).base (m.range r).length none := hrange.span (by simp)
    obtain ⟨m1, hm1⟩ := h.owned.invalidatePages_completes hlive' hspan hmay
    obtain ⟨h1, -⟩ := h.owned.invalidatePages hlive' hspan
      (fun v hv hin hm => hmay v hv hin hm.foreign) hm1
    have ho := pagesOnly_invalidatePages hm1
    obtain ⟨m2, hm2⟩ := deleteRange_completes (p := .user n) (h1.emptied
      (by rw [ho.rangeList]; exact hr) (fun _ hd => hd.1.1 (List.mem_cons_self ..))
      (by rw [ho.range]; exact hm1))
    exact ⟨_, by rw [hm1, ok_bind, hm2]; rfl⟩
  · exact ⟨_, rfl⟩
  · exact ⟨_, rfl⟩
  · obtain ⟨hmid, hfor1, hspan, htail⟩ := h.tailOwed h0 ha hlive hmiss (BitVec.not_le.mp low)
      (BitVec.not_le.mp high)
    obtain ⟨m', hm'⟩ := hmid.invalidatePages_completes
      (by rw [(rangesOnly_splitState m (.user n) a r).live]; exact hlive') hspan fun v hv hin hf =>
        hfor v hv (h.touches_tail h0 ha (BitVec.not_le.mp low) (BitVec.not_le.mp high)
          ((htail v).mp hin)) (hfor1.foreign n v hv hf)
    rw [finishAddRange_link _ _ (m.range r).type_ne rfl, ok_bind]
    refine ⟨(.changed, m'), ?_⟩
    rw [← ok_bind m' fun m' => Except.ok (Machine.Resolved.changed, m'), ← hm']
    have hnew := range_splitState m (.user n) a r m.nextRange
    rw [if_pos rfl] at hnew
    show (splitState m (.user n) a r).invalidatePages (.user n)
      ((splitState m (.user n) a r).range m.nextRange).base
      ((splitState m (.user n) a r).range m.nextRange).length _ >>= _ = _
    rw [hnew]
    rfl

end Scan

/-! ## The whole call -/

namespace Owned

variable {window : U64 → Prop} {n : ℕ} {a : RangeArgs} {m m0 m1 m' : Machine}

theorem setCache (h : Owned window n (fun _ _ => False) m) (hlive : m.live (.user n) = true)
    (c : Option RangeId) : Owned window n (fun _ _ => False) (m.setCache (.user n) c) := by
  refine h.reshape hlive (rangesOnly_setCache _ _ _)
    (h.heap.congr (rangeList_setCache m _ · c) rfl)
    (fun q _ => rangeList_setCache m _ q c) (fun _ _ _ => rfl) ?_ ?_ ?_
  · intro r hr
    rw [rangeList_setCache] at hr
    exact h.ranges n r hr
  · exact (h.disj n).congr (rangeList_setCache m _ _ c) rfl
  · intro r hr f _ hfit
    rw [rangeList_setCache]
    refine ⟨hr, hfit.imp (fun hf => ?_) id⟩
    unfold Fits
    rw [(rangesOnly_setCache m _ c).entry]
    exact hf

/-- The ranges are as the call leaves them and range `r` holds the window, whose pages are still
    owed. -/
structure Ready (window : U64 → Prop) (n : ℕ) (a : RangeArgs) (had : Bool) (m0 : Machine)
    (r : RangeId) (m : Machine) : Prop where
  owned : Owned window n (fun _ v => had = true ∧ a.Covers v) m
  foreign : NoNewForeign m0 m
  live : m.live (.user n) = true
  mem : r ∈ m.rangeList (.user n)
  contains : ∀ v, a.Covers v → (m.range r).Contains v

section

variable {had : Bool} {r : RangeId} (h : Ready window n a had m0 r m1) (ha : UserArgs a)

include h ha

theorem Ready.span : Span m1 n a.base a.length (some r) :=
  ha.span fun s hs => by
    cases hs
    exact ⟨h.mem, h.contains⟩

/-- The last step: the pages of the window go to range `r`. -/
theorem Ready.settle (hmir : ∀ v, LowerPage v → a.Covers v → ¬ MirrorsKernel m0 n v)
    (hrun : invalidateIf had m1 (.user n) a r = .ok m') :
    Owned window n (fun _ _ => False) m' ∧ NoNewForeign m0 m' := by
  unfold invalidateIf at hrun
  have hspan := ha.covers_iff
  split_ifs at hrun with hh
  · obtain ⟨h1, h2⟩ := h.owned.invalidatePages h.live (h.span ha) (fun v hv hin hm =>
      hmir v hv ((hspan v).mpr hin) (h.foreign.mirrors n v hv hm)) hrun
    refine ⟨h1.mono ?_, h.foreign.trans h2⟩
    rintro s - v - ⟨⟨-, hcv⟩, hout⟩
    exact hout ((hspan v).mp hcv)
  · cases hrun
    exact ⟨h.owned.mono (fun _ _ _ _ hd => hh hd.1), h.foreign⟩

theorem Ready.completes (hfor : ∀ v, LowerPage v → a.Covers v → ¬ Foreign m0 n v) :
    ∃ m', invalidateIf had m1 (.user n) a r = .ok m' := by
  unfold invalidateIf
  split_ifs
  · exact h.owned.invalidatePages_completes h.live (h.span ha) fun v hv hin hf =>
      hfor v hv ((ha.covers_iff v).mpr hin) (h.foreign.foreign n v hv hf)
  · exact ⟨_, rfl⟩

end

section Finish

variable (h0 : Owned window n (fun _ _ => False) m0) (ha : UserArgs a)
  (hlive : m0.live (.user n) = true) (h : PassOwned window n a m0 [] m1) {had : Bool}
  (hhad : had = false → m1 = m0)

include h

theorem touches_window {v : U64} (hc : a.Covers v) : Touches m0 (.user n) a v :=
  ⟨fun r hr hhit hex => (nomatch h.exact_rest r hr hhit hex), .inl hc⟩

include h0 hhad

theorem window_owed : Owned window n (fun _ v => had = true ∧ a.Covers v) m1 := by
  cases hh : had with
  | true => exact h.owned.mono (fun _ _ _ _ hd => ⟨rfl, hd.2.1⟩)
  | false =>
    rw [hhad hh]
    exact h0.mono (fun _ _ _ _ hd => hd.elim)

include ha hlive

/-- The ranges change first. -/
theorem ready {m2 : Machine} {r : RangeId} (ho : RangesOnly m1 m2)
    (hadd : AddedRange (.user n) a m0 m2)
    (hothers : ∀ q, q ≠ .user n → m2.rangeList q = m1.rangeList q)
    (hrange : ∀ s, s ∉ m1.rangeList (.user n) → s < m1.nextRange → m2.range s = m1.range s)
    (hgrow : ∀ s ∈ m1.rangeList (.user n), s ∈ m2.rangeList (.user n) ∧
      (m2.range s).pageFlags = (m1.range s).pageFlags ∧
      ∀ v, (m1.range s).Contains v → (m2.range s).Contains v)
    (hr : r ∈ m2.rangeList (.user n)) (hc : ∀ v, a.Covers v → (m2.range r).Contains v) :
    Ready window n a had m0 r m2 := by
  have hlive1 : m1.live (.user n) = true := by
    rw [h.live]
    exact hlive
  refine ⟨(window_owed h0 h hhad).reshape hlive1 ho hadd.heap hothers hrange
    (userRange_added ha hadd (h0.ranges n)) hadd.disj ?_,
    h.foreign.trans (noNewForeign_rangesOnly ho (hothers .kernel (by simp))),
    by rw [ho.live]; exact hlive1, hr, hc⟩
  intro r hr f _ hfit
  obtain ⟨h1, h2, h3⟩ := hgrow r hr
  refine ⟨h1, hfit.imp (fun hf => ?_) id⟩
  unfold Fits
  rw [h2, ho.page, ho.entry]
  exact ⟨h3 _ hf.1, hf.2⟩

/-- A range that grows keeps its addresses. -/
theorem ready_grown {r : RangeId} {x : MappedRange} (mem : r ∈ m1.rangeList (.user n))
    (hadd : AddedRange (.user n) a m0 (m1.setRange r x))
    (hflags : x.pageFlags = (m1.range r).pageFlags)
    (hx : ∀ v, (m1.range r).Contains v ∨ a.Covers v → x.Contains v) :
    Ready window n a had m0 r (m1.setRange r x) := by
  refine ready h0 ha hlive h hhad (rangesOnly_setRange _ _ _) hadd (fun _ _ => rfl) ?_ ?_ mem ?_
  · intro s hs _
    rw [range_setRange, if_neg (fun he : s = r => hs (he ▸ mem))]
  · intro s hs
    refine ⟨hs, ?_⟩
    rw [range_setRange]
    split_ifs with hsr
    · subst hsr
      exact ⟨hflags, fun v hv => hx v (.inl hv)⟩
    · exact ⟨rfl, fun _ hv => hv⟩
  · intro v hv
    rw [range_setRange, if_pos rfl]
    exact hx v (.inr hv)

section

variable {r : RangeId} (mem : r ∈ m1.rangeList (.user n)) (anon : a.type = .anonymous)
  (type : a.type = (m1.range r).type) (flags : a.pageFlags = (m1.range r).pageFlags)

include mem anon type flags

theorem ready_growEnd (adj : a.base = (m1.range r).end_) :
    Ready window n a had m0 r (m1.setRange r (growEnd a (m1.range r))) := by
  have hle := (h.owned.ranges n r mem).le
  have hale := ha.le
  refine ready_grown h0 ha hlive h hhad mem (h.pass.added_growEnd h0.ordered ha.le (h0.disj n) mem
    anon type flags adj) rfl fun v hv => ?_
  unfold MappedRange.Contains RangeArgs.Covers at *
  rw [growEnd_end adj, show (growEnd a (m1.range r)).base = (m1.range r).base from rfl]
  bv_omega

theorem ready_growFront (adj : a.end_ = (m1.range r).base) :
    Ready window n a had m0 r (m1.setRange r (growFront a (m1.range r))) := by
  have hle := (h.owned.ranges n r mem).le
  have hale := ha.le
  refine ready_grown h0 ha hlive h hhad mem (h.pass.added_growFront h0.ordered ha.le (h0.disj n) mem
    anon type flags adj) rfl fun v hv => ?_
  unfold MappedRange.Contains RangeArgs.Covers at *
  rw [growFront_end, growFront_base adj]
  bv_omega

end

theorem ready_insert (type : a.type ≠ .none) :
    Ready window n a had m0 m1.nextRange (m1.newRange (.user n) a type).2 := by
  have hspec := newRange_spec m1 (.user n) a type
  have hadd := h.pass.added_insert h0.ordered ha.le (h0.disj n) type hspec
  refine ready h0 ha hlive h hhad hspec.only hadd hspec.rangeList_other ?_ ?_ ?_ ?_
  · intro s _ hlt
    rw [hspec.range, if_neg hlt.ne]
  · intro s hs
    rw [hspec.range, if_neg (h.pass.heap.lt _ s hs).ne]
    refine ⟨?_, rfl, fun _ hv => hv⟩
    rw [hspec.perm.mem_iff]
    exact List.mem_cons_of_mem _ hs
  · rw [hspec.perm.mem_iff]
    simp
  · intro v hv
    rw [hspec.range, if_pos rfl]
    exact hv

/-- The part after the overlap loop settles the window. -/
theorem finish (hmir : ∀ v, LowerPage v → Touches m0 (.user n) a v → ¬ MirrorsKernel m0 n v)
    {res : Option RangeId} (hfin : FinishAddRange m1 (.user n) a had res m') :
    Owned window n (fun _ _ => False) m' ∧ NoNewForeign m0 m' := by
  have hmir0 : ∀ v, LowerPage v → a.Covers v → ¬ MirrorsKernel m0 n v :=
    fun v hv hc => hmir v hv (touches_window h hc)
  cases hfin with
  | growEnd merge anon mem type flags adj run =>
    exact (ready_growEnd h0 ha hlive h hhad mem anon type flags adj).settle ha hmir0 run
  | growFront merge anon mem type flags adj run =>
    exact (ready_growFront h0 ha hlive h hhad mem anon type flags adj).settle ha hmir0 run
  | unmap type run =>
    have hspan := ha.covers_iff
    obtain ⟨h1, h2⟩ := (window_owed h0 h hhad).invalidatePages (by rw [h.live]; exact hlive)
      (ha.span (by simp)) (fun v hv hin hm =>
        hmir0 v hv ((hspan v).mpr hin) (h.foreign.mirrors n v hv hm)) run
    refine ⟨h1.mono ?_, h.foreign.trans h2⟩
    rintro s - v - ⟨⟨-, hcv⟩, hout⟩
    exact hout ((hspan v).mp hcv)
  | insert type run => exact (ready_insert h0 ha hlive h hhad type).settle ha hmir0 run

theorem finish_completes
    (hfor : ∀ v, LowerPage v → Touches m0 (.user n) a v → ¬ Foreign m0 n v) :
    ∃ x, m1.finishAddRange (.user n) a had = .ok x := by
  have hfor0 : ∀ v, LowerPage v → a.Covers v → ¬ Foreign m0 n v :=
    fun v hv hc => hfor v hv (touches_window h hc)
  unfold Machine.finishAddRange
  dsimp only
  split
  · rename_i r atEnd ht
    split_ifs at ht with hc
    obtain ⟨mem, type, flags, adj⟩ := mergeTarget_spec ht
    obtain ⟨m', hm'⟩ : ∃ m', invalidateIf had (m1.setRange r (if atEnd then
        growEnd a (m1.range r) else growFront a (m1.range r))) (.user n) a r = .ok m' := by
      cases atEnd with
      | true =>
        exact (ready_growEnd h0 ha hlive h hhad mem hc.2 type flags (by simpa using adj)).completes
          ha hfor0
      | false =>
        exact (ready_growFront h0 ha hlive h hhad mem hc.2 type flags (by simpa using adj)).completes
          ha hfor0
    exact ⟨(none, m'), bind_ok_iff.mpr ⟨m', hm', rfl⟩⟩
  · by_cases hnone : a.type = .none
    · rw [dif_pos hnone]
      obtain ⟨m', hm'⟩ := (window_owed h0 h hhad).invalidatePages_completes
        (by rw [h.live]; exact hlive) (show Span m1 n a.base a.length none from ha.span (by simp))
        fun v hv hin hf => hfor0 v hv ((ha.covers_iff v).mpr hin) (h.foreign.foreign n v hv hf)
      exact ⟨(none, m'), bind_ok_iff.mpr ⟨m', hm', rfl⟩⟩
    · rw [dif_neg hnone]
      obtain ⟨m', hm'⟩ := (ready_insert h0 ha hlive h hhad hnone).completes ha hfor0
      exact ⟨(some m1.nextRange, m'), bind_ok_iff.mpr ⟨m', hm', rfl⟩⟩

end Finish

/-- A range that is returned early gets the flags of the call, and so do its pages. -/
theorem reflag (h0 : Owned window n (fun _ _ => False) m0) (ha : UserArgs a)
    (hlive : m0.live (.user n) = true)
    (hmir : ∀ v, LowerPage v → Touches m0 (.user n) a v → ¬ MirrorsKernel m0 n v)
    {r : RangeId} {rest : List RangeId} (h : PassOwned window n a m0 (r :: rest) m1)
    (hone : ResolveOne m1 (.user n) a r .found m') :
    Owned window n (fun _ _ => False) m' ∧ NoNewForeign m0 m' := by
  obtain ⟨hr0, hr, hrr, hnot⟩ := h.pass.head
  cases hone with
  | found hit exact flags =>
    refine ⟨h.owned.mono ?_, h.foreign⟩
    rintro s - v - ⟨-, hc, t, ht, hnt, hv⟩
    rw [hrr] at exact
    have := exact_unique (h0.disj n) ht hr0 exact hv hc
    rw [this] at hnt
    simp at hnt
  | reflag hit exact flags run =>
    have hrange := h.owned.ranges n r hr
    obtain ⟨hmid, hfor1, hspan⟩ := h.reflagged h0 ha hlive exact
    obtain ⟨h1, h2⟩ := hmid.invalidatePages (by rw [← h.live] at hlive; exact hlive) hspan
      (fun v hv hin hm => hmir v hv (h.touches_covered h0 (by rw [exact.2.1]; exact BitVec.le_refl _)
        (by rw [exact.2.2.1]; exact BitVec.le_refl _) (fun _ => flags) ((hrange.contains_iff v).mpr hin)) (hfor1.mirrors n v hv hm)) run
    refine ⟨h1.mono ?_, hfor1.trans h2⟩
    rintro s - v - ⟨hc, hout⟩
    refine hout ((hrange.contains_iff v).mp ?_)
    unfold MappedRange.Contains
    rw [← exact.2.1, ← exact.2.2.1]
    exact hc

theorem start (h : Owned window n (fun _ _ => False) m) (hlive : m.live (.user n) = true) :
    Owned window n (fun _ _ => False) (m.clearCache (.user n)) ∧
      NoNewForeign m (m.clearCache (.user n)) ∧
      (∀ v, Touches (m.clearCache (.user n)) (.user n) a v → Touches m (.user n) a v) ∧
      PassOwned window n a (m.clearCache (.user n)) (m.rangeList (.user n))
        (m.clearCache (.user n)) := by
  have h0 : Owned window n (fun _ _ => False) (m.clearCache (.user n)) := h.setCache hlive none
  refine ⟨h0, noNewForeign_rangesOnly (rangesOnly_clearCache m (.user n))
    (rangeList_clearCache m _ .kernel), fun v ht => ?_, ?_⟩
  · unfold Touches at ht ⊢
    rw [rangeList_clearCache] at ht
    exact ht
  · have hp := PassInv.start (p := .user n) a h0.heap
    rw [rangeList_clearCache] at hp
    refine ⟨hp, h0.mono (fun _ _ _ _ hd => hd.elim), .refl _, rfl, ?_⟩
    intro r hr _ _
    rwa [rangeList_clearCache] at hr

/-- What the scan keeps. -/
def Scans (window : U64 → Prop) (n : ℕ) (a : RangeArgs) (m0 : Machine) (rest : List RangeId)
    (had : Bool) (m : Machine) : Prop :=
  PassOwned window n a m0 rest m ∧ (had = false → m = m0)

section

variable (h0 : Owned window n (fun _ _ => False) m0) (ha : UserArgs a)
  (hlive : m0.live (.user n) = true)
  (hmir : ∀ v, LowerPage v → Touches m0 (.user n) a v → ¬ MirrorsKernel m0 n v)

include h0 ha hlive hmir

theorem scans_miss (r : RangeId) (rest : List RangeId) (again : Bool) (s : Machine)
    (h : Scans window n a m0 (r :: rest) again s) (miss : ¬ a.Hits (s.range r)) :
    Scans window n a m0 rest again s :=
  ⟨h.1.step h0 ha hlive hmir (.noOverlap miss) (by decide), h.2⟩

theorem scans_changed (r : RangeId) (rest : List RangeId) (again : Bool) (s s' : Machine)
    (h : Scans window n a m0 (r :: rest) again s) (hone : ResolveOne s (.user n) a r .changed s') :
    Scans window n a m0 rest true s' :=
  ⟨h.1.step h0 ha hlive hmir hone (by decide), nofun⟩

end

/-- **Main theorem.** A call of `add_range` with page-aligned lower-half arguments that touches
    no page mirroring the kernel keeps the ownership invariant. -/
theorem addRange (h : Owned window n (fun _ _ => False) m) (hlive : m.live (.user n) = true)
    (ha : UserArgs a) (hover : a.resolveOverlap = true)
    (hmir : ∀ v, LowerPage v → Touches m (.user n) a v → ¬ MirrorsKernel m n v)
    {res : Option RangeId} (hrun : m.addRange (.user n) a = .ok (res, m')) :
    Owned window n (fun _ _ => False) m' ∧ NoNewForeign m m' := by
  obtain ⟨h0, hfor, htouch, hstart⟩ := h.start (a := a) hlive
  have hmir0 : ∀ v, LowerPage v → Touches (m.clearCache (.user n)) (.user n) a v →
      ¬ MirrorsKernel (m.clearCache (.user n)) n v := fun v hv ht hm =>
    hmir v hv (htouch v ht) (hfor.mirrors n v hv hm)
  rcases addRange_rule (scans_miss h0 ha hlive hmir0) (scans_changed h0 ha hlive hmir0) h.heap hover
    ⟨hstart, fun _ => rfl⟩ hrun with ⟨r, rest, again, m1, -, hP, hone⟩ | ⟨had, m1, hP, hfin⟩
  · obtain ⟨h1, h2⟩ := h0.reflag ha hlive hmir0 hP.1 hone
    exact ⟨h1, hfor.trans h2⟩
  · obtain ⟨h1, h2⟩ := finish h0 ha hlive hP.1 hP.2 hmir0 hfin
    exact ⟨h1, hfor.trans h2⟩

theorem addRange_completes (h : Owned window n (fun _ _ => False) m)
    (hlive : m.live (.user n) = true) (ha : UserArgs a) (hover : a.resolveOverlap = true)
    (hfor : ∀ v, LowerPage v → Touches m (.user n) a v → ¬ Foreign m n v) :
    ∃ x, m.addRange (.user n) a = .ok x := by
  obtain ⟨h0, hnew, htouch, hstart⟩ := h.start (a := a) hlive
  have hfor0 : ∀ v, LowerPage v → Touches (m.clearCache (.user n)) (.user n) a v →
      ¬ Foreign (m.clearCache (.user n)) n v := fun v hv ht hf =>
    hfor v hv (htouch v ht) (hnew.foreign n v hv hf)
  have hmir0 := fun v hv ht hm => hfor0 v hv ht (MirrorsKernel.foreign hm)
  have hmiss := scans_miss h0 ha hlive hmir0
  have hstep := scans_changed h0 ha hlive hmir0
  obtain ⟨⟨found, had, m1⟩, hpass⟩ := resolvePass_completes hmiss hstep
    (fun r rest again s hP => hP.1.completes h0 ha hlive hfor0) ⟨hstart, fun _ => rfl⟩
  unfold Machine.addRange
  dsimp only
  rw [if_pos hover, resolveLoop_eq _ _ _ (h.heap.clearCache _), rangeList_clearCache, hpass, ok_bind]
  rcases resolvePass_rule hmiss hstep ⟨hstart, fun _ => rfl⟩ hpass with ⟨rfl, hP⟩ |
    ⟨r, rest, m2, rfl, -⟩
  · exact finish_completes h0 ha hlive hP.1 hP.2 hfor0
  · exact ⟨_, rfl⟩

end Owned

end Fishix.Mem
