import Fishix.Mem.Program

/-!
# The order of the range list

`add_range` links a new range behind the first node whose successor has a larger base
(mem/vmm.cpp:477-485). The scan starts at the first node, so that nothing is ever linked in front
of it: a range below all that are left goes to the second place. `mmap` takes the address for
`MAP_FIXED` as it is, and rounds a length of the last page of the address space to `0`.

* `insertRangeId_pairwise_iff`: when the insertion keeps the order.
* `addRange_sorted_iff`: when a call of `add_range` does.
* `inOrder_run`: the lists along runs of `mmap`, `munmap`, `mprotect`, `brk` and `fork`.
* `mmap_out_of_order`: a mapping below the binary.
-/

namespace Fishix.Mem

/-! ## Lists in order -/

/-- The range consists of pages, is not empty and does not wrap around. -/
structure MappedRange.Whole (e : MappedRange) : Prop where
  base : PageAligned e.base
  length : PageAligned e.length
  nonempty : 0 < e.length.toNat
  fits : e.base.toNat + e.length.toNat < 2 ^ 64

/-- The list of a page map is sorted by strictly increasing base, and its ranges are whole. -/
structure InOrder (m : Machine) (p : PagemapId) : Prop where
  sorted : (m.ranges p).Pairwise fun e f => e.base < f.base
  whole : ∀ e ∈ m.ranges p, e.Whole

/-- The list is sorted by strictly increasing base. -/
def SortedRanges (m : Machine) (p : PagemapId) : Prop :=
  (m.rangeList p).Pairwise fun r s => (m.range r).base < (m.range s).base

theorem sorted_ranges_iff (m : Machine) (p : PagemapId) :
    ((m.ranges p).Pairwise fun e f => e.base < f.base) ↔ SortedRanges m p := List.pairwise_map

/-- A window of whole pages ends in front of the end of the address space iff its end is above its
    base. -/
theorem whole_window_iff (base length : U64) :
    (PageAligned base ∧ PageAligned length ∧ 0 < length.toNat ∧
      base.toNat + length.toNat < 2 ^ 64) ↔
    PageAligned base ∧ PageAligned (base + length) ∧ base < base + length := by
  have hb := base.isLt
  have hl := length.isLt
  unfold PageAligned
  rw [BitVec.lt_def, BitVec.toNat_add]
  omega

theorem MappedRange.whole_iff (e : MappedRange) :
    e.Whole ↔ PageAligned e.base ∧ PageAligned e.end_ ∧ e.base < e.end_ :=
  ⟨fun ⟨h1, h2, h3, h4⟩ => (whole_window_iff _ _).mp ⟨h1, h2, h3, h4⟩, fun h =>
    have ⟨h1, h2, h3, h4⟩ := (whole_window_iff _ _).mpr h
    ⟨h1, h2, h3, h4⟩⟩

/-! ## The insertion -/

section Insert

variable {base : RangeId → U64} {new : RangeId} {l : List RangeId}

/-- Whatever is linked comes behind the first node. -/
theorem mem_tail_insertRangeId (base : RangeId → U64) (new r : RangeId) (l : List RangeId) :
    ∃ rest, insertRangeId base new (r :: l) = r :: rest ∧ new ∈ rest := by
  cases l with
  | nil => exact ⟨[new], rfl, List.mem_singleton_self new⟩
  | cons next rest =>
    unfold insertRangeId
    split_ifs
    · exact ⟨_, rfl, List.mem_cons_self⟩
    · refine ⟨_, rfl, ?_⟩
      rw [(insertRangeId_perm base new (next :: rest)).mem_iff]
      exact List.mem_cons_self

/-- The insertion keeps the order if and only if the list is empty or starts below the new range. -/
theorem insertRangeId_pairwise_iff (hl : l.Pairwise fun r s => base r < base s)
    (hne : ∀ s ∈ l, base s ≠ base new) :
    ((insertRangeId base new l).Pairwise fun r s => base r < base s) ↔
      ∀ r ∈ l.head?, base r < base new := by
  induction l with
  | nil => simp [insertRangeId]
  | cons r l ih =>
    obtain ⟨hr, hl'⟩ := List.pairwise_cons.mp hl
    constructor
    · intro h s hs
      obtain rfl : r = s := by simpa using hs
      obtain ⟨rest, heq, hmem⟩ := mem_tail_insertRangeId base new r l
      rw [heq] at h
      exact (List.pairwise_cons.mp h).1 new hmem
    · intro h
      have hlow : base r < base new := h r (by simp)
      cases l with
      | nil => simpa [insertRangeId] using hlow
      | cons next rest =>
        unfold insertRangeId
        split_ifs with hnext
        · refine List.pairwise_cons.mpr ⟨fun s hs => ?_,
            List.pairwise_cons.mpr ⟨fun s hs => ?_, hl'⟩⟩
          · rcases List.mem_cons.mp hs with rfl | hs
            · exact hlow
            · exact hr s hs
          · rcases List.mem_cons.mp hs with rfl | hs
            · exact hnext
            · exact BitVec.lt_trans hnext ((List.pairwise_cons.mp hl').1 s hs)
        · have hbelow : base next < base new := by
            have := hne next (by simp)
            bv_omega
          refine List.pairwise_cons.mpr ⟨fun s hs => ?_, ?_⟩
          · rw [(insertRangeId_perm base new (next :: rest)).mem_iff] at hs
            rcases List.mem_cons.mp hs with rfl | hs
            · exact hlow
            · exact hr s hs
          · refine (ih hl' fun s hs => hne s (List.mem_cons_of_mem _ hs)).mpr fun s hs => ?_
            obtain rfl : next = s := by simpa using hs
            exact hbelow

end Insert

/-! ## The overlap loop -/

section Loop

variable {p : PagemapId} {a : RangeArgs} {m m0 m' : Machine} {r : RangeId}

section

variable (h : SortedRanges m p)

include h

theorem SortedRanges.congr (hl : m'.rangeList p = m.rangeList p)
    (hb : ∀ r ∈ m.rangeList p, (m'.range r).base = (m.range r).base) : SortedRanges m' p := by
  unfold SortedRanges at h ⊢
  rw [hl]
  refine h.imp_of_mem fun hr hs hlt => ?_
  rw [hb _ hr, hb _ hs]
  exact hlt

theorem SortedRanges.pagesOnly (ho : PagesOnly m m') : SortedRanges m' p :=
  h.congr (ho.rangeList p) fun _ _ => by rw [ho.range]

theorem SortedRanges.move {x : MappedRange}
    (hlow : ∀ s ∈ m.rangeList p, (m.range s).base < (m.range r).base → (m.range s).base < x.base)
    (hhigh : ∀ s ∈ m.rangeList p, (m.range r).base < (m.range s).base → x.base < (m.range s).base) :
    SortedRanges (m.setRange r x) p := by
  refine h.imp_of_mem fun {s t} hs ht hlt => ?_
  rw [range_setRange, range_setRange]
  by_cases hsr : s = r
  · subst hsr
    have hts : t ≠ s := fun heq => BitVec.lt_irrefl _ (heq ▸ hlt)
    rw [if_pos rfl, if_neg hts]
    exact hhigh t ht hlt
  · rw [if_neg hsr]
    split_ifs with htr
    · subst htr
      exact hlow s hs hlt
    · exact hlt

theorem SortedRanges.head_le {s : RangeId} (hs : s ∈ (m.rangeList p).head?) (hr : r ∈ m.rangeList p)
    : (m.range s).base ≤ (m.range r).base := by
  unfold SortedRanges at h
  obtain ⟨rest, hl⟩ : ∃ rest, m.rangeList p = s :: rest := List.head?_eq_some_iff.mp hs
  rw [hl] at h hr
  rcases List.mem_cons.mp hr with rfl | hr
  · exact BitVec.le_refl _
  · exact BitVec.le_of_lt ((List.pairwise_cons.mp h).1 r hr)

/-- Linking a new range keeps the order if and only if it does not come first. -/
theorem sorted_newRange_iff (hm : HeapOk m) (hty : a.type ≠ .none)
    (hne : ∀ s ∈ m.rangeList p, (m.range s).base ≠ a.base) :
    SortedRanges (m.newRange p a hty).2 p ↔
      ∀ s ∈ (m.rangeList p).head?, (m.range s).base < a.base := by
  have hspec := newRange_spec m p a hty
  have hnew : ((m.newRange p a hty).2.range m.nextRange).base = a.base := by
    rw [hspec.range, if_pos rfl]
    rfl
  have hold : ∀ s ∈ m.rangeList p, (m.newRange p a hty).2.range s = m.range s := by
    intro s hs
    rw [hspec.range, if_neg (hm.lt p s hs).ne]
  have hlist : (m.newRange p a hty).2.rangeList p =
      insertRangeId (fun i => ((m.newRange p a hty).2.range i).base) m.nextRange
        (m.rangeList p) := by
    unfold Machine.newRange
    dsimp only
    rw [rangeList_setRangeList, if_pos rfl, rangeList_addRefCount]
    rfl
  unfold SortedRanges at h ⊢
  rw [hlist, insertRangeId_pairwise_iff]
  · constructor
    · intro hh s hs
      have := hh s hs
      rwa [hnew, hold s (List.mem_of_mem_head? hs)] at this
    · intro hh s hs
      rw [hnew, hold s (List.mem_of_mem_head? hs)]
      exact hh s hs
  · refine h.imp_of_mem fun hs ht hlt => ?_
    rw [hold _ hs, hold _ ht]
    exact hlt
  · intro s hs
    rw [hnew, hold s hs]
    exact hne s hs

end

/-- What is left of ranges that are not empty is not empty. -/
theorem PassInv.nonempty {rest : List RangeId} (h : PassInv p a m0 rest m)
    (hne : ∀ r ∈ m0.rangeList p, (m0.range r).base < (m0.range r).end_) :
    ∀ r ∈ m.rangeList p, (m.range r).base < (m.range r).end_ := by
  intro r hr
  obtain ⟨r0, hr0, hpiece, -⟩ := h.sound r hr
  exact hpiece.lt (hne r0 hr0)

/-- Another range of the list does not begin inside of `r`. -/
theorem base_not_inside (hd : DisjointRanges m p)
    (hne : ∀ r ∈ m.rangeList p, (m.range r).base < (m.range r).end_) (hr : r ∈ m.rangeList p)
    {s : RangeId} (hs : s ∈ m.rangeList p) (hsr : s ≠ r) :
    ¬(m.range r).Contains (m.range s).base :=
  fun hin => hd r hr s hs hsr.symm _ hin ⟨BitVec.le_refl _, hne s hs⟩

theorem PassInv.sorted_step {rest : List RangeId} (h : PassInv p a m0 (r :: rest) m)
    (hd : DisjointRanges m0 p) (hne : ∀ r ∈ m0.rangeList p, (m0.range r).base < (m0.range r).end_)
    (hle : a.base ≤ a.end_) (hs : SortedRanges m p) (hone : ResolveOne m p a r .changed m') :
    SortedRanges m' p := by
  have hr : r ∈ m.rangeList p := (h.rest_mem r (by simp)).2.1
  have hd' := h.disj hle hd
  have hne' := h.nonempty hne
  cases hone with
  | covered hit low high exact run del =>
    have hs1 := hs.pagesOnly (pagesOnly_invalidatePages run)
    have hspec := deleteRange_spec del
    unfold SortedRanges at hs1 ⊢
    rw [hspec.range, hspec.rangeList, if_pos rfl]
    exact hs1.sublist List.erase_sublist
  | front hit low high =>
    unfold RangeArgs.Hits at hit
    refine hs.move (fun t ht hlt => ?_) fun t ht hlt => ?_
    · rw [trimFront_base]
      bv_omega
    · rw [trimFront_base]
      have htr : t ≠ r := fun heq => BitVec.lt_irrefl _ (heq ▸ hlt)
      have hout := base_not_inside hd' hne' hr ht htr
      unfold MappedRange.Contains at hout
      bv_omega
  | back hit low high => exact hs.move (fun _ _ h => h) fun _ _ h => h
  | split hit low high run =>
    refine SortedRanges.pagesOnly ?_ (pagesOnly_invalidatePages run)
    -- the first half stays where it is
    have hlow : SortedRanges ((m.setRange r (splitLow a (m.range r))).clearCache p) p := by
      refine SortedRanges.congr (hs.move (x := splitLow a (m.range r)) (fun _ _ h => h)
        fun _ _ h => h) (rangeList_clearCache _ p p) fun _ _ => rfl
    have hheap : HeapOk ((m.setRange r (splitLow a (m.range r))).clearCache p) :=
      (show HeapOk (m.setRange r _) from h.heap.congr (fun _ => rfl) rfl).clearCache p
    have hbase : ∀ t, (((m.setRange r (splitLow a (m.range r))).clearCache p).range t).base =
        (m.range t).base := by
      intro t
      rw [range_clearCache, range_setRange]
      split_ifs with htr
      · rw [htr]
        rfl
      · rfl
    refine (sorted_newRange_iff hlow hheap (m.range r).type_ne fun t ht => ?_).mpr fun t ht => ?_
    · rw [rangeList_clearCache] at ht
      rw [hbase]
      intro heq
      have heq' : (m.range t).base = a.end_ := heq
      by_cases htr : t = r
      · subst htr
        bv_omega
      · refine base_not_inside hd' hne' hr ht htr ?_
        rw [heq']
        exact ⟨by bv_omega, high⟩
    · have hle' := hlow.head_le ht (r := r) (by rw [rangeList_clearCache]; exact hr)
      rw [hbase, hbase] at hle'
      rw [hbase]
      have hend : (Machine.splitArgs a (m.range r)).base = a.end_ := rfl
      rw [hend]
      bv_omega

/-! ## A call of `add_range` -/

/-- The range starts in the window of the call or right behind it, is not all in it, and is of its
    kind: the call merges with what is left of it. -/
def RangeArgs.Joins (a : RangeArgs) (e : MappedRange) : Prop :=
  a.merge = true ∧ a.type = .anonymous ∧ e.type = .anonymous ∧ e.pageFlags = a.pageFlags ∧
    a.base ≤ e.base ∧ e.base ≤ a.end_ ∧ a.end_ < e.end_

/-- A range that begins below the window stays, or no range stays, or none is linked because the
    call matches a range exactly or joins one. -/
def RangeArgs.InPlace (m : Machine) (p : PagemapId) (a : RangeArgs) : Prop :=
  (∃ r ∈ m.rangeList p, (m.range r).base < a.base) ∨
    (∀ r ∈ m.rangeList p, a.base ≤ (m.range r).base ∧ (m.range r).end_ ≤ a.end_) ∨
    (∃ r ∈ m.rangeList p, a.Exact (m.range r)) ∨ ∃ r ∈ m.rangeList p, a.Joins (m.range r)

/-- What comes first after the overlap loop begins below the window. -/
theorem PassInv.head_below_iff (h : PassInv p a m0 [] m) (hs : SortedRanges m p)
    (hne : ∀ r ∈ m0.rangeList p, (m0.range r).base < (m0.range r).end_) :
    (∀ r ∈ (m.rangeList p).head?, (m.range r).base < a.base) ↔
      (∃ r ∈ m0.rangeList p, (m0.range r).base < a.base) ∨
        ∀ r ∈ m0.rangeList p, a.base ≤ (m0.range r).base ∧ (m0.range r).end_ ≤ a.end_ := by
  have hne' := h.nonempty hne
  constructor
  · intro hh
    rcases Option.eq_none_or_eq_some (m.rangeList p).head? with hnil | ⟨r, hr⟩
    · -- every address of every range was in the window
      right
      rw [List.head?_eq_none_iff] at hnil
      have hcov : ∀ r ∈ m0.rangeList p, ∀ v, (m0.range r).Contains v → a.Covers v := by
        intro r hr v hv
        by_contra hc
        obtain ⟨s, hs, -⟩ := h.complete r hr v hv hc
        rw [hnil] at hs
        cases hs
      intro r hr
      have hlt := hne r hr
      have hfirst := hcov r hr (m0.range r).base ⟨BitVec.le_refl _, hlt⟩
      have hlast := hcov r hr ((m0.range r).end_ - 1#64) ⟨by bv_omega, by bv_omega⟩
      unfold RangeArgs.Covers at hfirst hlast
      exact ⟨hfirst.1, by bv_omega⟩
    · left
      have hmem := List.mem_of_mem_head? hr
      obtain ⟨r0, hr0, hpiece, -⟩ := h.sound r hmem
      have hin := (hpiece.sub _ ⟨BitVec.le_refl _, hne' r hmem⟩).1
      have hlow := hh r hr
      exact ⟨r0, hr0, by bv_omega⟩
  · rintro (⟨r0, hr0, hlow⟩ | hall) r hr
    · have hc : ¬a.Covers (m0.range r0).base := fun hc => by
        have := hc.1
        bv_omega
      obtain ⟨s, hs', hv, -⟩ := h.complete r0 hr0 _ ⟨BitVec.le_refl _, hne r0 hr0⟩ hc
      have hle := hs.head_le hr hs'
      bv_omega
    · have hmem := List.mem_of_mem_head? hr
      obtain ⟨r0, hr0, hpiece, -⟩ := h.sound r hmem
      have hin := hpiece.sub _ ⟨BitVec.le_refl _, hne' r hmem⟩
      have hmiss := not_covers_of_miss (h.done r hmem (by simp)) ⟨BitVec.le_refl _, hne' r hmem⟩
      obtain ⟨h1, h2⟩ := hall r0 hr0
      refine absurd ⟨BitVec.le_trans h1 hin.1, ?_⟩ hmiss
      have := hin.2
      bv_omega

/-- What the part after the loop does to the order. -/
theorem PassInv.sorted_finish (h : PassInv p a m0 [] m) (hs : SortedRanges m p)
    (hne : ∀ r ∈ m0.rangeList p, (m0.range r).base < (m0.range r).end_)
    (hlt : a.type ≠ .none → a.base < a.end_) {had : Bool} {res : Option RangeId}
    (hfin : FinishAddRange m p a had res m') :
    SortedRanges m' p ↔
      (∀ r ∈ (m.rangeList p).head?, (m.range r).base < a.base) ∨ res = none := by
  have hne' := h.nonempty hne
  have hmiss : ∀ s ∈ m.rangeList p, a.base ≥ (m.range s).end_ ∨ a.end_ ≤ (m.range s).base :=
    fun s hs' => not_not.mp (h.done s hs' (by simp))
  cases hfin with
  | growEnd merge anon mem type flags adj run =>
    refine iff_of_true (SortedRanges.pagesOnly ?_ (pagesOnly_invalidateIf run)) (.inr rfl)
    exact hs.move (fun _ _ h => h) fun _ _ h => h
  | @growFront r m1 merge anon mem type flags adj run =>
    refine iff_of_true (SortedRanges.pagesOnly ?_ (pagesOnly_invalidateIf run)) (.inr rfl)
    have hlt' := hlt (by rw [anon]; decide)
    have hbase := growFront_base adj
    refine hs.move (fun s hs' hbelow => ?_) fun s hs' habove => ?_
    · rw [hbase]
      have := hmiss s hs'
      have := hne' s hs'
      bv_omega
    · rw [hbase]
      bv_omega
  | unmap type run =>
    exact iff_of_true (hs.pagesOnly (pagesOnly_invalidatePages run)) (.inr rfl)
  | insert type run =>
    have hpages := pagesOnly_invalidateIf run
    have hlt' := hlt type
    have hnew := sorted_newRange_iff hs h.heap type fun s hs' => by
      have := hmiss s hs'
      have := hne' s hs'
      bv_omega
    rw [or_iff_left (by simp), ← hnew]
    refine ⟨fun hs' => ?_, fun hs' => hs'.pagesOnly hpages⟩
    refine hs'.congr (hpages.rangeList p).symm fun _ _ => ?_
    rw [hpages.range]

/-- The merge loop finds a range that starts where the window ends, or an earlier one. -/
theorem mergeTarget_of_mem {rs : List RangeId} (hr : r ∈ rs) (htype : a.type = (m.range r).type)
    (hflags : a.pageFlags = (m.range r).pageFlags) (hadj : a.end_ = (m.range r).base) :
    m.mergeTarget a rs ≠ none := by
  induction rs with
  | nil => cases hr
  | cons s rs ih =>
    unfold Machine.mergeTarget
    dsimp only
    split_ifs with h1 h2 h3
    · simp
    · simp
    · rcases List.mem_cons.mp hr with rfl | hr
      · exact absurd hadj h3
      · exact ih hr
    · rcases List.mem_cons.mp hr with rfl | hr
      · exact absurd ⟨htype, hflags⟩ h1
      · exact ih hr

theorem finishAddRange_merges {had : Bool} {res : Option RangeId} (hmerge : a.merge = true)
    (hanon : a.type = .anonymous) (htarget : m.mergeTarget a (m.rangeList p) ≠ none)
    (h : m.finishAddRange p a had = .ok (res, m')) : res = none := by
  unfold Machine.finishAddRange at h
  dsimp only at h
  rw [if_pos ⟨hmerge, hanon⟩] at h
  split at h
  · obtain ⟨m1, -, h⟩ := bind_ok h
    exact (pure_pair h).1.symm
  · next hnone => exact absurd hnone htarget

theorem PassInv.joined (h : PassInv p a m0 [] m) (hd : DisjointRanges m0 p)
    {r0 : RangeId} (hr0 : r0 ∈ m0.rangeList p) (hj : a.Joins (m0.range r0)) :
    m.mergeTarget a (m.rangeList p) ≠ none := by
  obtain ⟨-, hanon, htype, hflags, hlow, hstart, hend⟩ := hj
  have hnot : ¬a.Covers a.end_ := fun hc => BitVec.lt_irrefl _ hc.2
  obtain ⟨r, hr, hin⟩ := h.complete r0 hr0 a.end_ ⟨hstart, hend⟩ hnot
  obtain ⟨s0, hs0, hpiece, -⟩ := h.sound r hr
  obtain rfl : s0 = r0 := by
    by_contra hne
    exact hd s0 hs0 r0 hr0 hne a.end_ (hpiece.sub _ hin) ⟨hstart, hend⟩
  refine mergeTarget_of_mem hr ?_ ?_ ?_
  · rw [hpiece.type, htype, hanon]
  · rw [hpiece.pageFlags, hflags]
  · have hmiss := h.done r hr (by simp)
    unfold RangeArgs.Hits at hmiss
    have h1 := hin.1
    have h2 := hin.2
    bv_omega

/-- A call of `add_range` keeps the order if and only if it links no range or the new one does not
    come first. -/
theorem addRange_sorted_iff (hm : HeapOk m) (hd : DisjointRanges m p)
    (hne : ∀ r ∈ m.rangeList p, (m.range r).base < (m.range r).end_) (hs : SortedRanges m p)
    (hle : a.base ≤ a.end_) (hlt : a.type ≠ .none → a.base < a.end_)
    (hover : a.resolveOverlap = true) {res : Option RangeId}
    (hrun : m.addRange p a = .ok (res, m')) :
    SortedRanges m' p ↔ a.type = .none ∨ a.InPlace m p := by
  -- a range that is met exactly stays ahead of the scan
  let P : List RangeId → Bool → Machine → Prop := fun rest _ s =>
    PassInv p a m rest s ∧ SortedRanges s p ∧ ∀ r ∈ m.rangeList p, a.Exact (m.range r) → r ∈ rest
  have hhits : ∀ r ∈ m.rangeList p, a.Exact (m.range r) → a.Hits (m.range r) := by
    rintro r hr ⟨-, h1, h2, -⟩
    have := hne r hr
    unfold RangeArgs.Hits
    bv_omega
  have hmiss : ∀ t rest again s, P (t :: rest) again s → ¬a.Hits (s.range t) → P rest again s := by
    rintro t rest again s ⟨hinv, hsort, hex⟩ miss
    refine ⟨hinv.step (.noOverlap miss) (by decide), hsort, fun r hr hexact => ?_⟩
    rcases List.mem_cons.mp (hex r hr hexact) with rfl | hrest
    · rw [(hinv.rest_mem r (by simp)).2.2] at miss
      exact absurd (hhits r hr hexact) miss
    · exact hrest
  have hstep : ∀ t rest again s s', P (t :: rest) again s → ResolveOne s p a t .changed s' →
      P rest true s' := by
    rintro t rest again s s' ⟨hinv, hsort, hex⟩ hone
    refine ⟨hinv.step hone (by decide), hinv.sorted_step hd hne hle hsort hone,
      fun r hr hexact => ?_⟩
    rcases List.mem_cons.mp (hex r hr hexact) with rfl | hrest
    · exfalso
      rw [← (hinv.rest_mem r (by simp)).2.2] at hexact
      have h1 := hexact.2.1
      have h2 := hexact.2.2.1
      cases hone with
      | covered _ _ _ hnot => exact hnot hexact
      | front _ _ high => bv_omega
      | back _ low _ => bv_omega
      | split _ low _ _ => bv_omega
    · exact hrest
  have hstart : P (m.rangeList p) false (m.clearCache p) :=
    ⟨(PassInv.start a hm).congr (rangeList_clearCache m p) rfl rfl,
      hs.congr (rangeList_clearCache m p p) fun _ _ => rfl, fun r hr _ => hr⟩
  rcases addRange_rule_run hmiss hstep hm hover hstart hrun with
    ⟨r, rest, again, m1, -, ⟨hinv, hsort, -⟩, hone⟩ | ⟨had, m1, ⟨hinv, hsort, hex⟩, hfin⟩
  · -- the call ends at a range that is met exactly
    obtain ⟨hmem, -, hrange⟩ := hinv.rest_mem r (by simp)
    have hexact : a.Exact (m1.range r) := by
      cases hone with
      | found _ exact _ => exact exact
      | reflag _ exact _ _ => exact exact
    refine iff_of_true ?_ (.inr (.inr (.inr (.inl ⟨r, hmem, hrange ▸ hexact⟩))))
    cases hone with
    | found => exact hsort
    | reflag _ _ _ run =>
      exact (hsort.move (x := { m1.range r with pageFlags := a.pageFlags }) (fun _ _ h => h)
        fun _ _ h => h).pagesOnly (pagesOnly_invalidatePages run)
  · have hcases := finishAddRange_cases hfin
    rw [hinv.sorted_finish hsort hne hlt hcases, hinv.head_below_iff hsort hne]
    have hne' := hinv.nonempty hne
    constructor
    · rintro ((hlow | hall) | hnone)
      · exact .inr (.inl hlow)
      · exact .inr (.inr (.inl hall))
      · cases hcases with
        | @growEnd r _ _ anon mem type flags adj _ =>
          obtain ⟨r0, hr0, hpiece, -⟩ := hinv.sound r mem
          have hin := (hpiece.sub _ ⟨BitVec.le_refl _, hne' r mem⟩).1
          have hlt' := hne' r mem
          exact .inr (.inl ⟨r0, hr0, by bv_omega⟩)
        | @growFront r _ merge anon mem type flags adj _ =>
          obtain ⟨r0, hr0, hpiece, -⟩ := hinv.sound r mem
          have hin := hpiece.sub _ ⟨BitVec.le_refl _, hne' r mem⟩
          by_cases hbelow : (m.range r0).base < a.base
          · exact .inr (.inl ⟨r0, hr0, hbelow⟩)
          · refine .inr (.inr (.inr (.inr ⟨r0, hr0, merge, anon, ?_, ?_, ?_, ?_, ?_⟩)))
            · rw [← hpiece.type, ← type, anon]
            · rw [← hpiece.pageFlags, flags]
            · exact BitVec.not_lt.mp hbelow
            · rw [adj]
              exact hin.1
            · rw [adj]
              exact hin.2
        | unmap type _ => exact .inl type
        | insert => cases hnone
    · rintro (htype | hlow | hall | ⟨r, hr, hexact⟩ | ⟨r, hr, hjoins⟩)
      · cases hcases with
        | growEnd => exact .inr rfl
        | growFront => exact .inr rfl
        | unmap => exact .inr rfl
        | insert type _ => exact absurd htype type
      · exact .inl (.inl hlow)
      · exact .inl (.inr hall)
      · exact absurd (hex r hr hexact) (by simp)
      · exact .inr (finishAddRange_merges hjoins.1 hjoins.2.1 (hinv.joined hd hr hjoins) hfin)

end Loop

/-! ## Calls -/

/-- The machine and the processes, by the number of their page map. -/
structure Processes where
  m : Machine
  proc : ℕ → Process

/-- A syscall of process `n`, or a page fault. -/
inductive MemCall where
  | mmap (n : ℕ) (addr length : U64) (prot flags : Flags) (fd : Option FileDescription)
      (offset : U64)
  | munmap (n : ℕ) (addr length : U64)
  | mprotect (n : ℕ) (addr length : U64) (prot : Flags)
  | brk (n : ℕ) (addr : U64)
  | fork (n k : ℕ)
  | fault (n : ℕ) (virt : U64)

/-- A call; a forked process has the break and the mapping address of its parent
    (sched/sched.cpp:893-894). -/
def memStep (s : Processes) : MemCall → Except Panic Processes
  | .mmap n addr length prot flags fd offset => do
    let (_, proc, m) ← s.m.syscallMmap (.user n) (s.proc n) addr length prot flags fd offset
    .ok { m, proc := Function.update s.proc n proc }
  | .munmap n addr length => do
    let (_, proc, m) ← s.m.syscallMunmap (.user n) (s.proc n) addr length
    .ok { m, proc := Function.update s.proc n proc }
  | .mprotect n addr length prot => do
    let (_, m) ← s.m.syscallMprotect (.user n) addr length prot
    .ok { s with m }
  | .brk n addr => do
    let (_, proc, m) ← s.m.syscallBrk (.user n) (s.proc n) addr
    .ok { m, proc := Function.update s.proc n proc }
  | .fork n k => do
    let m ← s.m.fork (.user n) (.user k)
    .ok { m, proc := Function.update s.proc k (s.proc n) }
  | .fault n virt => do
    let (_, m) ← s.m.handlePageFault (.user n) virt
    .ok { s with m }

/-- What `mmap` maps, if it maps anything. -/
def mmapMapping (prot flags : Flags) (fd : Option FileDescription) (offset : U64) :
    Option Mapping :=
  if flags.has mapAnonymousFlag then some (.anonymous (!flags.has mapFixed))
  else
    match fd with
    | none => none
    | some description =>
      if !description.canRead then none
      else if flags.has mapShared && prot.has protWrite && !description.canWrite then none
      else
        match description.node with
        | .tmpfs => some (.file description.id offset)
        | .memfd address =>
          if flags.has mapShared then some (.mirror address)
          else if flags.has mapPrivate then some (.file description.id offset)
          else none
        | .framebuffer phy => some (.direct phy)
        | _ => none

/-- The window of a call consists of pages, is not empty and does not wrap around. -/
structure RangeArgs.Whole (a : RangeArgs) : Prop where
  base : PageAligned a.base
  length : PageAligned a.length
  nonempty : 0 < a.length.toNat
  fits : a.base.toNat + a.length.toNat < 2 ^ 64

/-- The condition on one call, in the state before it, under which the list stays in order.

    * `mmap`: the rounded length is not `0`, the address is a multiple of the page size, the end
      does not wrap around, and the new range is not linked in front of all others.
    * `munmap`: the end does not wrap around, unless no range is met.
    * `mprotect`: the first window is not linked in front of all others, and the ranges of the
      kernel in the window, which it takes over, end with a page.
    * `brk`: the new part of the heap is not linked in front of all others. -/
def MemCall.KeepsOrder (s : Processes) : MemCall → Prop
  | .mmap n addr length prot flags fd offset => ∀ k, mmapMapping prot flags fd offset = some k →
      length ≠ 0#64 →
      let a := k.args (Machine.mmapPlace (s.proc n) addr (alignUp length pageSize) flags).1
        (alignUp length pageSize) (mmapProtToPageFlags prot)
      a.Whole ∧ a.InPlace s.m (.user n)
  | .munmap n addr length => PageAligned addr →
      let a := Mapping.unmap.args addr (alignUp length pageSize) 0#64
      a.base ≤ a.end_ ∨ ∀ r ∈ s.m.rangeList (.user n), ¬a.Hits (s.m.range r)
  | .mprotect n addr length prot => s.m.live (.user n) = true ∧ (PageAligned addr →
      let end_ := addr + alignUp length pageSize
      (∀ r, (s.m.addrToRange (.user n) addr).1 = some r → addr < end_ →
        (Machine.protectArgs (s.m.range r) addr end_ (mmapProtToPageFlags prot)).InPlace s.m
          (.user n)) ∧
      ∀ r ∈ s.m.rangeList .kernel, ∀ v, addr ≤ v → v < end_ → (s.m.range r).Contains v →
        PageAligned (s.m.range r).end_)
  | .brk n addr => addr ≠ 0#64 →
      let oldPageBrk := alignUp (s.proc n).brk pageSize
      let newPageBrk := alignUp addr pageSize
      oldPageBrk < newPageBrk →
        ((Mapping.anonymous true).args oldPageBrk (newPageBrk - oldPageBrk)
          (mmapProtToPageFlags (protRead ||| protWrite))).InPlace s.m (.user n)
  | .fork n k => s.m.live (.user n) = true ∧ s.m.live (.user k) = false
  | .fault n _ => s.m.live (.user n) = true

/-- The invariant of the runs. -/
structure Listed (m : Machine) : Prop extends LinkedOk m where
  sorted : ∀ n, SortedRanges m (.user n)
  aligned : ∀ n, ∀ r ∈ m.rangeList (.user n),
    PageAligned (m.range r).base ∧ PageAligned (m.range r).end_

theorem Listed.inOrder {m : Machine} (h : Listed m) (n : ℕ) : InOrder m (.user n) := by
  refine ⟨(sorted_ranges_iff m _).mpr (h.sorted n), fun e he => ?_⟩
  obtain ⟨r, hr, rfl⟩ := List.mem_map.mp he
  obtain ⟨h1, h2⟩ := h.aligned n r hr
  exact (m.range r).whole_iff.mpr ⟨h1, h2, h.nonempty n r hr⟩

/-! ## Steps -/

theorem RangeArgs.whole_iff (a : RangeArgs) :
    a.Whole ↔ PageAligned a.base ∧ PageAligned a.end_ ∧ a.base < a.end_ :=
  ⟨fun ⟨h1, h2, h3, h4⟩ => (whole_window_iff _ _).mp ⟨h1, h2, h3, h4⟩, fun h =>
    have ⟨h1, h2, h3, h4⟩ := (whole_window_iff _ _).mpr h
    ⟨h1, h2, h3, h4⟩⟩

theorem pageAligned_iff (i : U64) : PageAligned i ↔ i % pageSize = 0#64 := by
  unfold PageAligned
  rw [← BitVec.toNat_inj, BitVec.toNat_umod]
  rfl

theorem pageAligned_alignUp (i : U64) : PageAligned (alignUp i pageSize) := by
  unfold PageAligned
  rw [toNat_alignUp]
  omega

theorem pageAligned_add {i j : U64} (hi : PageAligned i) (hj : PageAligned j) :
    PageAligned (i + j) := by
  unfold PageAligned at *
  rw [BitVec.toNat_add]
  omega

theorem pageAligned_sub {i j : U64} (hi : PageAligned i) (hj : PageAligned j) :
    PageAligned (i - j) := by
  have := i.isLt
  have := j.isLt
  unfold PageAligned at *
  rw [BitVec.toNat_sub]
  omega

namespace Listed

variable {m m' : Machine} {n k : ℕ} {a : RangeArgs}

/-- An operation that changes no range. -/
theorem of_same (h : Listed m) (hok : LinkedOk m') (hl : ∀ q, m'.rangeList q = m.rangeList q)
    (hr : m'.range = m.range) : Listed m' := by
  refine ⟨hok, fun q => (h.sorted q).congr (hl _) fun _ _ => by rw [hr], fun q => ?_⟩
  rw [hl, hr]
  exact h.aligned q

theorem sameRanges (h : Listed m) (hs : SameRanges (.user n) m m') (hc : CacheOk m' (.user n)) :
    Listed m' :=
  h.of_same (h.toLinkedOk.of_sameRanges hs hc) hs.rangeList hs.range

theorem fault (h : Listed m) (hlive : m.live (.user n) = true) {v : U64} {res : Option U64}
    (hrun : m.handlePageFault (.user n) v = .ok (res, m')) : Listed m' :=
  h.sameRanges (sameRanges_handlePageFault hrun)
    (cacheOk_handlePageFaultFuel (h.cache n hlive) hrun)

section

variable (h : Listed m) {res : Option RangeId}

include h

theorem addRange (hbase : PageAligned a.base) (hend : PageAligned a.end_) (hle : a.base ≤ a.end_)
    (hlt : a.type ≠ .none → a.base < a.end_) (hover : a.resolveOverlap = true)
    (hplace : a.type = .none ∨ a.InPlace m (.user n))
    (hrun : m.addRange (.user n) a = .ok (res, m')) : Listed m' := by
  have hadd := h.toLinkedOk.added hle hover hrun
  refine ⟨h.toLinkedOk.addRange hle hlt hover hrun, fun q => ?_, fun q => ?_⟩
  · by_cases hqn : q = n
    · rw [hqn]
      exact (addRange_sorted_iff h.heap (h.disj n) (h.nonempty n) (h.sorted n) hle hlt hover
        hrun).mpr hplace
    · have hne : PagemapId.user q ≠ .user n := by simpa using hqn
      refine (h.sorted q).congr (hadd.others _ hne) fun r hr => ?_
      rw [h.toLinkedOk.range_of_added hadd hne hr]
  · by_cases hqn : q = n
    · rw [hqn]
      intro r hr
      constructor
      · rcases hadd.base_mem r hr with he | he | ⟨s, hs, he⟩
        · rw [he]
          exact hbase
        · rw [he]
          exact hend
        · rw [he]
          exact (h.aligned n s hs).1
      · rcases hadd.end_mem r hr with he | he | ⟨s, hs, he⟩
        · rw [he]
          exact hbase
        · rw [he]
          exact hend
        · rw [he]
          exact (h.aligned n s hs).2
    · have hne : PagemapId.user q ≠ .user n := by simpa using hqn
      intro r hr
      rw [hadd.others _ hne] at hr
      rw [h.toLinkedOk.range_of_added hadd hne hr]
      exact h.aligned q r hr

/-- A mapping. -/
theorem addWhole (hwhole : a.Whole) (hover : a.resolveOverlap = true)
    (hplace : a.InPlace m (.user n)) (hrun : m.addRange (.user n) a = .ok (res, m')) :
    Listed m' := by
  obtain ⟨hbase, hend, hlt⟩ := a.whole_iff.mp hwhole
  exact h.addRange hbase hend (BitVec.le_of_lt hlt) (fun _ => hlt) hover (.inr hplace) hrun

theorem addRange_miss (htype : a.type = .none) (hover : a.resolveOverlap = true)
    (hmiss : ∀ r ∈ m.rangeList (.user n), ¬a.Hits (m.range r))
    (hrun : m.addRange (.user n) a = .ok (res, m')) : Listed m' := by
  let P : List RangeId → Bool → Machine → Prop := fun rest _ s =>
    (∀ t ∈ rest, t ∈ m.rangeList (.user n)) ∧ s = m.clearCache (.user n)
  have hcache : CacheOk (m.clearCache (.user n)) (.user n) := by
    intro c hc
    have hnone := (cachedRangeLookup_setCache m (.user n) (.user n) none).trans (if_pos rfl)
    exact absurd (hnone.symm.trans hc) (by simp)
  have hclear := h.sameRanges (sameRanges_setCache m (.user n) none) hcache
  rcases addRange_rule (P := P)
    (fun t rest _ s hP _ => ⟨fun u hu => hP.1 u (List.mem_cons_of_mem _ hu), hP.2⟩)
    (fun t rest _ s s' hP hone => by
      obtain ⟨hrest, rfl⟩ := hP
      exfalso
      have hno := hmiss t (hrest t (by simp))
      cases hone with
      | covered hit => exact hno hit
      | front hit => exact hno hit
      | back hit => exact hno hit
      | split hit => exact hno hit) h.heap hover ⟨fun _ ht => ht, rfl⟩ hrun with
    ⟨t, rest, -, m1, -, ⟨hrest, rfl⟩, hone⟩ | ⟨had, m1, ⟨-, rfl⟩, hfin⟩
  · have hno := hmiss t (hrest t (by simp))
    cases hone with
    | found hit => exact absurd hit hno
    | reflag hit => exact absurd hit hno
  · cases hfin with
    | growEnd _ anon => rw [htype] at anon; cases anon
    | growFront _ anon => rw [htype] at anon; cases anon
    | unmap _ run =>
      have ho := pagesOnly_invalidatePages run
      exact hclear.of_same (hclear.toLinkedOk.pagesOnly ho) ho.rangeList ho.range
    | insert type _ => exact absurd htype type

end

end Listed

/-! ## `fork` -/

theorem insertRangeId_append {base : RangeId → U64} {new : RangeId} :
    ∀ {l : List RangeId}, (∀ r ∈ l, base r < base new) → insertRangeId base new l = l ++ [new]
  | [], _ => rfl
  | [_], _ => rfl
  | previous :: next :: rest, h => by
    have hnext : ¬base next > base new := by
      have := h next (by simp)
      bv_omega
    unfold insertRangeId
    rw [if_neg hnext, insertRangeId_append fun r hr => h r (List.mem_cons_of_mem _ hr)]
    rfl

theorem ranges_linkedCopy {m : Machine} {q : PagemapId} {old : MappedRange}
    (hlt : ∀ r ∈ m.rangeList q, r < m.nextRange)
    (hbelow : ∀ e ∈ m.ranges q, e.base < old.base) :
    (linkedCopy m q old).ranges q = m.ranges q ++ [forkedRange old] := by
  have hold : ∀ r ∈ m.rangeList q, (linkedCopy m q old).range r = m.range r := by
    intro r hr
    rw [range_linkedCopy, if_neg (hlt r hr).ne]
  have hnew : (linkedCopy m q old).range m.nextRange = forkedRange old := by
    rw [range_linkedCopy, if_pos rfl]
  have hlist : (linkedCopy m q old).rangeList q = m.rangeList q ++ [m.nextRange] := by
    have hins : (linkedCopy m q old).rangeList q = insertRangeId
        (fun i => ((linkedCopy m q old).range i).base) m.nextRange (m.rangeList q) := by
      unfold linkedCopy Machine.newRange
      dsimp only
      rw [rangeList_setRangeList, if_pos rfl, rangeList_addRefCount]
      congr 1
      exact rangeList_clearCache m q q
    rw [hins]
    refine insertRangeId_append fun r hr => ?_
    rw [hold r hr, hnew]
    exact hbelow _ (List.mem_map_of_mem hr)
  unfold Machine.ranges
  rw [hlist, List.map_append, List.map_cons, List.map_nil, hnew]
  congr 1
  exact List.map_congr_left hold

theorem fork_ranges {m m' : Machine} {n k : ℕ} (hm : HeapOk m) (hs : SortedRanges m (.user n))
    (hkn : k ≠ n) (h : m.fork (.user n) (.user k) = .ok m') :
    m'.ranges (.user k) = (m.ranges (.user n)).map forkedRange := by
  obtain ⟨m0, ht, hrule⟩ := fork_rule hkn h
  have hrange : m0.range = m.range := ht.range
  have hcopied := hrule (fun pre s => m0.nextRange ≤ s.nextRange ∧
    (∀ r, r < m0.nextRange → s.range r = m.range r) ∧
    (∀ r ∈ s.rangeList (.user k), r < s.nextRange) ∧
    s.ranges (.user k) = pre.map fun r => forkedRange (m.range r)) ?_ ?_ ?_
  · rw [hcopied.2.2.2]
    unfold Machine.ranges
    rw [List.map_map]
    rfl
  · refine ⟨le_rfl, fun r _ => by rw [hrange], by simp [ht.rangeList], ?_⟩
    unfold Machine.ranges
    rw [ht.rangeList]
    rfl
  · rintro pre r post s hl ⟨hnext, hkept, hlt, hlist⟩
    have hr : r < m0.nextRange := by
      rw [ht.nextRange]
      exact hm.lt _ r (by rw [hl]; simp)
    refine ⟨?_, fun t htlt => ?_, fun t htmem => ?_, ?_⟩
    · rw [nextRange_linkedCopy]
      exact hnext.trans (Nat.le_succ _)
    · rw [range_linkedCopy, if_neg (lt_of_lt_of_le htlt hnext).ne]
      exact hkept t htlt
    · rw [nextRange_linkedCopy]
      rcases (mem_rangeList_linkedCopy s (.user k) (s.range r) t).mp htmem with rfl | hold
      · exact Nat.lt_succ_self _
      · exact Nat.lt_succ_of_lt (hlt t hold)
    · rw [ranges_linkedCopy hlt, hlist, List.map_append, hkept r hr]
      · rfl
      · intro e he
        rw [hlist] at he
        obtain ⟨t, htpre, rfl⟩ := List.mem_map.mp he
        rw [hkept r hr]
        unfold SortedRanges at hs
        rw [hl] at hs
        exact (List.pairwise_append.mp hs).2.2 t htpre r (by simp)
  · rintro pre s s' ⟨hnext, hkept, hlt, hlist⟩ hsame -
    unfold Machine.ranges at hlist ⊢
    rw [hsame.nextRange, hsame.range, hsame.rangeList]
    exact ⟨hnext, hkept, hlt, hlist⟩

theorem Listed.fork {m m' : Machine} {n k : ℕ} (h : Listed m) (hkn : k ≠ n)
    (hrun : m.fork (.user n) (.user k) = .ok m') : Listed m' := by
  have hf := forkedLists h.heap hkn hrun
  have hranges := fork_ranges h.heap (h.sorted n) hkn hrun
  refine ⟨h.toLinkedOk.fork hkn hrun, fun q => ?_, fun q => ?_⟩
  · by_cases hqk : q = k
    · rw [hqk, ← sorted_ranges_iff, hranges, List.pairwise_map]
      exact (sorted_ranges_iff m _).mpr (h.sorted n)
    · have ho : PagemapId.user q ≠ .user k := by simpa using hqk
      refine (h.sorted q).congr (hf.other _ ho) fun r hr => ?_
      rw [hf.range _ r hr]
  · by_cases hqk : q = k
    · rw [hqk]
      intro s hs
      obtain ⟨r, hr, he⟩ := hf.copy s hs
      rw [he]
      exact h.aligned n r hr
    · have ho : PagemapId.user q ≠ .user k := by simpa using hqk
      intro s hs
      rw [hf.other _ ho] at hs
      rw [hf.range _ s hs]
      exact h.aligned q s hs

theorem Listed.create {m m' : Machine} {n : ℕ} (h : Listed m)
    (hrun : m.newPagemap (.user n) = .ok m') : Listed m' := by
  have hl := rangeList_newPagemap hrun
  have hrange := (newPagemap_pagemap hrun).2.2.2.1
  refine ⟨h.toLinkedOk.create hrun, fun q => ?_, fun q => ?_⟩
  · unfold SortedRanges
    rw [hl, hrange]
    split_ifs
    · exact List.Pairwise.nil
    · exact h.sorted q
  · rw [hl, hrange]
    split_ifs
    · simp
    · exact h.aligned q

/-! ## The syscalls -/

/-- Flags matter only where ranges are matched or joined. -/
theorem Mapping.inPlace_congr {m : Machine} {p : PagemapId} {k : Mapping}
    {base length flags flags' : U64} (hk : ∀ keep, k = .anonymous keep → flags' = flags)
    (h : (k.args base length flags).InPlace m p) : (k.args base length flags').InPlace m p := by
  cases k with
  | anonymous keep => rwa [hk keep rfl]
  | direct | file | mirror | unmap =>
    rcases h with h | h | ⟨r, -, h, -⟩ | ⟨r, -, h, -⟩
    · exact .inl h
    · exact .inr (.inl h)
    · cases h
    · cases h

theorem mmapProtToPageFlags_mask (prot : Flags) :
    mmapProtToPageFlags prot &&& frameMask = 0#64 ∧
      (mmapProtToPageFlags prot ||| pageWriteCombining) &&& frameMask = 0#64 := by
  unfold mmapProtToPageFlags
  dsimp only
  split_ifs <;> decide

theorem syscallMmap_cases {m m' : Machine} {p : PagemapId} {proc proc' : Process}
    {addr length offset : U64} {prot flags : Flags} {fd : Option FileDescription} {res : SysResult}
    (h : m.syscallMmap p proc addr length prot flags fd offset = .ok (res, proc', m')) :
    proc'.brk = proc.brk ∧ ((∃ e, res = .error e) ∧ m' = m ∨
      length ≠ 0#64 ∧ ∃ k pageFlags, mmapMapping prot flags fd offset = some k ∧
        (∀ keep, k = .anonymous keep → pageFlags = mmapProtToPageFlags prot) ∧
        pageFlags &&& frameMask = 0#64 ∧ k ≠ .unmap ∧
        res = .ok (Machine.mmapPlace proc addr (alignUp length pageSize) flags).1 ∧
        m.mapAs p k (Machine.mmapPlace proc addr (alignUp length pageSize) flags).1
          (alignUp length pageSize) pageFlags = .ok m') := by
  obtain ⟨hmask, hmaskWc⟩ := mmapProtToPageFlags_mask prot
  have hplace : (Machine.mmapPlace proc addr (alignUp length pageSize) flags).2.brk = proc.brk := by
    unfold Machine.mmapPlace
    split_ifs <;> rfl
  unfold Machine.syscallMmap at h
  dsimp only at h
  unfold mmapMapping
  split_ifs at h with hlen hanon
  · obtain ⟨rfl, heq⟩ := pure_pair h
    cases heq
    exact ⟨rfl, .inl ⟨⟨_, rfl⟩, rfl⟩⟩
  · obtain ⟨m1, h1, h⟩ := bind_ok h
    obtain ⟨rfl, heq⟩ := pure_pair h
    cases heq
    rw [if_pos hanon]
    exact ⟨hplace, .inr ⟨hlen, _, _, rfl, fun _ _ => rfl, hmask, by simp, rfl, h1⟩⟩
  · rw [if_neg hanon]
    cases fd with
    | none =>
      obtain ⟨rfl, heq⟩ := pure_pair h
      cases heq
      exact ⟨hplace, .inl ⟨⟨_, rfl⟩, rfl⟩⟩
    | some description =>
      dsimp only at h ⊢
      split_ifs at h with hread hwrite
      · obtain ⟨rfl, heq⟩ := pure_pair h
        cases heq
        exact ⟨hplace, .inl ⟨⟨_, rfl⟩, rfl⟩⟩
      · obtain ⟨rfl, heq⟩ := pure_pair h
        cases heq
        exact ⟨hplace, .inl ⟨⟨_, rfl⟩, rfl⟩⟩
      · rw [if_neg hread, if_neg hwrite]
        obtain ⟨⟨res1, m1⟩, h1, h⟩ := bind_ok h
        obtain ⟨rfl, heq⟩ := pure_pair h
        cases heq
        refine ⟨hplace, ?_⟩
        unfold Machine.nodeMmap at h1
        dsimp only at h1
        cases hnode : description.node with
        | tmpfs =>
          rw [hnode] at h1
          obtain ⟨m2, h2, h1⟩ := bind_ok h1
          cases h1
          exact .inr ⟨hlen, _, _, rfl, by simp, hmask, by simp, rfl, h2⟩
        | memfd address =>
          rw [hnode] at h1
          dsimp only at h1 ⊢
          split_ifs at h1 with hshared hprivate
          · obtain ⟨m2, h2, h1⟩ := bind_ok h1
            cases h1
            rw [if_pos hshared]
            exact .inr ⟨hlen, _, mmapProtToPageFlags prot, rfl, by simp, hmask, by simp, rfl, h2⟩
          · obtain ⟨m2, h2, h1⟩ := bind_ok h1
            cases h1
            rw [if_neg hshared, if_pos hprivate]
            exact .inr ⟨hlen, _, _, rfl, by simp, hmask, by simp, rfl, h2⟩
          · cases h1
            exact .inl ⟨⟨_, rfl⟩, rfl⟩
        | framebuffer phy =>
          rw [hnode] at h1
          obtain ⟨m2, h2, h1⟩ := bind_ok h1
          cases h1
          exact .inr ⟨hlen, _, _, rfl, by simp, hmaskWc, by simp, rfl, h2⟩
        | refusing =>
          rw [hnode] at h1
          cases h1
          exact .inl ⟨⟨_, rfl⟩, rfl⟩
        | other =>
          rw [hnode] at h1
          cases h1
          exact .inl ⟨⟨_, rfl⟩, rfl⟩

namespace Listed

variable {m m' : Machine} {n : ℕ}

section

variable (h : Listed m) {proc proc' : Process} {addr : U64} {res : SysResult}

include h

theorem mmap {length offset : U64} {prot flags : Flags} {fd : Option FileDescription}
    (hkeeps : ∀ k, mmapMapping prot flags fd offset = some k → length ≠ 0#64 →
      let a := k.args (Machine.mmapPlace proc addr (alignUp length pageSize) flags).1
        (alignUp length pageSize) (mmapProtToPageFlags prot)
      a.Whole ∧ a.InPlace m (.user n))
    (hrun : m.syscallMmap (.user n) proc addr length prot flags fd offset = .ok (res, proc', m')) :
    Listed m' := by
  obtain ⟨-, ⟨-, rfl⟩ | ⟨hlen, k, pageFlags, hk, hflags, -, -, -, hmap⟩⟩ := syscallMmap_cases hrun
  · exact h
  · obtain ⟨hwhole, hplace⟩ := hkeeps k hk hlen
    obtain ⟨res', hadd⟩ := mapAs_addRange hmap
    refine h.addWhole ?_ ?_ (k.inPlace_congr hflags hplace) hadd
    · cases k <;> exact ⟨hwhole.base, hwhole.length, hwhole.nonempty, hwhole.fits⟩
    · cases k <;> rfl

theorem munmap {length : U64}
    (hkeeps : PageAligned addr →
      let a := Mapping.unmap.args addr (alignUp length pageSize) 0#64
      a.base ≤ a.end_ ∨ ∀ r ∈ m.rangeList (.user n), ¬a.Hits (m.range r))
    (hrun : m.syscallMunmap (.user n) proc addr length = .ok (res, proc', m')) : Listed m' := by
  unfold Machine.syscallMunmap at hrun
  split_ifs at hrun with hmis
  · rw [← (Prod.mk.inj (pure_pair hrun).2).2]
    exact h
  · obtain ⟨m1, h1, hrun⟩ := bind_ok hrun
    obtain rfl := (Prod.mk.inj (pure_pair hrun).2).2
    have haligned := (pageAligned_iff addr).mpr (not_not.mp hmis)
    have hmap : m.mapAs (.user n) .unmap addr (alignUp length pageSize) 0#64 = .ok m1 := h1
    obtain ⟨res', hadd⟩ := mapAs_addRange hmap
    rcases hkeeps haligned with hle | hmiss
    · exact h.addRange haligned (pageAligned_add haligned (pageAligned_alignUp length)) hle
        (fun hty => absurd rfl hty) rfl (.inl rfl) hadd
    · exact h.addRange_miss rfl rfl hmiss hadd

theorem brk
    (hkeeps : addr ≠ 0#64 →
      let oldPageBrk := alignUp proc.brk pageSize
      let newPageBrk := alignUp addr pageSize
      oldPageBrk < newPageBrk →
        ((Mapping.anonymous true).args oldPageBrk (newPageBrk - oldPageBrk)
          (mmapProtToPageFlags (protRead ||| protWrite))).InPlace m (.user n))
    (hrun : m.syscallBrk (.user n) proc addr = .ok (res, proc', m')) : Listed m' := by
  have hold := pageAligned_alignUp proc.brk
  have hnew := pageAligned_alignUp addr
  unfold Machine.syscallBrk at hrun
  split_ifs at hrun with hzero
  · rw [← (Prod.mk.inj (pure_pair hrun).2).2]
    exact h
  · dsimp only at hrun
    obtain ⟨m1, h1, hrun⟩ := bind_ok hrun
    obtain rfl := (Prod.mk.inj (pure_pair hrun).2).2
    split_ifs at h1 with hgrow hshrink
    · obtain ⟨res', hadd⟩ := mapAs_addRange (k := .anonymous true) h1
      refine h.addWhole ((RangeArgs.whole_iff _).mpr ⟨hold, ?_, ?_⟩) rfl (hkeeps hzero hgrow) hadd
      · exact pageAligned_add hold (pageAligned_sub hnew hold)
      · show _ < alignUp proc.brk pageSize + (alignUp addr pageSize - alignUp proc.brk pageSize)
        rw [add_sub_cancel]
        exact hgrow
    · have hmap : m.mapAs (.user n) .unmap (alignUp addr pageSize)
          (alignUp proc.brk pageSize - alignUp addr pageSize) 0#64 = .ok m1 := h1
      obtain ⟨res', hadd⟩ := mapAs_addRange hmap
      refine h.addRange hnew (pageAligned_add hnew (pageAligned_sub hold hnew)) ?_
        (fun hty => absurd rfl hty) rfl (.inl rfl) hadd
      show _ ≤ alignUp addr pageSize + (alignUp proc.brk pageSize - alignUp addr pageSize)
      rw [add_sub_cancel]
      exact BitVec.le_of_lt hshrink
    · cases h1
      exact h

end

/-- The loop of `mprotect`. From its second turn on a range begins below the window: the one that
    holds what has been protected. -/
theorem protectLoop {end_ flags : U64} (hend : PageAligned end_) :
    ∀ {fuel : ℕ} {current : U64} {m m' : Machine} {res : SysResult}, Listed m →
      m.live (.user n) = true → PageAligned current →
      (∀ r, (m.addrToRange (.user n) current).1 = some r → current < end_ →
        (Machine.protectArgs (m.range r) current end_ flags).InPlace m (.user n)) →
      (∀ r ∈ m.rangeList .kernel, ∀ v, current ≤ v → v < end_ → (m.range r).Contains v →
        PageAligned (m.range r).end_) →
      Machine.protectLoop (.user n) end_ flags fuel current m = .ok (res, m') → Listed m' := by
  intro fuel
  induction fuel with
  | zero =>
    intro current m m' res _ _ _ _ _ h
    cases h
  | succ fuel ih =>
    intro current m m' res hm hlive hcur hplace hkernel h
    rw [Machine.protectLoop] at h
    split_ifs at h with hlt
    · cases hlook : m.addrToRange (.user n) current with
      | mk found m1 =>
        rw [hlook] at h
        have hsame := sameRanges_addrToRange hlook
        have hm1 := hm.sameRanges hsame (cacheOk_addrToRange (hm.cache n hlive) hlook)
        cases found with
        | none =>
          obtain rfl := (pure_pair h).2
          exact hm1
        | some r =>
          obtain ⟨⟨res1, m2⟩, hadd, h⟩ := bind_ok h
          dsimp only at h
          obtain ⟨hmem, hcon, -⟩ := addrToRange_some (hm.cache n hlive) hlook
          rw [hsame.range] at hadd h
          have hin := hplace r (by rw [hlook]) hlt
          set a := Machine.protectArgs (m.range r) current end_ flags with ha
          have hwindow : a.end_ = if (m.range r).end_ > end_ then end_ else (m.range r).end_ :=
            protectArgs_end (m.range r) current end_ flags
          have hlta : current < a.end_ := by
            rw [hwindow]
            split_ifs
            · exact hlt
            · exact hcon.2
          have hle : a.end_ ≤ end_ := by
            rw [hwindow]
            split_ifs <;> bv_omega
          have halign : PageAligned a.end_ := by
            rw [hwindow]
            split_ifs
            · exact hend
            · rcases hmem with hmem | hmem
              · exact (hm.aligned n r hmem).2
              · exact hkernel r hmem current (BitVec.le_refl _) hlt hcon
          have hplace1 : a.InPlace m1 (.user n) := by
            unfold RangeArgs.InPlace
            rw [hsame.rangeList, hsame.range]
            exact hin
          have hbase : a.base = current := rfl
          have hm2 := hm1.addRange (a := a) hcur halign (BitVec.le_of_lt hlta) (fun _ => hlta) rfl
            (.inr hplace1) hadd
          have hadded := hm1.toLinkedOk.added (a := a) (BitVec.le_of_lt hlta) rfl hadd
          have hstep : current + a.length = a.end_ := rfl
          rw [hstep] at h
          refine ih hm2 ?_ halign (fun s _ _ => ?_) (fun s hs v h1 h2 hv => ?_) h
          · rw [(addRange_frame hm1.heap rfl hadd).1.live, hsame.live]
            exact hlive
          · obtain ⟨t, ht, hv⟩ := hadded.fills (m.range r).type_ne current ⟨BitVec.le_refl _, hlta⟩
            refine .inl ⟨t, ht, ?_⟩
            have h1 := hv.1
            show (m2.range t).base < a.end_
            bv_omega
          · rw [hadded.others _ (by simp)] at hs
            rw [hm1.toLinkedOk.range_of_added hadded (by simp) hs, hsame.range] at hv ⊢
            rw [hsame.rangeList] at hs
            exact hkernel s hs v (by bv_omega) h2 hv
    · obtain rfl := (pure_pair h).2
      exact hm

end Listed

/-! ## Programs -/

/-- The windows of a program ascend: each one begins at or behind the end of those before it. -/
structure Ascending (l : List RangeArgs) : Prop where
  apart : l.Pairwise fun a b => a.end_ ≤ b.base
  whole : ∀ a ∈ l, a.Whole
  resolves : ∀ a ∈ l, a.resolveOverlap = true

theorem Listed.windows {n : ℕ} :
    ∀ {l : List RangeArgs} {m m' : Machine}, Listed m → Ascending l →
      (∀ a ∈ l, ∀ r ∈ m.rangeList (.user n), (m.range r).end_ ≤ a.base) →
      l.foldlM (addWindow (.user n)) m = .ok m' → Listed m' := by
  intro l
  induction l with
  | nil =>
    intro m m' hm _ _ h
    rw [← Except.ok.inj h]
    exact hm
  | cons a l ih =>
    intro m m' hm hl hbelow h
    rw [List.foldlM_cons] at h
    obtain ⟨m1, h1, h2⟩ := bind_ok h
    obtain ⟨⟨res, m2⟩, hadd, rfl⟩ := bind_pure_ok h1
    obtain ⟨hfirst, hrest⟩ := List.pairwise_cons.mp hl.apart
    have hwhole := hl.whole a (by simp)
    have hover := hl.resolves a (by simp)
    have hlt := (a.whole_iff.mp hwhole).2.2
    -- the first range begins below the window, if there is one
    have hplace : a.InPlace m (.user n) := by
      by_cases hnil : m.rangeList (.user n) = []
      · exact .inr (.inl fun r hr => by rw [hnil] at hr; cases hr)
      · obtain ⟨r, hr⟩ := List.exists_mem_of_ne_nil _ hnil
        refine .inl ⟨r, hr, ?_⟩
        have := hbelow a (by simp) r hr
        have := hm.nonempty n r hr
        bv_omega
    have hadded := hm.toLinkedOk.added (BitVec.le_of_lt hlt) hover hadd
    refine ih (hm.addWhole hwhole hover hplace hadd) ?_ (fun b hb r hr => ?_) h2
    · exact ⟨hrest, fun b hb => hl.whole b (List.mem_cons_of_mem _ hb),
        fun b hb => hl.resolves b (List.mem_cons_of_mem _ hb)⟩
    · have hab := hfirst b hb
      rcases hadded.end_mem r hr with he | he | ⟨s, hs, he⟩
      · bv_omega
      · rw [he]
        exact hab
      · rw [he]
        exact hbelow b (List.mem_cons_of_mem _ hb) s hs

/-- A program whose segments ascend starts with a list in order. -/
theorem Listed.execve {m m' : Machine} {n : ℕ} {binaryBase : U64} {binary : List Machine.Segment}
    {linker : Option (U64 × List Machine.Segment)} {proc : Process} (h : Listed m)
    (hasc : Ascending (programWindows binaryBase binary linker))
    (hrun : m.execve (.user n) binaryBase binary linker = .ok (proc, m')) : Listed m' := by
  obtain ⟨m0, h0, hwindows⟩ := execve_windows hrun
  refine (h.create h0).windows hasc (fun a _ r hr => ?_) hwindows
  rw [rangeList_newPagemap h0, if_pos rfl] at hr
  cases hr

theorem listed_booted : Listed booted where
  heap := heapOk_booted
  disj := fun _ _ hr => absurd hr List.not_mem_nil
  nonempty := fun _ _ hr => absurd hr List.not_mem_nil
  cache := by
    intro n hn
    cases hn
  sorted := fun _ => List.Pairwise.nil
  aligned := fun _ _ hr => absurd hr List.not_mem_nil

/-! ## Runs -/

/-- One call that meets the condition. -/
theorem Listed.step {s s' : Processes} {c : MemCall} (h : Listed s.m) (hkeeps : c.KeepsOrder s)
    (hrun : memStep s c = .ok s') : Listed s'.m := by
  cases c with
  | mmap n addr length prot flags fd offset =>
    obtain ⟨⟨res, proc, m⟩, h1, rfl⟩ := bind_pure_ok hrun
    exact h.mmap hkeeps h1
  | munmap n addr length =>
    obtain ⟨⟨res, proc, m⟩, h1, rfl⟩ := bind_pure_ok hrun
    exact h.munmap hkeeps h1
  | mprotect n addr length prot =>
    obtain ⟨⟨res, m⟩, h1, rfl⟩ := bind_pure_ok hrun
    obtain ⟨hlive, hkeeps⟩ := hkeeps
    unfold Machine.syscallMprotect at h1
    split_ifs at h1 with hmis
    · rw [← (pure_pair h1).2]
      exact h
    · have haligned := (pageAligned_iff addr).mpr (not_not.mp hmis)
      obtain ⟨hplace, hkernel⟩ := hkeeps haligned
      exact Listed.protectLoop (pageAligned_add haligned (pageAligned_alignUp length)) h hlive
        haligned hplace hkernel h1
  | brk n addr =>
    obtain ⟨⟨res, proc, m⟩, h1, rfl⟩ := bind_pure_ok hrun
    exact h.brk hkeeps h1
  | fork n k =>
    obtain ⟨m, h1, rfl⟩ := bind_pure_ok hrun
    refine h.fork ?_ h1
    rintro rfl
    exact absurd (hkeeps.1.symm.trans hkeeps.2) (by decide)
  | fault n v =>
    obtain ⟨⟨res, m⟩, h1, rfl⟩ := bind_pure_ok hrun
    exact h.fault hkeeps h1

/-- **Main theorem.** Along runs of memory calls that meet the condition, the range list of every
    process is sorted by strictly increasing base, and its ranges consist of pages, are not empty
    and do not wrap around. -/
theorem inOrder_run {s s' : Processes} (h : Listed s.m)
    (hrun : Run memStep (fun s c => c.KeepsOrder s) s s') (n : ℕ) : InOrder s'.m (.user n) := by
  have hlisted := hrun.invariant (P := fun s => Listed s.m)
    (fun _ _ _ hs hok hnext => Listed.step hs hok hnext) h
  exact hlisted.inOrder n

/-- A program with one page at `0x400000`. -/
def smallProgram : Except Panic Processes := do
  let (proc, m) ← booted.execve (.user 0) 0#64 [⟨0x400000#64, 0x1000#64⟩] none
  .ok ⟨m, fun _ => proc⟩

/-- The program grows its heap by a page and unmaps the page of the binary. -/
def growsAndUnmaps : Except Panic Processes := do
  let s ← smallProgram
  let s ← memStep s (.brk 0 0x30402000#64)
  memStep s (.munmap 0 0x400000#64 0x1000#64)

theorem listed_smallProgram {s : Processes} (h : smallProgram = .ok s) : Listed s.m := by
  obtain ⟨⟨proc, m⟩, h1, h2⟩ := bind_ok h
  rw [← Except.ok.inj h2]
  refine listed_booted.execve ⟨?_, ?_, ?_⟩ h1
  · refine List.pairwise_pair.mpr ?_
    decide
  · intro a ha
    rw [RangeArgs.whole_iff]
    rcases List.mem_pair.mp ha with rfl | rfl
    · refine ⟨?_, ?_, ?_⟩ <;> decide
    · refine ⟨?_, ?_, ?_⟩ <;> decide
  · intro a ha
    rcases List.mem_pair.mp ha with rfl | rfl <;> rfl

theorem inOrder_run_growsAndUnmaps :
    ∃ s, growsAndUnmaps = .ok s ∧
      (s.m.ranges (.user 0)).map (·.base) = [0x30401000#64, Machine.userMmapBase] ∧
      InOrder s.m (.user 0) := by
  obtain ⟨s, hs⟩ : ∃ s, growsAndUnmaps = .ok s := ⟨_, rfl⟩
  obtain ⟨s0, h0, h⟩ := bind_ok hs
  obtain ⟨s1, h1, h2⟩ := bind_ok h
  have hbrk : (s0.proc 0).brk = 0x30401000#64 := map_ok_eq h0 (fun s => (s.proc 0).brk) rfl
  have hlist : s0.m.rangeList (.user 0) = [0, 1] :=
    map_ok_eq h0 (fun s => s.m.rangeList (.user 0)) rfl
  have hbase : (s0.m.range 0).base = 0x400000#64 :=
    map_ok_eq h0 (fun s => (s.m.range 0).base) rfl
  have hrun : Run memStep (fun s c => c.KeepsOrder s) s0 s := by
    refine .step (.step .start ?_ h1) ?_ h2
    · intro _ oldPageBrk newPageBrk _
      refine .inl ⟨0, by rw [hlist]; simp, ?_⟩
      rw [hbase]
      show _ < alignUp (s0.proc 0).brk pageSize
      rw [hbrk]
      decide
    · exact fun _ => .inl (by decide)
  refine ⟨s, hs, ?_, inOrder_run (listed_smallProgram h0) hrun 0⟩
  exact map_ok_eq hs (fun s => (s.m.ranges (.user 0)).map (·.base)) rfl

/-- The program maps a page with `MAP_FIXED | MAP_ANONYMOUS` at `0x10000`, below its binary. -/
theorem mmap_out_of_order :
    ∃ s res proc m, smallProgram = .ok s ∧
      s.m.syscallMmap (.user 0) (s.proc 0) 0x10000#64 0x1000#64 protRead
        (mapFixed ||| mapAnonymousFlag) none 0#64 = .ok (.ok res, proc, m) ∧
      InOrder s.m (.user 0) ∧ ¬InOrder m (.user 0) := by
  obtain ⟨s, hs⟩ : ∃ s, smallProgram = .ok s := ⟨_, rfl⟩
  obtain ⟨⟨res, proc, m⟩, hm⟩ : ∃ x, (smallProgram >>= fun s =>
      s.m.syscallMmap (.user 0) (s.proc 0) 0x10000#64 0x1000#64 protRead
        (mapFixed ||| mapAnonymousFlag) none 0#64) = .ok x := ⟨_, rfl⟩
  have hres : res.toOption = some 0x10000#64 := map_ok_eq hm (fun x => x.1.toOption) rfl
  have hbases : (m.ranges (.user 0)).map (·.base) =
      [0x400000#64, 0x10000#64, Machine.userMmapBase] :=
    map_ok_eq hm (fun x => (x.2.2.ranges (.user 0)).map (·.base)) rfl
  rw [hs, ok_bind] at hm
  cases res with
  | error e => cases hres
  | ok v =>
    refine ⟨s, v, proc, m, hs, hm, (listed_smallProgram hs).inOrder 0, fun h => ?_⟩
    have hsorted := h.sorted
    rw [← List.pairwise_map (f := fun e : MappedRange => e.base), hbases] at hsorted
    exact absurd ((List.pairwise_cons.mp hsorted).1 0x10000#64 (by simp)) (by decide)

end Fishix.Mem
