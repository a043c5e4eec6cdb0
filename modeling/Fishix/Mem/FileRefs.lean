import Fishix.Common.RefCount
import Fishix.Mem.RangeRun
import Fishix.Mem.Syscall

/-!
# References of ranges to files

A `MappedRange` of a file holds a reference to its `FileDescription`: `add_range` takes it when it
makes a range, `~MappedRange` drops it. `FilesKept S next G m` is the count of the references of
linked ranges (`rangeRefs`) and of others (`S`), which the memory subsystem does not change.

`add_range` copies a pointer to a file before it takes the reference, so the description has to live
through its overlap loop: it has a descriptor (`mmap`), or the range the pointer comes from is not
deleted in the loop (`Spared`, `mprotect`).

* `FilesKept.newRange`, `FilesKept.deleteRange`: one range.
* `FilesKept.addRange`: a whole call.
* `FilesOk.mmap`, `FilesOk.munmap`, `FilesOk.mprotect`, `FilesOk.madvise`, `FilesOk.brk`,
  `FilesOk.fault`: the calls of a process.
* `FilesOk.fork`, `FilesOk.execve`, `FilesOk.deletePagemap`: page maps.
-/

namespace Fishix.Mem

/-- The linked ranges that refer to `file`. -/
def Machine.rangeRefs (m : Machine) (file : FileId) : Set RangeId :=
  {r | (∃ p, r ∈ m.rangeList p) ∧ (m.range r).file = some file}

variable {ι : Type*} {S : FileId → Set ι} {next : FileId} {G : Set FileId} {m m' : Machine} {p : PagemapId}
  {a : RangeArgs} {r : RangeId}

/-- The files below `next` are counted, with the references `S` from elsewhere; those of `G` are
    gone. -/
structure FilesKept (S : FileId → Set ι) (next : FileId) (G : Set FileId) (m : Machine) : Prop where
  heap : HeapOk m
  refs : RefCounted (Joined S m.rangeRefs) m.fileRefs m.fileClosed (· < next) G

/-- Something refers to the file. -/
def Referred (S : FileId → Set ι) (m : Machine) (file : Option FileId) : Prop :=
  ∀ d, file = some d → (Joined S m.rangeRefs d).Nonempty

/-! ## What leaves the references as they are -/

theorem rangeRefs_congr (hl : ∀ q, m'.rangeList q = m.rangeList q)
    (hf : ∀ s, (m'.range s).file = (m.range s).file) (d : FileId) : m'.rangeRefs d = m.rangeRefs d := by
  unfold Machine.rangeRefs
  simp only [hl, hf]

namespace FilesKept

section

variable (h : FilesKept S next G m)

include h

theorem congr (hl : ∀ q, m'.rangeList q = m.rangeList q)
    (hf : ∀ s, (m'.range s).file = (m.range s).file) (hn : m'.nextRange = m.nextRange)
    (hrefs : m'.fileRefs = m.fileRefs) (hclosed : m'.fileClosed = m.fileClosed) :
    FilesKept S next G m' := by
  refine ⟨h.heap.congr hl hn, ?_⟩
  rw [hrefs, hclosed]
  exact h.refs.congr fun d => joined_congr rfl (rangeRefs_congr hl hf d)

theorem sameRanges (hs : SameRanges p m m') : FilesKept S next G m' :=
  h.congr hs.rangeList (fun s => by rw [hs.range]) hs.nextRange hs.fileRefs hs.fileClosed

theorem pagesOnly (ho : PagesOnly m m') : FilesKept S next G m' :=
  h.sameRanges (ho.sameRanges .kernel)

theorem clearCache (p : PagemapId) : FilesKept S next G (m.clearCache p) :=
  h.sameRanges (sameRanges_setCache m p none)

theorem setRange (r : RangeId) (x : MappedRange) (hx : x.file = (m.range r).file) :
    FilesKept S next G (m.setRange r x) := by
  refine h.congr (fun _ => rfl) (fun s => ?_) rfl rfl rfl
  rw [range_setRange]
  split_ifs with hs
  · rw [hx, hs]
  · rfl

end

end FilesKept

/-! ## A range that is made -/

theorem fileRefs_addRefCount_one (m : Machine) (d : FileId) :
    (m.addRefCount (some d) 1).fileRefs = Function.update m.fileRefs d (m.fileRefs d + 1) ∧
      (m.addRefCount (some d) 1).fileClosed = m.fileClosed := by
  simp [Machine.addRefCount]

theorem rangeRefs_newRange (h : HeapOk m) (ht : a.type ≠ .none) (d : FileId) :
    (m.newRange p a ht).2.rangeRefs d =
      if a.file = some d then insert m.nextRange (m.rangeRefs d) else m.rangeRefs d := by
  have hspec := newRange_spec m p a ht
  have hlinked : ∀ s, (∃ q, s ∈ (m.newRange p a ht).2.rangeList q) ↔
      s = m.nextRange ∨ ∃ q, s ∈ m.rangeList q := by
    intro s
    constructor
    · rintro ⟨q, hs⟩
      by_cases hq : q = p
      · rw [hq, hspec.perm.mem_iff, List.mem_cons] at hs
        exact hs.imp id fun hs => ⟨p, hs⟩
      · rw [hspec.rangeList_other q hq] at hs
        exact .inr ⟨q, hs⟩
    · rintro (hs | ⟨q, hs⟩)
      · exact ⟨p, hspec.perm.mem_iff.mpr (by simp [hs])⟩
      · by_cases hq : q = p
        · rw [hq] at hs
          exact ⟨p, hspec.perm.mem_iff.mpr (by simp [hs])⟩
        · exact ⟨q, by rwa [hspec.rangeList_other q hq]⟩
  have hnew : ¬∃ q, m.nextRange ∈ m.rangeList q := by
    rintro ⟨q, hq⟩
    exact absurd (h.lt q _ hq) (lt_irrefl _)
  ext s
  unfold Machine.rangeRefs
  by_cases hs : s = m.nextRange
  · rw [hs]
    by_cases hfile : a.file = some d
    · simp [hlinked, hspec.range, hfile, RangeArgs.toRange]
    · simp [hlinked, hspec.range, hfile, RangeArgs.toRange, hnew]
  · by_cases hfile : a.file = some d
    · simp [hlinked, hspec.range, hfile, hs]
    · simp [hlinked, hspec.range, hfile, hs]

/-- A new range of a file that something refers to. -/
theorem FilesKept.newRange (h : FilesKept S next G m) (ht : a.type ≠ .none)
    (hfile : Referred S m a.file) : FilesKept S next G (m.newRange p a ht).2 := by
  have hspec := newRange_spec m p a ht
  refine ⟨⟨fun q => ?_, fun q s hs => ?_, fun q q' s hs hs' => ?_⟩, ?_⟩
  · by_cases hq : q = p
    · rw [hq, hspec.perm.nodup_iff, List.nodup_cons]
      exact ⟨fun hmem => absurd (h.heap.lt p _ hmem) (lt_irrefl _), h.heap.nodup p⟩
    · rw [hspec.rangeList_other q hq]
      exact h.heap.nodup q
  · rw [hspec.nextRange]
    by_cases hq : q = p
    · rw [hq, hspec.perm.mem_iff, List.mem_cons] at hs
      rcases hs with rfl | hs
      · exact Nat.lt_succ_self _
      · exact Nat.lt_succ_of_lt (h.heap.lt p s hs)
    · rw [hspec.rangeList_other q hq] at hs
      exact Nat.lt_succ_of_lt (h.heap.lt q s hs)
  · have hlt : ∀ o, o ≠ p → s ∈ (m.newRange p a ht).2.rangeList o →
        s ≠ m.nextRange ∧ s ∈ m.rangeList o := by
      intro o ho hmem
      rw [hspec.rangeList_other o ho] at hmem
      exact ⟨(h.heap.lt o s hmem).ne, hmem⟩
    have hself : s ∈ (m.newRange p a ht).2.rangeList p → s ≠ m.nextRange → s ∈ m.rangeList p := by
      intro hmem hne
      rw [hspec.perm.mem_iff, List.mem_cons] at hmem
      exact hmem.resolve_left hne
    by_cases hq : q = p
    · by_cases hq' : q' = p
      · rw [hq, hq']
      · obtain ⟨hne, hmem'⟩ := hlt q' hq' hs'
        rw [hq] at hs ⊢
        exact h.heap.owner p q' s (hself hs hne) hmem'
    · obtain ⟨hne, hmem⟩ := hlt q hq hs
      by_cases hq' : q' = p
      · rw [hq'] at hs' ⊢
        exact h.heap.owner q p s hmem (hself hs' hne)
      · exact h.heap.owner q q' s hmem (hlt q' hq' hs').2
  · have hrefs := rangeRefs_newRange (p := p) h.heap ht
    cases hd : a.file with
    | none =>
      have hsame : (m.newRange p a ht).2.fileRefs = m.fileRefs ∧
          (m.newRange p a ht).2.fileClosed = m.fileClosed := by
        unfold Machine.newRange
        simp only [hd]
        exact ⟨rfl, rfl⟩
      rw [hsame.1, hsame.2]
      exact h.refs.congr fun d => joined_congr rfl (by rw [hrefs, hd, if_neg (by simp)])
    | some d =>
      have hcount : (m.newRange p a ht).2.fileRefs = Function.update m.fileRefs d (m.fileRefs d + 1) ∧
          (m.newRange p a ht).2.fileClosed = m.fileClosed := by
        unfold Machine.newRange
        simp only [hd]
        exact fileRefs_addRefCount_one _ d
      rw [hcount.1, hcount.2]
      refine h.refs.share (hfile d hd) (x := .inr m.nextRange) ?_ ?_ ?_
      · rw [inr_mem_joined]
        rintro ⟨⟨q, hq⟩, -⟩
        exact absurd (h.heap.lt q _ hq) (lt_irrefl _)
      · exact joined_insert_right (by rw [hrefs, hd, if_pos rfl])
      · intro e he
        refine joined_congr rfl ?_
        rw [hrefs, hd, if_neg (fun hde => he (Option.some.inj hde).symm)]

/-! ## A range that is deleted -/

theorem deleteRange_files (h : m.deleteRange p r = .ok m') :
    m'.fileRefs = (m.addRefCount (m.range r).file (-1)).fileRefs ∧
      m'.fileClosed = (m.addRefCount (m.range r).file (-1)).fileClosed := by
  unfold Machine.deleteRange at h
  dsimp only at h
  obtain ⟨m1, h1, rfl⟩ := bind_pure_ok h
  obtain ⟨hp, -⟩ := pagesOnly_freePages h1
  have hrange : (m1.setList (.range r) []).range r = m.range r := congrFun hp.range r
  have hrefs : (m1.setList (.range r) []).fileRefs = m.fileRefs := hp.fileRefs
  have hclosed : (m1.setList (.range r) []).fileClosed = m.fileClosed := hp.fileClosed
  rw [hrange]
  unfold Machine.addRefCount
  cases (m.range r).file with
  | none => exact ⟨hrefs, hclosed⟩
  | some d =>
    simp only [hrefs, hclosed]
    exact ⟨trivial, trivial⟩

theorem linked_deleteRange (hm : HeapOk m) (hr : r ∈ m.rangeList p) (h : m.deleteRange p r = .ok m')
    (s : RangeId) (q : PagemapId) : s ∈ m'.rangeList q ↔ s ∈ m.rangeList q ∧ s ≠ r := by
  rw [(deleteRange_spec h).rangeList]
  split_ifs with hq
  · rw [hq, (hm.nodup p).mem_erase_iff, and_comm]
  · constructor
    · intro hs
      refine ⟨hs, ?_⟩
      rintro rfl
      exact hq (hm.owner q p s hs hr)
    · exact fun hs => hs.1

theorem rangeRefs_deleteRange (hm : HeapOk m) (hr : r ∈ m.rangeList p)
    (h : m.deleteRange p r = .ok m') (d : FileId) : m'.rangeRefs d = m.rangeRefs d \ {r} := by
  ext s
  unfold Machine.rangeRefs
  simp only [linked_deleteRange hm hr h, (deleteRange_spec h).range, Set.mem_sdiff, Set.mem_ofPred_eq,
    Set.mem_singleton_iff, exists_and_right]
  tauto

theorem FilesKept.deleteRange (h : FilesKept S next G m) (hr : r ∈ m.rangeList p)
    (hrun : m.deleteRange p r = .ok m') : FilesKept S next G m' := by
  have hlinked := linked_deleteRange h.heap hr hrun
  have hrefs := rangeRefs_deleteRange h.heap hr hrun
  have hspec := deleteRange_spec hrun
  obtain ⟨hcount, hclosed⟩ := deleteRange_files hrun
  refine ⟨⟨fun q => ?_, fun q s hs => ?_, fun q q' s hs hs' => ?_⟩, ?_⟩
  · rw [hspec.rangeList]
    split_ifs with hq
    · exact (h.heap.nodup p).erase r
    · exact h.heap.nodup q
  · rw [hspec.nextRange]
    exact h.heap.lt q s ((hlinked s q).mp hs).1
  · exact h.heap.owner q q' s ((hlinked s q).mp hs).1 ((hlinked s q').mp hs').1
  · rw [hcount, hclosed]
    have hother : ∀ e, (m.range r).file ≠ some e → Joined S m'.rangeRefs e = Joined S m.rangeRefs e := by
      intro e he
      refine joined_congr rfl ?_
      rw [hrefs]
      exact Set.sdiff_singleton_eq_self fun hmem => he hmem.2
    cases hd : (m.range r).file with
    | none => exact h.refs.congr fun e => hother e (by simp [hd])
    | some d =>
      have hmem : r ∈ m.rangeRefs d := ⟨⟨p, hr⟩, hd⟩
      have hrel : RefCounted (Joined S m'.rangeRefs) _ _ _ G := h.refs.release (d := d)
        (inr_mem_joined.mpr hmem) (joined_diff_right (hrefs d))
        fun e he => hother e (by rw [hd]; exact fun hde => he (Option.some.inj hde).symm)
      have hneg : ((-1 : ℤ) < 0 ∧ m.fileRefs d + -1 = 0) ↔ m.fileRefs d - 1 = 0 := by omega
      show RefCounted _ (Function.update m.fileRefs d (m.fileRefs d + -1))
        (if (-1 : ℤ) < 0 ∧ m.fileRefs d + -1 = 0 then _ else _) _ G
      rw [if_congr hneg rfl rfl]
      exact hrel

/-! ## The overlap loop -/

/-- The overlap loop does not delete this range: if it is covered it is an exact match. -/
def RangeArgs.Spared (a : RangeArgs) (e : MappedRange) : Prop :=
  a.Hits e → a.base ≤ e.base → e.end_ ≤ a.end_ → a.Exact e

/-- The file of the call is referred to from outside the page maps or by a range that is spared. -/
def Held (S : FileId → Set ι) (a : RangeArgs) (m : Machine) : Prop :=
  ∀ d, a.file = some d →
    (S d).Nonempty ∨ ∃ s ∈ m.rangeRefs d, a.Spared (m.range s)

theorem Held.referred (h : Held S a m) : Referred S m a.file := by
  intro d hd
  rcases h d hd with ⟨x, hx⟩ | ⟨s, hs, -⟩
  · exact ⟨.inl x, inl_mem_joined.mpr hx⟩
  · exact ⟨.inr s, inr_mem_joined.mpr hs⟩

theorem held_of_noFile (h : a.file = none) : Held S a m := by
  intro d hd
  rw [h] at hd
  simp at hd

/-- A range that the loop has cut ends where the window begins or begins where it ends. -/
theorem spared_of_miss {e : MappedRange} (h : a.end_ ≤ e.base ∨ e.end_ ≤ a.base) : a.Spared e := by
  intro hit
  unfold RangeArgs.Hits at hit
  exact absurd (h.symm.imp id id) hit

theorem Held.cut (h : Held S a m) {x : MappedRange} (hx : x.file = (m.range r).file) (hmiss : a.end_ ≤ x.base ∨ x.end_ ≤ a.base)
    (hlinked : ∀ s, (∃ q, s ∈ m.rangeList q) → ∃ q, s ∈ m'.rangeList q)
    (hrange : ∀ s, (∃ q, s ∈ m.rangeList q) → m'.range s = if s = r then x else m.range s) :
    Held S a m' := by
  intro d hd
  refine (h d hd).imp id ?_
  rintro ⟨s, ⟨hs, hfile⟩, hspared⟩
  refine ⟨s, ⟨hlinked s hs, ?_⟩, ?_⟩
  · rw [hrange s hs]
    split_ifs with hsr
    · rw [hx, ← hsr, hfile]
    · exact hfile
  · rw [hrange s hs]
    split_ifs with hsr
    · exact spared_of_miss hmiss
    · exact hspared

theorem Held.congr (h : Held S a m) (hl : ∀ q, m'.rangeList q = m.rangeList q)
    (hr : m'.range = m.range) : Held S a m' := by
  intro d hd
  refine (h d hd).imp id ?_
  rintro ⟨s, hs, hspared⟩
  refine ⟨s, ?_, by rwa [hr]⟩
  rwa [rangeRefs_congr hl (fun s => by rw [hr])]

section

variable (h : FilesKept S next G m)

include h

theorem FilesKept.resolveOne (hheld : Held S a m) (hr : r ∈ m.rangeList p)
    (hone : ResolveOne m p a r .changed m') : FilesKept S next G m' ∧ Held S a m' := by
  have hcut : ∀ {x : MappedRange}, x.file = (m.range r).file → (a.end_ ≤ x.base ∨ x.end_ ≤ a.base) →
      Held S a (m.setRange r x) := fun hx hmiss =>
    hheld.cut hx hmiss (fun _ => id) fun s _ => range_setRange m r s _
  cases hone with
  | covered hit low high exact run del =>
    have ho := pagesOnly_invalidatePages run
    have h1 := h.pagesOnly ho
    have hr1 : r ∈ _ := (ho.rangeList p).symm ▸ hr
    refine ⟨h1.deleteRange hr1 del, ?_⟩
    intro d hd
    refine ((hheld.congr ho.rangeList ho.range) d hd).imp id ?_
    rintro ⟨s, hs, hspared⟩
    refine ⟨s, ?_, by rwa [(deleteRange_spec del).range]⟩
    rw [rangeRefs_deleteRange h1.heap hr1 del]
    refine ⟨hs, ?_⟩
    rintro rfl
    rw [ho.range] at hspared
    exact exact (hspared hit low high)
  | front hit low high =>
    exact ⟨h.setRange r _ rfl, hcut rfl (.inl (by simp [trimFront_base]))⟩
  | back hit low high =>
    exact ⟨h.setRange r _ rfl, hcut rfl (.inr (by simp [trimBack_end]))⟩
  | split hit low high run =>
    have ho := pagesOnly_invalidatePages run
    have hlow : FilesKept S next G ((m.setRange r (splitLow a (m.range r))).clearCache p) :=
      (h.setRange r (splitLow a (m.range r)) rfl).clearCache p
    -- the lower half still refers to the file of the range
    have hfile : Referred S ((m.setRange r (splitLow a (m.range r))).clearCache p) (m.range r).file := by
      intro d hd
      refine ⟨.inr r, inr_mem_joined.mpr ⟨⟨p, ?_⟩, ?_⟩⟩
      · rw [rangeList_clearCache, rangeList_setRange]
        exact hr
      · rw [range_clearCache, range_setRange, if_pos rfl]
        exact hd
    have hsplit : FilesKept S next G (splitState m p a r) := hlow.newRange _ hfile
    have hspec := splitState_spec m p a r
    have hheld' : Held S a (splitState m p a r) := by
      refine hheld.cut (x := splitLow a (m.range r)) rfl (.inr (by simp [splitLow_end]))
        ?_ ?_
      · rintro s ⟨q, hs⟩
        by_cases hq : q = p
        · rw [hq] at hs
          refine ⟨p, hspec.perm.mem_iff.mpr (List.mem_cons_of_mem _ ?_)⟩
          rw [rangeList_clearCache]
          exact hs
        · refine ⟨q, ?_⟩
          rw [hspec.rangeList_other q hq, rangeList_clearCache]
          exact hs
      · rintro s ⟨q, hs⟩
        rw [range_splitState, if_neg (h.heap.lt q s hs).ne]
    exact ⟨hsplit.pagesOnly ho, hheld'.congr ho.rangeList ho.range⟩

theorem FilesKept.found (hone : ResolveOne m p a r .found m') : FilesKept S next G m' := by
  cases hone with
  | found => exact h
  | reflag _ _ _ run =>
    exact (h.setRange r { m.range r with pageFlags := a.pageFlags } rfl).pagesOnly
      (pagesOnly_invalidatePages run)

theorem FilesKept.finish {had : Bool} {res : Option RangeId} (hfile : Referred S m a.file)
    (hfin : FinishAddRange m p a had res m') :
    FilesKept S next G m' ∧ ∀ q, q ≠ p → m'.rangeList q = m.rangeList q := by
  cases hfin with
  | growEnd _ _ _ _ _ _ run =>
    have ho := pagesOnly_invalidateIf run
    exact ⟨(h.setRange _ (growEnd a _) rfl).pagesOnly ho, fun q _ => ho.rangeList q⟩
  | growFront _ _ _ _ _ _ run =>
    have ho := pagesOnly_invalidateIf run
    exact ⟨(h.setRange _ (growFront a _) rfl).pagesOnly ho, fun q _ => ho.rangeList q⟩
  | unmap _ run =>
    have ho := pagesOnly_invalidatePages run
    exact ⟨h.pagesOnly ho, fun q _ => ho.rangeList q⟩
  | insert type run =>
    have ho := pagesOnly_invalidateIf run
    refine ⟨(h.newRange type hfile).pagesOnly ho, fun q hq => ?_⟩
    rw [ho.rangeList, (newRange_spec m p a type).rangeList_other q hq]

/-- **A call of `add_range`.** It keeps the count, and the lists of other page maps. -/
theorem FilesKept.addRange {res : Option RangeId} (hheld : Held S a m)
    (hover : a.resolveOverlap = true) (hrun : m.addRange p a = .ok (res, m')) :
    FilesKept S next G m' ∧ ∀ q, q ≠ p → m'.rangeList q = m.rangeList q := by
  have hstart : PassInv p a m (m.rangeList p) (m.clearCache p) :=
    (PassInv.start a h.heap).congr (rangeList_clearCache m p) rfl rfl
  have hheld0 : Held S a (m.clearCache p) := hheld.congr (rangeList_clearCache m p) rfl
  rcases addRange_rule
    (P := fun rest _ s => PassInv p a m rest s ∧ FilesKept S next G s ∧ Held S a s)
    (fun s rest again n hP miss => ⟨hP.1.step (.noOverlap miss) (by decide), hP.2⟩)
    (fun s rest again n n' hP hone => ⟨hP.1.step hone (by decide),
      hP.2.1.resolveOne hP.2.2 hP.1.head.2.1 hone⟩)
    h.heap hover ⟨hstart, h.clearCache p, hheld0⟩ hrun with
    ⟨s, rest, again, m1, -, hP, hone⟩ | ⟨had, m1, hP, hfin⟩
  · refine ⟨hP.2.1.found hone, fun q hq => ?_⟩
    cases hone with
    | found => exact hP.1.others q hq
    | reflag _ _ _ run =>
      exact ((pagesOnly_invalidatePages run).rangeList q).trans (hP.1.others q hq)
  · obtain ⟨h1, hother⟩ := hP.2.1.finish hP.2.2.referred hfin
    exact ⟨h1, fun q hq => (hother q hq).trans (hP.1.others q hq)⟩

end

/-! ## The calls of a process -/

/-- The count and the page maps between two calls: those in `L` are alive, and the numbers from
    `maps` on have not been given to one. -/
structure FilesOk (S : FileId → Set ι) (next : FileId) (G : Set FileId) (L : Set ℕ) (maps : ℕ) (m : Machine) :
    Prop where
  kept : FilesKept S next G m
  lt : ∀ n ∈ L, n < maps
  cache : ∀ n ∈ L, CacheOk m (.user n)
  unmade : ∀ n, maps ≤ n → m.rangeList (.user n) = []

namespace FilesOk

variable {L : Set ℕ} {maps n : ℕ} {proc proc' : Process} {sys : SysResult}

section

variable (h : FilesOk S next G L maps m)

include h

/-- A call that works on the page map `n` alone. -/
theorem of_others (hn : n ∈ L) (hkept : FilesKept S next G m')
    (hl : ∀ q, q ≠ .user n → m'.rangeList q = m.rangeList q)
    (hc : ∀ q, q ≠ .user n → (m'.pagemap q).cachedRangeLookup = (m.pagemap q).cachedRangeLookup)
    (hself : CacheOk m' (.user n)) : FilesOk S next G L maps m' := by
  refine ⟨hkept, h.lt, fun k hk => ?_, fun k hk => ?_⟩
  · by_cases hkn : k = n
    · rw [hkn]
      exact hself
    · have hne : PagemapId.user k ≠ .user n := by simpa using hkn
      intro c hcache
      rw [hc _ hne] at hcache
      rw [hl _ hne, hl .kernel (by simp)]
      exact h.cache k hk c hcache
  · have hlt := h.lt n hn
    rw [hl _ (by simp; omega)]
    exact h.unmade k hk

theorem sameRanges (hn : n ∈ L) (hs : SameRanges (.user n) m m') (hself : CacheOk m' (.user n)) :
    FilesOk S next G L maps m' :=
  h.of_others hn (h.kept.sameRanges hs) (fun q _ => hs.rangeList q) hs.cache_other hself

theorem pagesOnly (ho : PagesOnly m m') : FilesOk S next G L maps m' :=
  ⟨h.kept.pagesOnly ho, h.lt, fun k hk => (h.cache k hk).congr (ho.cachedRangeLookup _) ho.rangeList,
    fun k hk => (ho.rangeList _).trans (h.unmade k hk)⟩

theorem addRange {res : Option RangeId} (hn : n ∈ L) (hheld : Held S a m)
    (hover : a.resolveOverlap = true) (hrun : m.addRange (.user n) a = .ok (res, m')) :
    FilesOk S next G L maps m' := by
  obtain ⟨hkept, hl⟩ := h.kept.addRange hheld hover hrun
  obtain ⟨hframe, hcache⟩ := addRange_frame h.kept.heap hover hrun
  refine h.of_others hn hkept hl hframe.cache_other ?_
  intro c hc
  rw [hcache] at hc
  simp at hc

theorem mapAnonymous {base length pageFlags : U64} {keepPages : Bool} (hn : n ∈ L)
    (hrun : m.mapAnonymous (.user n) base length pageFlags keepPages = .ok m') :
    FilesOk S next G L maps m' := by
  unfold Machine.mapAnonymous at hrun
  obtain ⟨-, -, hrun⟩ := bind_ok hrun
  obtain ⟨⟨res, m1⟩, h1, rfl⟩ := bind_pure_ok hrun
  exact h.addRange hn (held_of_noFile rfl) rfl h1

theorem unmapRange {base length : U64} (hn : n ∈ L)
    (hrun : m.unmapRange (.user n) base length = .ok m') : FilesOk S next G L maps m' := by
  unfold Machine.unmapRange at hrun
  obtain ⟨⟨res, m1⟩, h1, rfl⟩ := bind_pure_ok hrun
  exact h.addRange hn (held_of_noFile rfl) rfl h1

theorem mapFile {base length pageFlags offset : U64} {file : FileId} (hn : n ∈ L)
    (hfile : (S file).Nonempty)
    (hrun : m.mapFile (.user n) base length pageFlags file offset = .ok m') :
    FilesOk S next G L maps m' := by
  unfold Machine.mapFile at hrun
  obtain ⟨-, -, hrun⟩ := bind_ok hrun
  obtain ⟨⟨res, m1⟩, h1, rfl⟩ := bind_pure_ok hrun
  refine h.addRange hn (fun d hd => .inl ?_) rfl h1
  rw [← Option.some.inj hd]
  exact hfile

theorem nodeMmap {fd : FileDescription} {addr length offset : U64} {prot flags : Flags} (hn : n ∈ L)
    (hfd : (S fd.id).Nonempty)
    (hrun : m.nodeMmap (.user n) fd addr length offset prot flags = .ok (sys, m')) :
    FilesOk S next G L maps m' := by
  unfold Machine.nodeMmap at hrun
  simp only at hrun
  split at hrun
  · obtain ⟨m1, h1, hrun⟩ := bind_ok hrun
    cases hrun
    exact h.mapFile hn hfd h1
  · split_ifs at hrun
    · obtain ⟨m1, h1, hrun⟩ := bind_ok hrun
      cases hrun
      unfold Machine.mapVirtual at h1
      obtain ⟨⟨res, m2⟩, h2, rfl⟩ := bind_pure_ok h1
      exact h.addRange hn (held_of_noFile rfl) rfl h2
    · obtain ⟨m1, h1, hrun⟩ := bind_ok hrun
      cases hrun
      exact h.mapFile hn hfd h1
    · cases hrun
      exact h
  · obtain ⟨m1, h1, hrun⟩ := bind_ok hrun
    cases hrun
    unfold Machine.mapDirect at h1
    obtain ⟨-, -, h1⟩ := bind_ok h1
    obtain ⟨⟨res, m2⟩, h2, rfl⟩ := bind_pure_ok h1
    exact h.addRange hn (held_of_noFile rfl) rfl h2
  · cases hrun
    exact h
  · cases hrun
    exact h

theorem mmap {addr length offset : U64} {prot flags : Flags} {fd : Option FileDescription}
    (hn : n ∈ L) (hfd : ∀ description, fd = some description → (S description.id).Nonempty)
    (hrun : m.syscallMmap (.user n) proc addr length prot flags fd offset = .ok (sys, proc', m')) :
    FilesOk S next G L maps m' := by
  unfold Machine.syscallMmap at hrun
  by_cases hlen : length = 0#64
  · rw [if_pos hlen] at hrun
    obtain ⟨-, -, rfl⟩ := pure_triple hrun
    exact h
  rw [if_neg hlen] at hrun
  obtain ⟨base, proc1, hplace⟩ : ∃ base proc1,
      Machine.mmapPlace proc addr (alignUp length pageSize) flags = (base, proc1) := ⟨_, _, rfl⟩
  simp only [hplace] at hrun
  by_cases hanon : flags.has mapAnonymousFlag = true
  · rw [if_pos hanon] at hrun
    obtain ⟨m1, h1, hrun⟩ := bind_ok hrun
    obtain ⟨-, -, rfl⟩ := pure_triple hrun
    exact h.mapAnonymous hn h1
  rw [if_neg hanon] at hrun
  cases fd with
  | none =>
    obtain ⟨-, -, rfl⟩ := pure_triple hrun
    exact h
  | some description =>
    simp only at hrun
    split_ifs at hrun
    · obtain ⟨-, -, rfl⟩ := pure_triple hrun
      exact h
    · obtain ⟨-, -, rfl⟩ := pure_triple hrun
      exact h
    · obtain ⟨⟨res, m1⟩, h1, hrun⟩ := bind_ok hrun
      obtain ⟨-, -, rfl⟩ := pure_triple hrun
      exact h.nodeMmap hn (hfd description rfl) h1

theorem munmap {addr length : U64} (hn : n ∈ L)
    (hrun : m.syscallMunmap (.user n) proc addr length = .ok (sys, proc', m')) :
    FilesOk S next G L maps m' := by
  unfold Machine.syscallMunmap at hrun
  split_ifs at hrun
  · obtain ⟨-, -, rfl⟩ := pure_triple hrun
    exact h
  · obtain ⟨m1, h1, hrun⟩ := bind_ok hrun
    obtain ⟨-, -, rfl⟩ := pure_triple hrun
    exact h.unmapRange hn h1

theorem brk {addr : U64} (hn : n ∈ L)
    (hrun : m.syscallBrk (.user n) proc addr = .ok (sys, proc', m')) :
    FilesOk S next G L maps m' := by
  unfold Machine.syscallBrk at hrun
  by_cases hzero : addr = 0#64
  · rw [if_pos hzero] at hrun
    obtain ⟨-, -, rfl⟩ := pure_triple hrun
    exact h
  · rw [if_neg hzero] at hrun
    obtain ⟨m1, h1, hrun⟩ := bind_ok hrun
    obtain ⟨-, -, rfl⟩ := pure_triple hrun
    split_ifs at h1
    · exact h.mapAnonymous hn h1
    · exact h.unmapRange hn h1
    · cases h1
      exact h

theorem madvise {addr length : U64} {advice : Advice}
    (hrun : m.syscallMadvise (.user n) addr length advice = .ok (sys, m')) :
    FilesOk S next G L maps m' := by
  unfold Machine.syscallMadvise at hrun
  split_ifs at hrun
  · cases hrun
    exact h
  · cases advice with
    | ignored =>
      cases hrun
      exact h
    | dontNeed =>
      obtain ⟨m1, h1, hrun⟩ := bind_ok hrun
      cases hrun
      exact foldlM_ok_invariant (FilesOk S next G L maps) h
        (fun i s s' _ hs hstep => hs.pagesOnly (pagesOnly_invalidatePage hstep)) h1
    | unsupported =>
      cases hrun
      exact h

theorem fault {virt : U64} {res : Option U64} (hn : n ∈ L)
    (hrun : m.handlePageFault (.user n) virt = .ok (res, m')) : FilesOk S next G L maps m' :=
  h.sameRanges hn (sameRanges_handlePageFault hrun) (cacheOk_handlePageFaultFuel (h.cache n hn) hrun)

end

/-! ## `mprotect` -/

/-- The range under the cursor is not deleted while its flags are changed. -/
theorem spared_protectArgs {e : MappedRange} {current end_ pageFlags : U64}
    (hcur : e.Contains current) (hend : current < end_) :
    (Machine.protectArgs e current end_ pageFlags).Spared e := by
  intro _ hlow hhigh
  unfold MappedRange.Contains at hcur
  unfold Machine.protectArgs RangeArgs.end_ at hhigh
  have hbase : current ≤ e.base := hlow
  simp only at hhigh
  refine ⟨rfl, ?_, ?_, rfl⟩
  · show current = e.base
    bv_omega
  · unfold Machine.protectArgs RangeArgs.end_
    simp only
    split_ifs at hhigh ⊢ <;> bv_omega

theorem protectLoop {end_ pageFlags : U64} {fuel : ℕ} : ∀ {current : U64} {m : Machine},
    FilesOk S next G L maps m → n ∈ L →
      Machine.protectLoop (.user n) end_ pageFlags fuel current m = .ok (sys, m') →
      FilesOk S next G L maps m' := by
  induction fuel with
  | zero =>
    intro current m _ _ hrun
    simp [Machine.protectLoop] at hrun
  | succ fuel ih =>
    intro current m h hn hrun
    unfold Machine.protectLoop at hrun
    by_cases hend : current < end_
    · rw [if_pos hend] at hrun
      obtain ⟨res, m1, hfind⟩ : ∃ res m1, m.addrToRange (.user n) current = (res, m1) := ⟨_, _, rfl⟩
      have hsame := sameRanges_addrToRange hfind
      have h1 := h.sameRanges hn hsame (cacheOk_addrToRange (h.cache n hn) hfind)
      rw [hfind] at hrun
      cases res with
      | none =>
        cases hrun
        exact h1
      | some r =>
        obtain ⟨⟨res, m2⟩, hadd, hrun⟩ := bind_ok hrun
        obtain ⟨hlinked, hcur, -⟩ := addrToRange_some (h.cache n hn) hfind
        refine ih (h1.addRange hn ?_ rfl hadd) hn hrun
        intro d hd
        refine .inr ⟨r, ⟨?_, hd⟩, ?_⟩
        · simp only [hsame.rangeList]
          exact hlinked.elim (fun hr => ⟨_, hr⟩) fun hr => ⟨_, hr⟩
        · exact spared_protectArgs (by rwa [hsame.range]) hend
    · rw [if_neg hend] at hrun
      cases hrun
      exact h

theorem mprotect {addr length : U64} {prot : Flags} (h : FilesOk S next G L maps m) (hn : n ∈ L)
    (hrun : m.syscallMprotect (.user n) addr length prot = .ok (sys, m')) :
    FilesOk S next G L maps m' := by
  unfold Machine.syscallMprotect at hrun
  split_ifs at hrun
  · cases hrun
    exact h
  · exact h.protectLoop hn hrun

/-! ## Page maps -/

theorem newPagemap_files (hrun : m.newPagemap p = .ok m') :
    m'.fileRefs = m.fileRefs ∧ m'.fileClosed = m.fileClosed := by
  unfold Machine.newPagemap at hrun
  dsimp only at hrun
  obtain ⟨⟨f, m1⟩, h1, rfl⟩ := bind_pure_ok hrun
  have hsame := (allocPageForPageTable_spec h1).same
  constructor
  · show m1.fileRefs = _
    rw [hsame]
    rfl
  · show m1.fileClosed = _
    rw [hsame]
    rfl

theorem create (h : FilesOk S next G L maps m)
    (hkept : FilesKept S next G m') (hl : ∀ q, q ≠ .user maps → m'.rangeList q = m.rangeList q)
    (hc : ∀ q, q ≠ .user maps → (m'.pagemap q).cachedRangeLookup = (m.pagemap q).cachedRangeLookup)
    (hself : (m'.pagemap (.user maps)).cachedRangeLookup = none) :
    FilesOk S next G (insert maps L) (maps + 1) m' := by
  refine ⟨hkept, ?_, ?_, ?_⟩
  · intro n hn
    rcases Set.mem_insert_iff.mp hn with rfl | hn
    · omega
    · have := h.lt n hn
      omega
  · intro n hn c hcache
    by_cases hnm : n = maps
    · rw [hnm, hself] at hcache
      simp at hcache
    · have hne : PagemapId.user n ≠ .user maps := by simpa using hnm
      rw [hc _ hne] at hcache
      rw [hl _ hne, hl .kernel (by simp)]
      exact h.cache n ((Set.mem_insert_iff.mp hn).resolve_left hnm) c hcache
  · intro n hn
    rw [hl _ (by simp; omega)]
    exact h.unmade n (by omega)

theorem newPagemap (h : FilesOk S next G L maps m) (hrun : m.newPagemap (.user maps) = .ok m') :
    FilesOk S next G (insert maps L) (maps + 1) m' := by
  obtain ⟨⟨f, hself⟩, hother, -, hrange, hnext⟩ := newPagemap_pagemap hrun
  obtain ⟨hrefs, hclosed⟩ := newPagemap_files hrun
  have hl : ∀ q, m'.rangeList q = m.rangeList q := by
    intro q
    by_cases hq : q = .user maps
    · rw [hq, h.unmade maps le_rfl]
      unfold Machine.rangeList
      rw [hself]
      rfl
    · unfold Machine.rangeList
      rw [hother q hq]
  refine h.create (h.kept.congr hl (fun s => by rw [hrange]) hnext hrefs hclosed) (fun q _ => hl q)
    (fun q hq => by rw [hother q hq]) ?_
  rw [hself]
  rfl

/-- A copy of a range of another page map takes a reference of its own. -/
theorem linkedCopy_kept {q : PagemapId} (h : FilesKept S next G m) (hr : r ∈ m.rangeList p) :
    FilesKept S next G (linkedCopy m q (m.range r)) := by
  refine (h.clearCache q).newRange (m.range r).type_ne ?_
  intro d hd
  refine ⟨.inr r, inr_mem_joined.mpr ⟨⟨p, ?_⟩, hd⟩⟩
  rw [rangeList_clearCache]
  exact hr

/-- In the middle of `fork`: the ranges of other page maps stay as they are. -/
structure CopyingFiles (S : FileId → Set ι) (next : FileId) (G : Set FileId) (q : PagemapId) (m m' : Machine) :
    Prop where
  kept : FilesKept S next G m'
  lists : ∀ o, o ≠ q → m'.rangeList o = m.rangeList o
  cache_other : ∀ o, o ≠ q →
    (m'.pagemap o).cachedRangeLookup = (m.pagemap o).cachedRangeLookup
  cache : (m'.pagemap q).cachedRangeLookup = none

theorem CopyingFiles.forkRange {q : PagemapId} {m1 m2 : Machine} (h : CopyingFiles S next G q m m1)
    (hr : r ∈ m.rangeList p) (hne : p ≠ q) (hrun : Machine.forkRange q m1 r = .ok m2) :
    CopyingFiles S next G q m m2 := by
  have hr1 : r ∈ m1.rangeList p := by rwa [h.lists p hne]
  have hlink : CopyingFiles S next G q m (linkedCopy m1 q (m1.range r)) := by
    refine ⟨linkedCopy_kept h.kept hr1, fun o ho => ?_, fun o ho => ?_, cache_linkedCopy m1 q _⟩
    · unfold Machine.rangeList
      rw [pagemap_linkedCopy m1 _ ho]
      exact h.lists o ho
    · rw [pagemap_linkedCopy m1 _ ho]
      exact h.cache_other o ho
  rw [forkRange_eq] at hrun
  split_ifs at hrun
  · refine foldlM_ok_invariant (CopyingFiles S next G q m) hlink ?_ hrun
    intro g s s' _ hs hstep
    obtain ⟨hsame, hcache⟩ := forkPage_same hstep
    exact ⟨hs.kept.sameRanges hsame, fun o ho => (hsame.rangeList o).trans (hs.lists o ho),
      fun o ho => (hsame.cache_other o ho).trans (hs.cache_other o ho), hcache.trans hs.cache⟩
  · cases hrun
    exact hlink

section

variable (h : FilesOk S next G L maps m)

include h

/-- A forked page map refers to the files once more. -/
theorem fork (hn : n ∈ L) (hrun : m.fork (.user n) (.user maps) = .ok m') :
    FilesOk S next G (insert maps L) (maps + 1) m' := by
  have hlt := h.lt n hn
  have hne : PagemapId.user n ≠ .user maps := by
    simp
    omega
  unfold Machine.fork at hrun
  obtain ⟨m0, h0, hrun⟩ := bind_ok hrun
  have ht := tablesForked_forkStart h0
  have hl : ∀ q, m0.rangeList q = m.rangeList q := by
    intro q
    by_cases hq : q = .user maps
    · rw [hq, ht.rangeList, h.unmade maps le_rfl]
    · unfold Machine.rangeList
      rw [ht.pagemap q hq]
  have hkept : FilesKept S next G m0 :=
    h.kept.congr hl (fun s => by rw [ht.range]) ht.nextRange (by rw [ht.rest]) (by rw [ht.rest])
  have hcopied : CopyingFiles S next G (.user maps) m m' := by
    refine foldlM_ok_invariant (CopyingFiles S next G (.user maps) m) ?_ ?_ hrun
    · exact ⟨hkept, fun o _ => hl o, fun o ho => by rw [ht.pagemap o ho], ht.cache⟩
    · intro r s s' hr hs hstep
      rw [hl] at hr
      exact hs.forkRange hr hne hstep
  exact h.create hcopied.kept hcopied.lists hcopied.cache_other hcopied.cache

/-- The segments of a binary take no reference. -/
theorem elfLoad {loadBase firstFree : U64} {segments : List Machine.Segment} {res : U64}
    (hn : n ∈ L) (hrun : Machine.elfLoad (.user n) loadBase segments firstFree m = .ok (res, m')) :
    FilesOk S next G L maps m' := by
  unfold Machine.elfLoad at hrun
  obtain ⟨⟨last, m1⟩, h1, hrun⟩ := bind_ok hrun
  cases hrun
  refine foldlM_ok_invariant (fun fm : U64 × Machine => FilesOk S next G L maps fm.2)
    (s := (firstFree, m)) h ?_ h1
  rintro ph ⟨first, s⟩ ⟨first', s'⟩ - hs hstep
  unfold Machine.loadSegment at hstep
  obtain ⟨m2, h2, hstep⟩ := bind_ok hstep
  cases hstep
  exact FilesOk.mapAnonymous hs hn h2

theorem execve {binaryBase : U64} {binary : List Machine.Segment}
    {linker : Option (U64 × List Machine.Segment)}
    (hrun : m.execve (.user maps) binaryBase binary linker = .ok (proc, m')) :
    FilesOk S next G (insert maps L) (maps + 1) m' := by
  have hn : maps ∈ insert maps L := Set.mem_insert maps L
  unfold Machine.execve at hrun
  obtain ⟨m1, h1, hrun⟩ := bind_ok hrun
  obtain ⟨⟨first, m2⟩, h2, hrun⟩ := bind_ok hrun
  obtain ⟨m3, h3, hrun⟩ := bind_ok hrun
  obtain ⟨m4, h4, hrun⟩ := bind_ok hrun
  cases hrun
  have hbinary := (h.newPagemap h1).elfLoad hn h2
  refine FilesOk.mapAnonymous ?_ hn h4
  cases linker with
  | none =>
    cases h3
    exact hbinary
  | some x =>
    obtain ⟨⟨res, m5⟩, h5, rfl⟩ := bind_pure_ok h3
    exact hbinary.elfLoad hn h5

/-- A page map that goes takes the references of its ranges with it. -/
theorem deletePagemap (hn : n ∈ L) (hrun : m.deletePagemap (.user n) = .ok m') :
    FilesOk S next G (L \ {n}) maps m' := by
  unfold Machine.deletePagemap at hrun
  obtain ⟨s, h1, hrun⟩ := bind_ok hrun
  obtain ⟨s', h2, rfl⟩ := bind_pure_ok hrun
  have hloop := (yields_foldlM (E := fun _ => True) (l := m.rangeList (.user n))
    (f := fun m r => Machine.deleteRange m (.user n) r) (s := m)
    (R := fun pre s => FilesKept S next G s ∧
      (∀ q, s.rangeList q = if q = .user n then (m.rangeList (.user n)).drop pre.length
        else m.rangeList q) ∧
      ∀ q, (s.pagemap q).cachedRangeLookup = (m.pagemap q).cachedRangeLookup) ?_ ?_).ok h1
  · obtain ⟨hkept, hl, hc⟩ := hloop
    obtain ⟨ho, hmaps⟩ := pagesOnly_freePages h2
    have hl' : ∀ q, q ≠ .user n → s'.rangeList q = m.rangeList q := by
      intro q hq
      rw [ho.rangeList, hl, if_neg hq]
    refine ⟨(hkept.pagesOnly ho).congr (fun _ => rfl) (fun _ => rfl) rfl rfl rfl,
      fun k hk => h.lt k hk.1, fun k hk c hcache => ?_, fun k hk => ?_⟩
    · have hne : PagemapId.user k ≠ .user n := by simpa using hk.2
      have hcache' : (s'.pagemap (.user k)).cachedRangeLookup = some c := hcache
      rw [hmaps, hc] at hcache'
      show c ∈ s'.rangeList _ ∨ c ∈ s'.rangeList _
      rw [hl' _ hne, hl' .kernel (by simp)]
      exact h.cache k hk.1 c hcache'
    · have hlt := h.lt n hn
      show s'.rangeList _ = []
      rw [hl' _ (by simp; omega)]
      exact h.unmade k hk
  · rintro pre r post s hl ⟨hkept, hlists, hc⟩
    refine yields_of_ok fun s' hdel => ⟨?_, fun q => ?_, fun q => ?_⟩
    · refine hkept.deleteRange ?_ hdel
      rw [hlists, if_pos rfl, hl]
      simp
    · rw [(deleteRange_spec hdel).rangeList]
      split_ifs with hq
      · rw [hlists, if_pos rfl, hl]
        simp
      · rw [hlists, if_neg hq]
    · rw [(deleteRange_spec hdel).cache, hc]
  · refine ⟨h.kept, fun q => ?_, fun _ => rfl⟩
    split_ifs with hq
    · rw [hq]
      rfl
    · rfl

end

end FilesOk

end Fishix.Mem
