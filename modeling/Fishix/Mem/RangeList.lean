import Fishix.Mem.Invalidate

/-!
# How `add_range` changes the range list

* `resolveOne_cases` (`ResolveOne`): what the body of the overlap loop does with one
  range: nothing, return it, delete it, trim it at either end, or split it. What is left
  of the range is a `Piece` of it.
* `finishAddRange_cases` (`FinishAddRange`): what happens after the loop: a neighbour
  grows, nothing is linked, or a new range is linked.
* `RangesOnly`, `NewRange`, `DeletedRange`: frame conditions of the parts.
-/

namespace Fishix.Mem

/-! ## Vocabulary -/

/-- `v` is in `[base, base + length)`. -/
def RangeArgs.Covers (a : RangeArgs) (v : U64) : Prop := a.base ≤ v ∧ v < a.end_

instance (a : RangeArgs) (v : U64) : Decidable (a.Covers v) := inferInstanceAs (Decidable (_ ∧ _))

/-- The test of the overlap loop does not `continue`. -/
def RangeArgs.Hits (a : RangeArgs) (e : MappedRange) : Prop :=
  ¬ (a.base ≥ e.end_ ∨ a.end_ ≤ e.base)

instance (a : RangeArgs) (e : MappedRange) : Decidable (a.Hits e) :=
  inferInstanceAs (Decidable (¬ _))

/-- The shape of the kernel heap: a range is linked once, in one list, and has been
    allocated. -/
structure HeapOk (m : Machine) : Prop where
  nodup : ∀ p, (m.rangeList p).Nodup
  lt : ∀ p, ∀ r ∈ m.rangeList p, r < m.nextRange
  owner : ∀ p q r, r ∈ m.rangeList p → r ∈ m.rangeList q → p = q

/-- No address is in two ranges of the list. -/
def DisjointRanges (m : Machine) (p : PagemapId) : Prop :=
  ∀ r ∈ m.rangeList p, ∀ s ∈ m.rangeList p, r ≠ s → ∀ v,
    (m.range r).Contains v → ¬ (m.range s).Contains v

/-- `e'` is what is left of `e`: `e` itself, trimmed at one end, or one half of a split. -/
structure Piece (a : RangeArgs) (e e' : MappedRange) : Prop where
  sub : ∀ v, e'.Contains v → e.Contains v
  type : e'.type = e.type
  pageFlags : e'.pageFlags = e.pageFlags
  file : e'.file = e.file
  base_eq : e'.base = e.base ∨ a.Hits e ∧ e'.base = a.end_
  end_eq : e'.end_ = e.end_ ∨ a.Hits e ∧ e'.end_ = a.base
  lt : e.base < e.end_ → e'.base < e'.end_
  le : e.base ≤ e.end_ → e'.base ≤ e'.end_
  position :
    (e'.originalBase = e.originalBase ∧ e'.phyBase = e.phyBase ∧ e'.fileOffset = e.fileOffset) ∨
    (e.base < a.base ∧ a.end_ < e.end_ ∧ a.Hits e ∧ e'.originalBase = a.end_ ∧
      e'.phyBase = Machine.offsetPhy e.phyBase (a.end_ - e.base) ∧
      e'.fileOffset = e.fileOffset + (a.end_ - e.base))

theorem Piece.refl (a : RangeArgs) (e : MappedRange) : Piece a e e :=
  ⟨fun _ h => h, rfl, rfl, rfl, .inl rfl, .inl rfl, id, id, .inl ⟨rfl, rfl, rfl⟩⟩

/-! ## The pieces of one range -/

/-- `existing->base += overlap; existing->length -= overlap`. -/
def trimFront (a : RangeArgs) (e : MappedRange) : MappedRange :=
  { e with base := e.base + (a.end_ - e.base), length := e.length - (a.end_ - e.base) }

/-- `existing->length -= existing->end() - base`. -/
def trimBack (a : RangeArgs) (e : MappedRange) : MappedRange :=
  { e with length := e.length - (e.end_ - a.base) }

/-- `existing->length = base - existing->base`. -/
def splitLow (a : RangeArgs) (e : MappedRange) : MappedRange :=
  { e with length := a.base - e.base }

/-- The range made by the recursive call of a split. -/
def splitHigh (a : RangeArgs) (e : MappedRange) : MappedRange :=
  { base := a.end_, originalBase := a.end_, length := e.end_ - a.end_, pageFlags := e.pageFlags
    type := e.type, phyBase := Machine.offsetPhy e.phyBase (a.end_ - e.base), file := e.file
    fileOffset := e.fileOffset + (a.end_ - e.base), type_ne := e.type_ne }

section

variable (a : RangeArgs) (e : MappedRange)

include a e

theorem trimFront_end : (trimFront a e).end_ = e.end_ := by
  simp only [trimFront, MappedRange.end_]
  bv_omega

theorem trimFront_base : (trimFront a e).base = a.end_ := by
  simp only [trimFront]
  bv_omega

theorem trimBack_end : (trimBack a e).end_ = a.base := by
  simp only [trimBack, MappedRange.end_]
  bv_omega

theorem splitLow_eq : splitLow a e = trimBack a e := by
  simp only [splitLow, trimBack, MappedRange.end_, MappedRange.mk.injEq, and_true, true_and]
  bv_omega

theorem splitLow_end : (splitLow a e).end_ = a.base := by
  rw [splitLow_eq, trimBack_end]

theorem splitHigh_end : (splitHigh a e).end_ = e.end_ := by
  simp only [splitHigh, MappedRange.end_]
  bv_omega

end

section

variable {a : RangeArgs} {e : MappedRange} (hit : a.Hits e)

include hit

theorem piece_trimFront (h2 : a.end_ < e.end_) : Piece a e (trimFront a e) := by
  have hb := trimFront_base a e
  have he := trimFront_end a e
  unfold RangeArgs.Hits at hit
  refine ⟨?_, rfl, rfl, rfl, .inr ⟨hit, hb⟩, .inl he, ?_, ?_, .inl ⟨rfl, rfl, rfl⟩⟩
  · intro v hv
    unfold MappedRange.Contains at hv ⊢
    rw [hb, he] at hv
    bv_omega
  · intro _
    rw [hb, he]
    exact h2
  · intro _
    rw [hb, he]
    bv_omega

theorem piece_trimBack (h1 : e.base < a.base) : Piece a e (trimBack a e) := by
  have he := trimBack_end a e
  have hb : (trimBack a e).base = e.base := rfl
  have hit' := hit
  unfold RangeArgs.Hits at hit'
  refine ⟨?_, rfl, rfl, rfl, .inl rfl, .inr ⟨hit, he⟩, ?_, ?_, .inl ⟨rfl, rfl, rfl⟩⟩
  · intro v hv
    unfold MappedRange.Contains at hv ⊢
    rw [hb, he] at hv
    bv_omega
  · intro _
    rw [hb, he]
    exact h1
  · intro _
    rw [hb, he]
    bv_omega

theorem piece_splitLow (h1 : e.base < a.base) : Piece a e (splitLow a e) := by
  rw [splitLow_eq]
  exact piece_trimBack hit h1

theorem piece_splitHigh (h1 : e.base < a.base) (h2 : a.end_ < e.end_) :
    Piece a e (splitHigh a e) := by
  have he := splitHigh_end a e
  have hb : (splitHigh a e).base = a.end_ := rfl
  have hit' := hit
  unfold RangeArgs.Hits at hit'
  refine ⟨?_, rfl, rfl, rfl, .inr ⟨hit, hb⟩, .inl he, ?_, ?_,
    .inr ⟨h1, h2, hit, rfl, rfl, rfl⟩⟩
  · intro v hv
    unfold MappedRange.Contains at hv ⊢
    rw [hb, he] at hv
    bv_omega
  · intro _
    rw [hb, he]
    exact h2
  · intro _
    rw [hb, he]
    bv_omega

end

/-! ## Linking a new range -/

theorem insertRangeId_perm (base : RangeId → U64) (new : RangeId) :
    ∀ l : List RangeId, (insertRangeId base new l).Perm (new :: l)
  | [] => List.Perm.refl _
  | [previous] => List.Perm.swap new previous []
  | previous :: next :: rest => by
    unfold insertRangeId
    split_ifs
    · exact List.Perm.swap new previous _
    · exact ((insertRangeId_perm base new (next :: rest)).cons previous).trans
        (List.Perm.swap new previous _)

/-- Page structs, page lists, frames and page tables are the same. -/
structure RangesOnly (m m' : Machine) : Prop where
  same : m' = { m with range := m'.range, nextRange := m'.nextRange, pagemap := m'.pagemap,
                       fileRefs := m'.fileRefs, fileClosed := m'.fileClosed }
  pml4 : ∀ p, (m'.pagemap p).pml4 = (m.pagemap p).pml4

namespace RangesOnly

theorem trans {m m1 m2 : Machine} (h : RangesOnly m m1) (h' : RangesOnly m1 m2) :
    RangesOnly m m2 := by
  refine ⟨?_, fun p => ?_⟩
  · rw [h'.same, h.same]
  · rw [h'.pml4 p, h.pml4 p]

variable {m m' : Machine} (h : RangesOnly m m')

include h

theorem page : m'.page = m.page := by rw [h.same]
theorem list : m'.list = m.list := by rw [h.same]
theorem frame : m'.frame = m.frame := by rw [h.same]
theorem regions : m'.regions = m.regions := by rw [h.same]
theorem live : m'.live = m.live := by rw [h.same]
theorem fileRead : m'.fileRead = m.fileRead := by rw [h.same]

theorem findEntry (p : PagemapId) (v : U64) : m'.findEntry p v = m.findEntry p v := by
  unfold Machine.findEntry
  rw [h.pml4]

theorem entry (p : PagemapId) (v : U64) : m'.entry p v = m.entry p v := by
  unfold Machine.entry
  rw [h.findEntry]

theorem findPage (phy : U64) : m'.findPage phy = m.findPage phy := by
  unfold Machine.findPage
  rw [h.regions]

end RangesOnly

theorem rangesOnly_setRange (m : Machine) (r : RangeId) (x : MappedRange) :
    RangesOnly m (m.setRange r x) := ⟨rfl, fun _ => rfl⟩

theorem rangesOnly_setPagemap {m : Machine} {p : PagemapId} {x : Pagemap}
    (hx : x.pml4 = (m.pagemap p).pml4) : RangesOnly m (m.setPagemap p x) := by
  refine ⟨rfl, fun q => ?_⟩
  unfold Machine.setPagemap
  by_cases hq : q = p
  · subst hq
    simpa using hx
  · simp [Function.update_of_ne hq]

theorem rangesOnly_setCache (m : Machine) (p : PagemapId) (c : Option RangeId) :
    RangesOnly m (m.setCache p c) := rangesOnly_setPagemap rfl

theorem rangesOnly_clearCache (m : Machine) (p : PagemapId) : RangesOnly m (m.clearCache p) :=
  rangesOnly_setCache m p none

@[simp] theorem rangeList_setCache (m : Machine) (p q : PagemapId) (c : Option RangeId) :
    (m.setCache p c).rangeList q = m.rangeList q := by
  unfold Machine.rangeList Machine.setCache Machine.setPagemap
  by_cases hq : q = p
  · subst hq
    simp
  · simp [Function.update_of_ne hq]

@[simp] theorem rangeList_clearCache (m : Machine) (p q : PagemapId) :
    (m.clearCache p).rangeList q = m.rangeList q := rangeList_setCache m p q none

@[simp] theorem cachedRangeLookup_setCache (m : Machine) (p q : PagemapId) (c : Option RangeId) :
    ((m.setCache p c).pagemap q).cachedRangeLookup =
      if q = p then c else (m.pagemap q).cachedRangeLookup := by
  unfold Machine.setCache Machine.setPagemap
  by_cases hq : q = p
  · subst hq
    simp
  · simp [hq]

@[simp] theorem range_clearCache (m : Machine) (p : PagemapId) : (m.clearCache p).range = m.range :=
  rfl

@[simp] theorem nextRange_clearCache (m : Machine) (p : PagemapId) :
    (m.clearCache p).nextRange = m.nextRange := rfl

@[simp] theorem rangeList_setRange (m : Machine) (r : RangeId) (x : MappedRange) (q : PagemapId) :
    (m.setRange r x).rangeList q = m.rangeList q := rfl

@[simp] theorem range_setRange (m : Machine) (r s : RangeId) (x : MappedRange) :
    (m.setRange r x).range s = if s = r then x else m.range s := by
  unfold Machine.setRange
  exact Function.update_apply _ _ _ _

@[simp] theorem nextRange_setRange (m : Machine) (r : RangeId) (x : MappedRange) :
    (m.setRange r x).nextRange = m.nextRange := rfl

theorem rangesOnly_addRefCount (m : Machine) (file : Option FileId) (d : ℤ) :
    RangesOnly m (m.addRefCount file d) := by
  unfold Machine.addRefCount
  split <;> exact ⟨rfl, fun _ => rfl⟩

@[simp] theorem range_addRefCount (m : Machine) (file : Option FileId) (d : ℤ) :
    (m.addRefCount file d).range = m.range := by
  unfold Machine.addRefCount
  split <;> rfl

@[simp] theorem nextRange_addRefCount (m : Machine) (file : Option FileId) (d : ℤ) :
    (m.addRefCount file d).nextRange = m.nextRange := by
  unfold Machine.addRefCount
  split <;> rfl

@[simp] theorem pagemap_addRefCount (m : Machine) (file : Option FileId) (d : ℤ) :
    (m.addRefCount file d).pagemap = m.pagemap := by
  unfold Machine.addRefCount
  split <;> rfl

@[simp] theorem rangeList_addRefCount (m : Machine) (file : Option FileId) (d : ℤ)
    (q : PagemapId) : (m.addRefCount file d).rangeList q = m.rangeList q := by
  unfold Machine.rangeList
  rw [pagemap_addRefCount]

theorem rangesOnly_setRangeList (m : Machine) (p : PagemapId) (rs : List RangeId) :
    RangesOnly m (m.setRangeList p rs) := rangesOnly_setPagemap rfl

@[simp] theorem rangeList_setRangeList (m : Machine) (p q : PagemapId) (rs : List RangeId) :
    (m.setRangeList p rs).rangeList q = if q = p then rs else m.rangeList q := by
  unfold Machine.rangeList Machine.setRangeList Machine.setPagemap
  by_cases hq : q = p
  · subst hq
    simp
  · simp [hq]

@[simp] theorem cachedRangeLookup_setRangeList (m : Machine) (p q : PagemapId)
    (rs : List RangeId) : ((m.setRangeList p rs).pagemap q).cachedRangeLookup =
      (m.pagemap q).cachedRangeLookup := by
  unfold Machine.setRangeList Machine.setPagemap
  by_cases hq : q = p
  · subst hq
    simp
  · simp [Function.update_of_ne hq]

@[simp] theorem range_setRangeList (m : Machine) (p : PagemapId) (rs : List RangeId) :
    (m.setRangeList p rs).range = m.range := rfl

@[simp] theorem nextRange_setRangeList (m : Machine) (p : PagemapId) (rs : List RangeId) :
    (m.setRangeList p rs).nextRange = m.nextRange := rfl

/-- What `new MappedRange` and the insertion do. -/
structure NewRange (m : Machine) (p : PagemapId) (x : MappedRange) (m' : Machine) : Prop where
  only : RangesOnly m m'
  nextRange : m'.nextRange = m.nextRange + 1
  range : ∀ s, m'.range s = if s = m.nextRange then x else m.range s
  perm : (m'.rangeList p).Perm (m.nextRange :: m.rangeList p)
  rangeList_other : ∀ q, q ≠ p → m'.rangeList q = m.rangeList q
  cache : ∀ q, (m'.pagemap q).cachedRangeLookup = (m.pagemap q).cachedRangeLookup

theorem newRange_spec (m : Machine) (p : PagemapId) (a : RangeArgs) (h : a.type ≠ .none) :
    NewRange m p (a.toRange h) (m.newRange p a h).2 := by
  unfold Machine.newRange
  dsimp only
  refine ⟨?_, by simp, fun s => ?_, ?_, fun q hq => ?_, fun q => by simp; rfl⟩
  · have h1 : RangesOnly m { m with nextRange := m.nextRange + 1 } := ⟨rfl, fun _ => rfl⟩
    exact ((h1.trans (rangesOnly_setRange _ _ _)).trans (rangesOnly_addRefCount _ _ _)).trans
      (rangesOnly_setRangeList _ _ _)
  · simp
  · rw [rangeList_setRangeList, if_pos rfl, rangeList_addRefCount]
    exact insertRangeId_perm _ _ _
  · rw [rangeList_setRangeList, if_neg hq, rangeList_addRefCount]
    rfl

/-! ## Deleting a range -/

theorem pagesOnly_freePages {fs : List Pfn} {m m' : Machine}
    (h : fs.foldlM Machine.freePage m = .ok m') : PagesOnly m m' ∧ m'.pagemap = m.pagemap := by
  refine foldlM_ok_invariant (fun n => PagesOnly m n ∧ n.pagemap = m.pagemap) ⟨.refl m, rfl⟩ ?_ h
  rintro f n n' - ⟨h1, h2⟩ hf
  refine ⟨h1.trans (pagesOnly_freePage hf), ?_⟩
  obtain ⟨-, rfl⟩ := freePage_spec hf
  exact h2

/-- What `delete` of a range does to the ranges and the tables. -/
structure DeletedRange (m : Machine) (p : PagemapId) (r : RangeId) (m' : Machine) : Prop where
  range : m'.range = m.range
  nextRange : m'.nextRange = m.nextRange
  rangeList : ∀ q, m'.rangeList q = if q = p then (m.rangeList p).erase r else m.rangeList q
  cache : ∀ q, (m'.pagemap q).cachedRangeLookup = (m.pagemap q).cachedRangeLookup
  pml4 : ∀ q, (m'.pagemap q).pml4 = (m.pagemap q).pml4
  frame : m'.frame = m.frame
  regions : m'.regions = m.regions
  live : m'.live = m.live
  fileRead : m'.fileRead = m.fileRead

theorem deleteRange_spec {m m' : Machine} {p : PagemapId} {r : RangeId}
    (h : m.deleteRange p r = .ok m') : DeletedRange m p r m' := by
  unfold Machine.deleteRange at h
  dsimp only at h
  obtain ⟨m1, h1, h⟩ := bind_ok h
  cases h
  obtain ⟨hp, hmaps⟩ := pagesOnly_freePages h1
  have ho := rangesOnly_addRefCount (m1.setList (.range r) [])
    ((m1.setList (.range r) []).range r).file (-1)
  have hs := rangesOnly_setRangeList m p ((m.rangeList p).erase r)
  have hl : ∀ q, m1.rangeList q = if q = p then (m.rangeList p).erase r else m.rangeList q := by
    intro q
    rw [hp.rangeList, rangeList_setRangeList]
  refine ⟨?_, ?_, fun q => ?_, fun q => ?_, fun q => ?_, ?_, ?_, ?_, ?_⟩
  · rw [range_addRefCount]
    exact hp.range
  · rw [nextRange_addRefCount]
    exact hp.nextRange
  · rw [rangeList_addRefCount]
    exact hl q
  · rw [pagemap_addRefCount]
    show (m1.pagemap q).cachedRangeLookup = _
    rw [hmaps, cachedRangeLookup_setRangeList]
  · rw [ho.pml4]
    show (m1.pagemap q).pml4 = _
    rw [hmaps, hs.pml4]
  · rw [ho.frame]
    exact hp.frame
  · rw [ho.regions]
    exact hp.regions
  · rw [ho.live]
    exact hp.live
  · rw [ho.fileRead]
    exact hp.fileRead

/-! ## One range of the overlap loop -/

/-- The first test of a fully covered range: it is kept and returned. -/
def RangeArgs.Exact (a : RangeArgs) (e : MappedRange) : Prop :=
  a.keepPages = true ∧ a.base = e.base ∧ a.end_ = e.end_ ∧ a.type = e.type

instance (a : RangeArgs) (e : MappedRange) : Decidable (a.Exact e) :=
  inferInstanceAs (Decidable (_ ∧ _ ∧ _ ∧ _))

/-- The state in which the second half of a split is invalidated. -/
def splitState (m : Machine) (p : PagemapId) (a : RangeArgs) (r : RangeId) : Machine :=
  (((m.setRange r (splitLow a (m.range r))).clearCache p).newRange p (Machine.splitArgs a (m.range r))
    (m.range r).type_ne).2

open Machine in
/-- What the body of the overlap loop does with range `r`, branch by branch. -/
inductive ResolveOne (m : Machine) (p : PagemapId) (a : RangeArgs) (r : RangeId) :
    Resolved → Machine → Prop
  | noOverlap (miss : ¬ a.Hits (m.range r)) : ResolveOne m p a r .noOverlap m
  | found (hit : a.Hits (m.range r)) (exact : a.Exact (m.range r))
      (flags : (m.range r).pageFlags = a.pageFlags) : ResolveOne m p a r .found m
  | reflag {m' : Machine} (hit : a.Hits (m.range r)) (exact : a.Exact (m.range r))
      (flags : (m.range r).pageFlags ≠ a.pageFlags)
      (run : (m.setRange r { m.range r with pageFlags := a.pageFlags }).invalidatePages p
        (m.range r).base (m.range r).length (some r) = .ok m') : ResolveOne m p a r .found m'
  | covered {m1 m' : Machine} (hit : a.Hits (m.range r)) (low : a.base ≤ (m.range r).base)
      (high : (m.range r).end_ ≤ a.end_) (exact : ¬ a.Exact (m.range r))
      (run : m.invalidatePages p (m.range r).base (m.range r).length none = .ok m1)
      (del : m1.deleteRange p r = .ok m') : ResolveOne m p a r .changed m'
  | front (hit : a.Hits (m.range r)) (low : a.base ≤ (m.range r).base)
      (high : a.end_ < (m.range r).end_) :
      ResolveOne m p a r .changed (m.setRange r (trimFront a (m.range r)))
  | back (hit : a.Hits (m.range r)) (low : (m.range r).base < a.base)
      (high : (m.range r).end_ ≤ a.end_) :
      ResolveOne m p a r .changed (m.setRange r (trimBack a (m.range r)))
  | split {m' : Machine} (hit : a.Hits (m.range r)) (low : (m.range r).base < a.base)
      (high : a.end_ < (m.range r).end_)
      (run : (splitState m p a r).invalidatePages p a.end_ ((m.range r).end_ - a.end_)
        (some m.nextRange) = .ok m') : ResolveOne m p a r .changed m'

/-- Without merging and without overlap `add_range` only links a new range. -/
theorem finishAddRange_link (m : Machine) (p : PagemapId) {a : RangeArgs} (h : a.type ≠ .none)
    (hm : a.merge = false) :
    m.finishAddRange p a false = .ok (some m.nextRange, (m.newRange p a h).2) := by
  unfold Machine.finishAddRange
  dsimp only
  rw [if_neg (by simp [hm])]
  dsimp only
  rw [dif_neg h]
  rfl

theorem resolveOne_cases {m m' : Machine} {p : PagemapId} {a : RangeArgs} {r : RangeId}
    {res : Machine.Resolved} (h : m.resolveOne p a r = .ok (res, m')) :
    ResolveOne m p a r res m' := by
  unfold Machine.resolveOne at h
  dsimp only at h
  split_ifs at h with h1 h2 h3 h4 h5 h6
  · cases h
    exact .noOverlap (not_not.mpr h1)
  · obtain ⟨m1, hm1, h⟩ := bind_ok h
    cases h
    exact .reflag h1 h4 h5 hm1
  · cases h
    exact .found h1 h4 (not_not.mp h5)
  · obtain ⟨m1, hm1, h⟩ := bind_ok h
    obtain ⟨m2, hm2, h⟩ := bind_ok h
    cases h
    exact .covered h1 h2 h3 h4 hm1 hm2
  · cases h
    exact .front h1 h2 (BitVec.not_le.mp h3)
  · cases h
    exact .back h1 (BitVec.not_le.mp h2) h6
  · obtain ⟨⟨s, m1⟩, hm1, h⟩ := bind_ok h
    obtain ⟨m2, hm2, h⟩ := bind_ok h
    cases h
    refine .split h1 (BitVec.not_le.mp h2) (BitVec.not_le.mp h6) ?_
    rw [finishAddRange_link _ _ (a := Machine.splitArgs a (m.range r)) (m.range r).type_ne rfl] at hm1
    cases hm1
    have hr := (newRange_spec ((m.setRange r (splitLow a (m.range r))).clearCache p) p
      (Machine.splitArgs a (m.range r)) (m.range r).type_ne).range m.nextRange
    rw [nextRange_clearCache, nextRange_setRange, if_pos rfl] at hr
    dsimp only at hm2
    rw [← hm2]
    show _ = Machine.invalidatePages _ _ ((splitState m p a r).range m.nextRange).base
      ((splitState m p a r).range m.nextRange).length _
    have hr' : (splitState m p a r).range m.nextRange = splitHigh a (m.range r) := hr
    rw [hr']
    rfl

section

variable (m : Machine) (p : PagemapId) (a : RangeArgs) (r : RangeId)

include m p a r

theorem splitState_spec :
    NewRange ((m.setRange r (splitLow a (m.range r))).clearCache p) p (splitHigh a (m.range r))
      (splitState m p a r) :=
  newRange_spec _ _ (Machine.splitArgs a (m.range r)) _

theorem rangesOnly_splitState : RangesOnly m (splitState m p a r) :=
  ((rangesOnly_setRange _ _ _).trans (rangesOnly_clearCache _ _)).trans (splitState_spec m p a r).only

theorem range_splitState (s : RangeId) :
    (splitState m p a r).range s =
      if s = m.nextRange then splitHigh a (m.range r)
      else if s = r then splitLow a (m.range r) else m.range s := by
  rw [(splitState_spec m p a r).range]
  simp

end

/-! ## After the overlap loop -/

/-- `existing->length += length`. -/
def growEnd (a : RangeArgs) (e : MappedRange) : MappedRange := { e with length := e.length + a.length }

/-- `existing->base -= length; existing->length += length`. -/
def growFront (a : RangeArgs) (e : MappedRange) : MappedRange :=
  { e with base := e.base - a.length, length := e.length + a.length }

theorem growEnd_end {a : RangeArgs} {e : MappedRange} (hadj : a.base = e.end_) :
    (growEnd a e).end_ = a.end_ := by
  simp only [growEnd, MappedRange.end_, RangeArgs.end_] at hadj ⊢
  bv_omega

theorem growFront_end (a : RangeArgs) (e : MappedRange) : (growFront a e).end_ = e.end_ := by
  simp only [growFront, MappedRange.end_]
  bv_omega

theorem growFront_base {a : RangeArgs} {e : MappedRange} (hadj : a.end_ = e.base) :
    (growFront a e).base = a.base := by
  simp only [growFront, RangeArgs.end_] at hadj ⊢
  bv_omega

/-- The pages of the new range are invalidated if an overlap was found. -/
def invalidateIf (had : Bool) (m : Machine) (p : PagemapId) (a : RangeArgs) (r : RangeId) :
    Except Panic Machine :=
  if had then m.invalidatePages p a.base a.length (some r) else .ok m

/-- What `add_range` does after the overlap loop, branch by branch. -/
inductive FinishAddRange (m : Machine) (p : PagemapId) (a : RangeArgs) (had : Bool) :
    Option RangeId → Machine → Prop
  | growEnd {r : RangeId} {m' : Machine} (merge : a.merge = true) (anon : a.type = .anonymous)
      (mem : r ∈ m.rangeList p) (type : a.type = (m.range r).type)
      (flags : a.pageFlags = (m.range r).pageFlags) (adj : a.base = (m.range r).end_)
      (run : invalidateIf had (m.setRange r (growEnd a (m.range r))) p a r = .ok m') :
      FinishAddRange m p a had none m'
  | growFront {r : RangeId} {m' : Machine} (merge : a.merge = true) (anon : a.type = .anonymous)
      (mem : r ∈ m.rangeList p) (type : a.type = (m.range r).type)
      (flags : a.pageFlags = (m.range r).pageFlags) (adj : a.end_ = (m.range r).base)
      (run : invalidateIf had (m.setRange r (growFront a (m.range r))) p a r = .ok m') :
      FinishAddRange m p a had none m'
  | unmap {m' : Machine} (type : a.type = .none)
      (run : m.invalidatePages p a.base a.length none = .ok m') : FinishAddRange m p a had none m'
  | insert {m' : Machine} (type : a.type ≠ .none)
      (run : invalidateIf had (m.newRange p a type).2 p a m.nextRange = .ok m') :
      FinishAddRange m p a had (some m.nextRange) m'

theorem mergeTarget_spec {m : Machine} {a : RangeArgs} {r : RangeId} {atEnd : Bool} :
    ∀ {rs : List RangeId}, m.mergeTarget a rs = some (r, atEnd) →
      r ∈ rs ∧ a.type = (m.range r).type ∧ a.pageFlags = (m.range r).pageFlags ∧
        if atEnd then a.base = (m.range r).end_ else a.end_ = (m.range r).base
  | [], h => by cases h
  | s :: rs, h => by
    unfold Machine.mergeTarget at h
    dsimp only at h
    split_ifs at h with h1 h2 h3
    · cases h
      exact ⟨by simp, h1.1, h1.2, by simpa using h2⟩
    · cases h
      exact ⟨by simp, h1.1, h1.2, by simpa using h3⟩
    · obtain ⟨hm, hrest⟩ := mergeTarget_spec h
      exact ⟨List.mem_cons_of_mem _ hm, hrest⟩
    · obtain ⟨hm, hrest⟩ := mergeTarget_spec h
      exact ⟨List.mem_cons_of_mem _ hm, hrest⟩

theorem finishAddRange_cases {m m' : Machine} {p : PagemapId} {a : RangeArgs} {had : Bool}
    {res : Option RangeId} (h : m.finishAddRange p a had = .ok (res, m')) :
    FinishAddRange m p a had res m' := by
  unfold Machine.finishAddRange at h
  dsimp only at h
  split at h
  · rename_i r atEnd ht
    split_ifs at ht with hc
    obtain ⟨hmem, htype, hflags, hadj⟩ := mergeTarget_spec ht
    obtain ⟨m1, hm1, h⟩ := bind_ok h
    cases h
    cases atEnd with
    | true => exact .growEnd hc.1 hc.2 hmem htype hflags (by simpa using hadj) hm1
    | false => exact .growFront hc.1 hc.2 hmem htype hflags (by simpa using hadj) hm1
  · by_cases hnone : a.type = .none
    · rw [dif_pos hnone] at h
      obtain ⟨m1, hm1, h⟩ := bind_ok h
      cases h
      exact .unmap hnone hm1
    · rw [dif_neg hnone] at h
      obtain ⟨m1, hm1, h⟩ := bind_ok h
      cases h
      exact .insert hnone hm1

theorem pagesOnly_invalidateIf {had : Bool} {m m' : Machine} {p : PagemapId} {a : RangeArgs}
    {r : RangeId} (h : invalidateIf had m p a r = .ok m') : PagesOnly m m' := by
  unfold invalidateIf at h
  split_ifs at h
  · exact pagesOnly_invalidatePages h
  · cases h
    exact .refl _

end Fishix.Mem
