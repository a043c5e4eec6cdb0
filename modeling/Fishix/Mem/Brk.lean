import Fishix.Mem.AddressSpace
import Fishix.Mem.Entries
import Fishix.Mem.Ownership
import Fishix.Mem.RangeOrder

/-!
# `brk`

`syscall_brk` takes the address for the new break as it is (mem/vmm.cpp:702-718): it maps anonymous
memory from the old break to the new one over whatever is there, or unmaps everything from the new
break to the old one. Nothing records where `execve` put the break at first.

* `addRange_pageKept`: which pages a call of `add_range` leaves in their frames.
* `Owns.addRange`: who has mapped an address, along calls of `add_range`.
* `brk_run`: what a call of `brk` does in runs of `mmap`, `munmap`, `brk` and page faults.
* `brk_overlays`: a heap that grows over a mapping.
-/

namespace Fishix.Mem

open BitVec (ofNat le_def lt_def)
open Machine

/-! ## Pages outside of the window -/

/-- The page at `v` is present if it was, in the same frame. -/
structure PageKept (p : PagemapId) (v : U64) (m m' : Machine) : Prop where
  known : ∀ f, m'.Known f ↔ m.Known f
  present : m'.Present p v ↔ m.Present p v
  frame : m.Present p v → m.Known (frameOf (m.entry p v)) →
    frameOf (m'.entry p v) = frameOf (m.entry p v)

section Pages

variable {p : PagemapId} {v : U64} {a : RangeArgs} {m m0 m1 m' : Machine}

theorem PageKept.refl (p : PagemapId) (v : U64) (m : Machine) : PageKept p v m m :=
  ⟨fun _ => Iff.rfl, Iff.rfl, fun _ _ => rfl⟩

theorem PageKept.trans (h : PageKept p v m m1) (h' : PageKept p v m1 m') : PageKept p v m m' := by
  refine ⟨fun f => (h'.known f).trans (h.known f), h'.present.trans h.present, fun hp hk => ?_⟩
  have hframe := h.frame hp hk
  rw [h'.frame (h.present.mpr hp) (by rw [hframe, h.known]; exact hk), hframe]

theorem PageKept.of_entry (hk : ∀ f, m'.Known f ↔ m.Known f) (he : m'.entry p v = m.entry p v) :
    PageKept p v m m' := by
  refine ⟨hk, ?_, fun _ _ => by rw [he]⟩
  unfold Machine.Present
  rw [he]

theorem pageKept_rangesOnly (ho : RangesOnly m m') : PageKept p v m m' := by
  refine .of_entry (fun f => ?_) (ho.entry p v)
  unfold Machine.Known
  rw [ho.findPage]

theorem pageKept_deleteRange {r : RangeId} (h : m.deleteRange p r = .ok m') :
    PageKept p v m m' := by
  have hd := deleteRange_spec h
  refine .of_entry (fun f => ?_) ?_
  · unfold Machine.Known findPage
    rw [hd.regions]
  · unfold entry findEntry
    rw [hd.pml4]

/-- The addresses that `invalidate_pages` visits are those of the span. -/
theorem visited_in_span {base length : U64} {i : ℕ} (hle : base ≤ base + length)
    (hi : i < numPages length) :
    base ≤ base + ofNat 64 i * pageSize ∧
      base + ofNat 64 i * pageSize < base + length := by
  have hb := base.isLt
  have hl := length.isLt
  unfold numPages at hi
  rw [BitVec.toNat_udiv, toNat_alignUp] at hi
  have hpage : pageSize.toNat = 4096 := rfl
  rw [hpage] at hi
  rw [le_def, BitVec.toNat_add] at hle
  have hat : (base + ofNat 64 i * pageSize).toNat = base.toNat + i * 4096 :=
    toNat_pageAt (by omega)
  rw [le_def, lt_def, hat, BitVec.toNat_add]
  omega

/-- A span whose addresses share no entry with `v`. -/
theorem pageKept_invalidatePages_none {base length : U64} (hle : base ≤ base + length)
    (hout : ∀ w, base ≤ w → w < base + length → ¬SamePage p v p w)
    (h : m.invalidatePages p base length none = .ok m') : PageKept p v m m' := by
  refine .of_entry (pagesOnly_invalidatePages h).known (invalidatePages_entry_other h ?_)
  rintro ⟨i, hi, hsame⟩
  obtain ⟨h1, h2⟩ := visited_in_span hle hi
  exact hout _ h1 h2 hsame

theorem pageKept_invalidatePages_some {base length : U64} {r : RangeId}
    (hmask : (m.range r).pageFlags &&& frameMask = 0#64)
    (h : m.invalidatePages p base length (some r) = .ok m') : PageKept p v m m' := by
  have hs := invalidatePages_some hmask h
  exact ⟨(pagesOnly_invalidatePages h).known, hs.present p v, hs.frame p v⟩

theorem pageKept_invalidateIf {had : Bool} {r : RangeId}
    (hmask : (m.range r).pageFlags &&& frameMask = 0#64)
    (h : invalidateIf had m p a r = .ok m') : PageKept p v m m' := by
  unfold invalidateIf at h
  split_ifs at h
  · exact pageKept_invalidatePages_some hmask h
  · rw [← Except.ok.inj h]
    exact .refl p v m

theorem PassInv.pageKept_step {r : RangeId} {rest : List RangeId}
    (h : PassInv p a m0 (r :: rest) m)
    (hne : ∀ r ∈ m0.rangeList p, (m0.range r).base < (m0.range r).end_)
    (hmask : ∀ r ∈ m0.rangeList p, (m0.range r).pageFlags &&& frameMask = 0#64)
    (hamask : a.type ≠ .none → a.pageFlags &&& frameMask = 0#64)
    (hout : ∀ w, a.Covers w → ¬SamePage p v p w) {res : Machine.Resolved}
    (hone : ResolveOne m p a r res m') : PageKept p v m m' := by
  obtain ⟨hr0, hr, hrange, -⟩ := h.head
  cases hone with
  | noOverlap => exact .refl p v _
  | found => exact .refl p v _
  | reflag hit exact flags run =>
    refine (pageKept_rangesOnly (rangesOnly_setRange _ _ _)).trans
      (pageKept_invalidatePages_some ?_ run)
    rw [range_setRange, if_pos rfl]
    refine hamask ?_
    rw [exact.2.2.2]
    exact (m.range r).type_ne
  | covered hit low high exact run del =>
    have hlt := hne r hr0
    rw [← hrange] at hlt
    refine (pageKept_invalidatePages_none (BitVec.le_of_lt hlt) (fun w h1 h2 => ?_) run).trans
      (pageKept_deleteRange del)
    exact hout w ⟨BitVec.le_trans low h1, by
      have h2' : w < (m.range r).end_ := h2
      bv_omega⟩
  | front => exact pageKept_rangesOnly (rangesOnly_setRange _ _ _)
  | back => exact pageKept_rangesOnly (rangesOnly_setRange _ _ _)
  | split hit low high run =>
    refine (pageKept_rangesOnly (rangesOnly_splitState m p a r)).trans
      (pageKept_invalidatePages_some ?_ run)
    rw [range_splitState, if_pos rfl]
    show (m.range r).pageFlags &&& frameMask = 0#64
    rw [hrange]
    exact hmask r hr0

/-- What the part after the loop does. -/
theorem pageKept_finish {had : Bool} {res : Option RangeId}
    (hamask : a.type ≠ .none → a.pageFlags &&& frameMask = 0#64) (hle : a.base ≤ a.end_)
    (hout : ∀ w, a.Covers w → ¬SamePage p v p w) (h : FinishAddRange m p a had res m') :
    PageKept p v m m' := by
  have hset : ∀ {r : RangeId} {x : MappedRange}, PageKept p v m (m.setRange r x) :=
    pageKept_rangesOnly (rangesOnly_setRange _ _ _)
  cases h with
  | growEnd merge anon mem type flags adj run =>
    refine hset.trans (pageKept_invalidateIf ?_ run)
    rw [range_setRange, if_pos rfl]
    show (m.range _).pageFlags &&& frameMask = 0#64
    rw [← flags]
    exact hamask (by rw [anon]; decide)
  | growFront merge anon mem type flags adj run =>
    refine hset.trans (pageKept_invalidateIf ?_ run)
    rw [range_setRange, if_pos rfl]
    show (m.range _).pageFlags &&& frameMask = 0#64
    rw [← flags]
    exact hamask (by rw [anon]; decide)
  | unmap type run =>
    exact pageKept_invalidatePages_none hle (fun w h1 h2 => hout w ⟨h1, h2⟩) run
  | insert type run =>
    have hspec := newRange_spec m p a type
    refine (pageKept_rangesOnly hspec.only).trans (pageKept_invalidateIf ?_ run)
    rw [hspec.range, if_pos rfl]
    exact hamask type

theorem addRange_pageKept (hm : HeapOk m)
    (hne : ∀ r ∈ m.rangeList p, (m.range r).base < (m.range r).end_)
    (hmask : ∀ r ∈ m.rangeList p, (m.range r).pageFlags &&& frameMask = 0#64)
    (hamask : a.type ≠ .none → a.pageFlags &&& frameMask = 0#64) (hle : a.base ≤ a.end_)
    (hover : a.resolveOverlap = true) (hout : ∀ w, a.Covers w → ¬SamePage p v p w)
    {res : Option RangeId} (hrun : m.addRange p a = .ok (res, m')) : PageKept p v m m' := by
  let P : List RangeId → Bool → Machine → Prop := fun rest _ s =>
    PassInv p a m rest s ∧ PageKept p v m s
  have hmiss : ∀ t rest again s, P (t :: rest) again s → ¬a.Hits (s.range t) → P rest again s :=
    fun t rest _ s hP miss => ⟨hP.1.step (.noOverlap miss) (by decide), hP.2⟩
  have hstep : ∀ t rest again s s', P (t :: rest) again s → ResolveOne s p a t .changed s' →
      P rest true s' := fun t rest _ s s' hP hone =>
    ⟨hP.1.step hone (by decide), hP.2.trans (hP.1.pageKept_step hne hmask hamask hout hone)⟩
  have hstart : P (m.rangeList p) false (m.clearCache p) :=
    ⟨(PassInv.start a hm).congr (rangeList_clearCache m p) rfl rfl,
      pageKept_rangesOnly (rangesOnly_clearCache m p)⟩
  rcases addRange_rule hmiss hstep hm hover hstart hrun with
    ⟨t, rest, again, m1, -, ⟨hinv, hkept⟩, hone⟩ | ⟨had, m1, ⟨-, hkept⟩, hfin⟩
  · exact hkept.trans (hinv.pageKept_step hne hmask hamask hout hone)
  · exact hkept.trans (pageKept_finish hamask hle hout hfin)

end Pages

/-! ## Who has mapped an address -/

/-- Who has mapped an address last: `execve` (the binary, its linker, the stack), `mmap` or
    `brk`. -/
inductive Owner where
  | program
  | mmap
  | heap
deriving DecidableEq

/-- The history of a page map: who has mapped each address, if it is mapped. -/
abbrev Owners := U64 → Option Owner

/-- The addresses of a window get a new owner. -/
def Owners.claim (g : Owners) (a : RangeArgs) (o : Option Owner) : Owners :=
  fun v => if a.Covers v then o else g v

/-- The ranges of page map `n`, for the history `g`. -/
structure Owns (n : ℕ) (m : Machine) (g : Owners) : Prop where
  heap : HeapOk m
  disj : DisjointRanges m (.user n)
  nonempty : ∀ r ∈ m.rangeList (.user n), (m.range r).base < (m.range r).end_
  mask : ∀ r ∈ m.rangeList (.user n), (m.range r).pageFlags &&& frameMask = 0#64
  mapped : ∀ v, (g v).isSome = (m.kindAt (.user n) v).isSome
  backed : ∀ r ∈ m.rangeList (.user n), ∀ v, (m.range r).Contains v →
    (m.range r).type ≠ .anonymous → g v = some .mmap

namespace Owns

variable {n : ℕ} {m m' : Machine} {g : Owners} {a : RangeArgs}

theorem ordered (h : Owns n m g) : OrderedRanges m (.user n) :=
  fun r hr => BitVec.le_of_lt (h.nonempty r hr)

theorem sameRanges (h : Owns n m g) (hs : SameRanges (.user n) m m') : Owns n m' g := by
  have hl := hs.rangeList (.user n)
  have hr := hs.range
  refine ⟨h.heap.congr hs.rangeList hs.nextRange, h.disj.congr hl hr, ?_, ?_, ?_, ?_⟩
  · rw [hl, hr]
    exact h.nonempty
  · rw [hl, hr]
    exact h.mask
  · unfold kindAt ranges
    rw [hl, hr]
    exact h.mapped
  · rw [hl, hr]
    exact h.backed

/-- A call of `add_range`, whose window has the owner `o` from then on. -/
theorem addRange (h : Owns n m g) {o : Option Owner} (hle : a.base ≤ a.end_)
    (hlt : a.type ≠ .none → a.base < a.end_) (hover : a.resolveOverlap = true)
    (hmask : a.type ≠ .none → a.pageFlags &&& frameMask = 0#64) (ho : o.isSome = a.kind.isSome)
    (hmmap : a.type ≠ .none → a.type ≠ .anonymous → o = some .mmap) {res : Option RangeId}
    (hrun : m.addRange (.user n) a = .ok (res, m')) : Owns n m' (g.claim a o) := by
  have hadd := addRange_added h.heap h.disj h.ordered hle hover hrun
  refine ⟨hadd.heap, hadd.disj, hadd.nonempty h.nonempty hlt, fun r hr => ?_, fun v => ?_,
    fun r hr v hv htype => ?_⟩
  · rcases hadd.flags_mem r hr with ⟨he, hne⟩ | ⟨s, hs, he⟩
    · rw [he]
      exact hmask hne
    · rw [he]
      exact h.mask s hs
  · rw [hadd.kindAt h.disj]
    unfold Owners.claim
    split_ifs
    · exact ho
    · exact h.mapped v
  · unfold Owners.claim
    split_ifs with hc
    · have hkind := (hadd.inside r hr v hv hc).kind
      unfold RangeArgs.kind at hkind
      split_ifs at hkind with hnone
      have he := (Prod.mk.inj (Option.some.inj hkind)).1
      exact hmmap hnone (he ▸ htype)
    · obtain ⟨s, hs, hsv, hinh⟩ := hadd.outside r hr v hv hc
      exact h.backed s hs v hsv (hinh.type ▸ htype)

end Owns

/-! ## What a call leaves as it is -/

/-- An address that the processor accepts. -/
def Canonical (v : U64) : Prop := v.toNat < 2 ^ 47 ∨ 2 ^ 64 - 2 ^ 47 ≤ v.toNat

/-- Nothing happens to the address: it is mapped as before, from the same place of the same
    backing, and its page, if present, is in the same frame. -/
structure Untouched (n : ℕ) (v : U64) (m m' : Machine) : Prop where
  kind : m'.kindAt (.user n) v = m.kindAt (.user n) v
  backing : ∀ r ∈ m'.rangeList (.user n), (m'.range r).Contains v →
    (m'.range r).type ≠ .anonymous → ∃ s ∈ m.rangeList (.user n), (m.range s).Contains v ∧
      (m'.range r).file = (m.range s).file ∧ (m'.range r).originalBase = (m.range s).originalBase ∧
      (m'.range r).phyBase = (m.range s).phyBase ∧ (m'.range r).fileOffset = (m.range s).fileOffset
  page : PageKept (.user n) v m m'
  contents : m'.frame = m.frame

section Untouched

variable {n : ℕ} {m m' : Machine} {g : Owners} {a : RangeArgs} {v : U64}

theorem Untouched.refl (n : ℕ) (v : U64) (m : Machine) : Untouched n v m m :=
  ⟨rfl, fun r hr hv _ => ⟨r, hr, hv, rfl, rfl, rfl, rfl⟩, .refl _ _ _, rfl⟩

/-- Windows of whole pages of the lower half share entries with no other address. -/
theorem not_samePage_of_window (hbase : PageAligned a.base) (hend : PageAligned a.end_)
    (hlow : a.end_.toNat ≤ 2 ^ 47) (hcanon : Canonical v) (hout : ¬a.Covers v) {p : PagemapId}
    {w : U64} (hw : a.Covers w) : ¬SamePage p v p w := by
  rintro ⟨-, hvpn⟩
  obtain ⟨h1, h2⟩ := hw
  refine hout ?_
  unfold vpn at hvpn
  unfold Canonical at hcanon
  unfold PageAligned at hbase hend
  unfold RangeArgs.Covers
  rw [le_def] at h1 ⊢
  rw [lt_def] at h2 ⊢
  have hvlt := v.isLt
  omega

/-- A call over whole pages of the lower half, of which `mmap` has mapped none, touches no address
    outside of its window. -/
theorem Owns.untouched (h : Owns n m g) (hbase : PageAligned a.base) (hend : PageAligned a.end_)
    (hlt : a.base < a.end_) (hlow : a.end_.toNat ≤ 2 ^ 47) (hover : a.resolveOverlap = true)
    (hmask : a.type ≠ .none → a.pageFlags &&& frameMask = 0#64)
    (hclear : ∀ w, a.Covers w → g w ≠ some .mmap) {res : Option RangeId}
    (hrun : m.addRange (.user n) a = .ok (res, m')) (hcanon : Canonical v) (hout : ¬a.Covers v) :
    Untouched n v m m' := by
  have hle := BitVec.le_of_lt hlt
  have hadd := addRange_added h.heap h.disj h.ordered hle hover hrun
  refine ⟨?_, fun r hr hv htype => ?_, ?_, (addRange_frame h.heap hover hrun).1.frame⟩
  · rw [hadd.kindAt h.disj, if_neg hout]
  · obtain ⟨s, hs, hsv, hinh⟩ := hadd.outside r hr v hv hout
    refine ⟨s, hs, hsv, hinh.file, ?_⟩
    rcases hinh.position with hsame | ⟨hbelow, habove, -⟩
    · exact hsame
    · -- a range that is split would be one of `mmap`
      have hcov : a.Covers a.base := ⟨BitVec.le_refl _, hlt⟩
      have hin : (m.range s).Contains a.base := ⟨BitVec.le_of_lt hbelow, by bv_omega⟩
      exact absurd (h.backed s hs a.base hin (hinh.type ▸ htype)) (hclear _ hcov)
  · exact addRange_pageKept h.heap h.nonempty h.mask hmask hle hover
      (fun w hw => not_samePage_of_window hbase hend hlow hcanon hout hw) hrun

end Untouched

/-! ## Calls -/

/-- A process, with the break that `execve` set and the history of its page map. -/
structure HeapState where
  m : Machine
  proc : Process
  initial : U64
  owner : Owners

/-- A syscall of the process, or a page fault. -/
inductive HeapCall where
  | mmap (addr length : U64) (prot flags : Flags) (fd : Option FileDescription) (offset : U64)
  | munmap (addr length : U64)
  | brk (addr : U64)
  | fault (virt : U64)

/-- The window that `brk(addr)` maps or unmaps. -/
def brkWindow (brk addr : U64) : RangeArgs :=
  let oldPageBrk := alignUp brk pageSize
  let newPageBrk := alignUp addr pageSize
  if newPageBrk > oldPageBrk then
    (Mapping.anonymous true).args oldPageBrk (newPageBrk - oldPageBrk)
      (mmapProtToPageFlags (protRead ||| protWrite))
  else Mapping.unmap.args newPageBrk (oldPageBrk - newPageBrk) 0#64

/-- The window of `mmap`, as far as its addresses go. -/
def mmapWindow (proc : Process) (addr length : U64) (flags : Flags) : RangeArgs :=
  let alignedSize := alignUp length pageSize
  (Mapping.anonymous true).args (mmapPlace proc addr alignedSize flags).1 alignedSize 0#64

/-- The window of `munmap`. -/
def munmapWindow (addr length : U64) : RangeArgs :=
  Mapping.unmap.args addr (alignUp length pageSize) 0#64

def heapStep (n : ℕ) (s : HeapState) : HeapCall → Except Panic HeapState
  | .mmap addr length prot flags fd offset => do
    let (res, proc, m) ← s.m.syscallMmap (.user n) s.proc addr length prot flags fd offset
    let owner := if res.isOk then s.owner.claim (mmapWindow s.proc addr length flags) (some .mmap)
      else s.owner
    .ok { s with m, proc, owner }
  | .munmap addr length => do
    let (res, proc, m) ← s.m.syscallMunmap (.user n) s.proc addr length
    let owner := if res.isOk then s.owner.claim (munmapWindow addr length) none else s.owner
    .ok { s with m, proc, owner }
  | .brk addr => do
    let (_, proc, m) ← s.m.syscallBrk (.user n) s.proc addr
    let a := brkWindow s.proc.brk addr
    let owner := if addr = 0#64 then s.owner
      else s.owner.claim a (if a.type = .none then none else some .heap)
    .ok { s with m, proc, owner }
  | .fault virt => do
    let (_, m) ← s.m.handlePageFault (.user n) virt
    .ok { s with m }

/-- The process after `execve`. -/
def started (m : Machine) (proc : Process) (windows : List RangeArgs) : HeapState where
  m := m
  proc := proc
  initial := proc.brk
  owner := fun v => if ∃ a ∈ windows, a.Covers v then some .program else none

/-- The condition on one call, in the state before it. -/
def HeapCall.Keeps (s : HeapState) : HeapCall → Prop
  | .mmap addr length prot flags fd offset => (mmapMapping prot flags fd offset).isSome →
      length ≠ 0#64 →
      let a := mmapWindow s.proc addr length flags
      a.base < a.end_
  | .munmap addr length => PageAligned addr →
      let a := munmapWindow addr length
      a.base ≤ a.end_
  | .brk addr => addr ≠ 0#64 → s.initial ≤ addr ∧ addr.toNat ≤ 2 ^ 47 ∧
      ∀ v, (brkWindow s.proc.brk addr).Covers v → s.owner v = none ∨ s.owner v = some .heap
  | .fault _ => True

/-- What `brk` is for: it returns the break in effect, which is never below the first one, changes
    only pages from the first break on that `mmap` has not mapped, and no page of the program. -/
structure BrkManages (n : ℕ) (s : HeapState) (res : SysResult) (proc' : Process) (m' : Machine) :
    Prop where
  result : res = .ok proc'.brk
  initial : s.initial ≤ proc'.brk
  changes : ∀ v, Canonical v → ¬Untouched n v s.m m' →
    alignUp s.initial pageSize ≤ v ∧ v < alignUp (klibMax s.proc.brk proc'.brk) pageSize ∧
      s.owner v ≠ some .mmap
  keeps : ∀ v, Canonical v → s.owner v = some .mmap ∨ s.owner v = some .program →
    Untouched n v s.m m'

/-! ## Steps -/

/-- The invariant of the runs. -/
structure HeapInv (n : ℕ) (s : HeapState) : Prop extends Owns n s.m s.owner where
  initial : s.initial ≤ s.proc.brk
  lower : s.proc.brk.toNat ≤ 2 ^ 47

section Steps

variable {n : ℕ} {m m' : Machine} {g : Owners}

/-- The claim of a window of `execve`. -/
theorem Owns.windows :
    ∀ {l : List RangeArgs} {m m' : Machine} {g : Owners}, Owns n m g →
      (∀ a ∈ l, a.base < a.end_ ∧ a.type = .anonymous ∧ a.resolveOverlap = true ∧
        a.pageFlags &&& frameMask = 0#64) →
      l.foldlM (addWindow (.user n)) m = .ok m' →
      Owns n m' fun v => if ∃ a ∈ l, a.Covers v then some .program else g v := by
  intro l
  induction l with
  | nil =>
    intro m m' g h _ hrun
    rw [← Except.ok.inj hrun]
    simpa using h
  | cons a l ih =>
    intro m m' g h hl hrun
    rw [List.foldlM_cons] at hrun
    obtain ⟨m1, h1, h2⟩ := bind_ok hrun
    obtain ⟨⟨res, m2⟩, hadd, rfl⟩ := bind_pure_ok h1
    obtain ⟨hlt, htype, hover, hmask⟩ := hl a (by simp)
    have hown := h.addRange (o := some .program) (BitVec.le_of_lt hlt) (fun _ => hlt) hover
      (fun _ => hmask) (by unfold RangeArgs.kind; rw [htype]; rfl)
      (fun _ hne => absurd htype hne) hadd
    have hrest := ih hown (fun b hb => hl b (List.mem_cons_of_mem _ hb)) h2
    have hg : (fun v => if ∃ b ∈ a :: l, b.Covers v then some Owner.program else g v) =
        fun v => if ∃ b ∈ l, b.Covers v then some .program else g.claim a (some .program) v := by
      funext v
      unfold Owners.claim
      simp only [List.mem_cons, exists_eq_or_imp]
      by_cases h1 : a.Covers v
      · by_cases h2 : ∃ b ∈ l, b.Covers v <;> simp [h1, h2]
      · simp [h1]
    rw [hg]
    exact hrest

theorem programWindows_anonymous {binaryBase : U64} {binary : List Machine.Segment}
    {linker : Option (U64 × List Machine.Segment)} {a : RangeArgs}
    (ha : a ∈ programWindows binaryBase binary linker) :
    a.type = .anonymous ∧ a.resolveOverlap = true ∧ a.pageFlags &&& frameMask = 0#64 := by
  have hseg : ∀ (loadBase : U64) (segments : List Machine.Segment),
      a ∈ segments.map (segmentWindow loadBase) →
        a.type = .anonymous ∧ a.resolveOverlap = true ∧ a.pageFlags &&& frameMask = 0#64 := by
    intro loadBase segments hmem
    obtain ⟨ph, -, rfl⟩ := List.mem_map.mp hmem
    exact ⟨rfl, rfl, by show (pagePresent ||| pageUser ||| pageWritable) &&& frameMask = _; decide⟩
  unfold programWindows at ha
  rcases List.mem_append.mp ha with ha | ha
  · exact hseg _ _ ha
  · rcases List.mem_append.mp ha with ha | ha
    · cases linker with
      | none => cases ha
      | some l => exact hseg _ _ ha
    · rw [List.mem_singleton] at ha
      rw [ha]
      exact ⟨rfl, rfl, by decide⟩

/-- The address space that `execve` sets up is the program's. -/
theorem HeapInv.start {binaryBase : U64} {binary : List Machine.Segment}
    {linker : Option (U64 × List Machine.Segment)} {proc : Process} (hm : HeapOk m)
    (hexec : m.execve (.user n) binaryBase binary linker = .ok (proc, m'))
    (hwindows : ∀ a ∈ programWindows binaryBase binary linker, a.base < a.end_)
    (hbrk : proc.brk.toNat ≤ 2 ^ 47) :
    HeapInv n (started m' proc (programWindows binaryBase binary linker)) := by
  obtain ⟨m0, h0, hfold⟩ := execve_windows hexec
  have hnil : m0.rangeList (.user n) = [] := by rw [rangeList_newPagemap h0, if_pos rfl]
  have hnone : Owns n m0 fun _ => none := by
    refine ⟨hm.create h0, fun r hr => ?_, fun r hr => ?_, fun r hr => ?_, fun v => ?_,
      fun r hr => ?_⟩
    · rw [hnil] at hr
      cases hr
    · rw [hnil] at hr
      cases hr
    · rw [hnil] at hr
      cases hr
    · unfold kindAt ranges
      rw [hnil]
      rfl
    · rw [hnil] at hr
      cases hr
  exact ⟨hnone.windows (fun a ha => ⟨hwindows a ha, programWindows_anonymous ha⟩) hfold,
    BitVec.le_refl _, hbrk⟩

theorem toNat_alignUp_lower {i : U64} (h : i.toNat ≤ 2 ^ 47) :
    (alignUp i pageSize).toNat = (i.toNat + 4095) / 4096 * 4096 := by
  rw [toNat_alignUp]
  omega

/-- A window of `brk` between two addresses of the lower half. -/
structure BrkWindow (brk addr : U64) (a : RangeArgs) : Prop where
  base : PageAligned a.base
  end_ : PageAligned a.end_
  le : a.base ≤ a.end_
  lower : a.end_.toNat ≤ 2 ^ 47
  resolves : a.resolveOverlap = true
  nonempty : a.type ≠ .none → a.base < a.end_
  mask : a.type ≠ .none → a.pageFlags &&& frameMask = 0#64
  anonymous : a.type ≠ .none → a.type = .anonymous
  covers : ∀ v, a.Covers v → (alignUp brk pageSize ≤ v ∨ alignUp addr pageSize ≤ v) ∧
    (v < alignUp brk pageSize ∨ v < alignUp addr pageSize)

theorem brkWindow_spec {brk addr : U64} (hbrk : brk.toNat ≤ 2 ^ 47) (haddr : addr.toNat ≤ 2 ^ 47) :
    BrkWindow brk addr (brkWindow brk addr) := by
  have hold := toNat_alignUp_lower hbrk
  have hnew := toNat_alignUp_lower haddr
  have holdAligned := pageAligned_alignUp brk
  have hnewAligned := pageAligned_alignUp addr
  unfold brkWindow
  dsimp only
  split_ifs with hgrow
  · have hend : ((Mapping.anonymous true).args (alignUp brk pageSize)
        (alignUp addr pageSize - alignUp brk pageSize)
        (mmapProtToPageFlags (protRead ||| protWrite))).end_ = alignUp addr pageSize := by
      show alignUp brk pageSize + (alignUp addr pageSize - alignUp brk pageSize) = _
      exact add_sub_cancel _ _
    refine ⟨holdAligned, by rw [hend]; exact hnewAligned, by rw [hend]; exact BitVec.le_of_lt hgrow,
      ?_, rfl, fun _ => by rw [hend]; exact hgrow, fun _ => (mmapProtToPageFlags_mask _).1,
      fun _ => rfl, fun v hv => ⟨.inl hv.1, .inr (hend ▸ hv.2)⟩⟩
    rw [hend, hnew]
    omega
  · have hend : (Mapping.unmap.args (alignUp addr pageSize)
        (alignUp brk pageSize - alignUp addr pageSize) 0#64).end_ = alignUp brk pageSize := by
      show alignUp addr pageSize + (alignUp brk pageSize - alignUp addr pageSize) = _
      exact add_sub_cancel _ _
    refine ⟨hnewAligned, by rw [hend]; exact holdAligned, ?_, ?_, rfl, fun h => absurd rfl h,
      fun h => absurd rfl h, fun h => absurd rfl h, fun v hv => ⟨.inr hv.1, .inl (hend ▸ hv.2)⟩⟩
    · rw [hend]
      exact BitVec.not_lt.mp hgrow
    · rw [hend, hold]
      omega

/-- A completed `brk` has told the break, or has set it after a call of `add_range` for its
    window. -/
theorem syscallBrk_cases {p : PagemapId} {proc proc' : Process} {addr : U64} {res : SysResult}
    (h : m.syscallBrk p proc addr = .ok (res, proc', m')) :
    (addr = 0#64 ∧ res = .ok proc.brk ∧ proc' = proc ∧ m' = m) ∨
      addr ≠ 0#64 ∧ res = .ok addr ∧ proc' = { proc with brk := addr } ∧
        ((∀ v, ¬(brkWindow proc.brk addr).Covers v) ∧ (brkWindow proc.brk addr).type = .none ∧
            m' = m ∨
          (brkWindow proc.brk addr).base < (brkWindow proc.brk addr).end_ ∧
            ∃ r, m.addRange p (brkWindow proc.brk addr) = .ok (r, m')) := by
  unfold syscallBrk at h
  split_ifs at h with hzero
  · obtain ⟨rfl, heq⟩ := pure_pair h
    obtain ⟨rfl, rfl⟩ := Prod.mk.inj heq
    exact .inl ⟨hzero, rfl, rfl, rfl⟩
  · dsimp only at h
    obtain ⟨m1, h1, h⟩ := bind_ok h
    obtain ⟨rfl, heq⟩ := pure_pair h
    obtain ⟨rfl, rfl⟩ := Prod.mk.inj heq
    refine .inr ⟨hzero, rfl, rfl, ?_⟩
    unfold brkWindow
    dsimp only
    split_ifs at h1 ⊢ with hgrow hshrink
    · refine .inr ⟨?_, mapAs_addRange (k := .anonymous true) h1⟩
      show _ < alignUp proc.brk pageSize + (alignUp addr pageSize - alignUp proc.brk pageSize)
      rw [add_sub_cancel]
      exact hgrow
    · have hmap : m.mapAs p .unmap (alignUp addr pageSize)
          (alignUp proc.brk pageSize - alignUp addr pageSize) 0#64 = .ok m1 := h1
      refine .inr ⟨?_, mapAs_addRange hmap⟩
      show _ < alignUp addr pageSize + (alignUp proc.brk pageSize - alignUp addr pageSize)
      rw [add_sub_cancel]
      exact hshrink
    · refine .inl ⟨fun v hv => ?_, rfl, (Except.ok.inj h1).symm⟩
      obtain ⟨h2, h3⟩ := hv
      have h3' : v < alignUp addr pageSize +
          (alignUp proc.brk pageSize - alignUp addr pageSize) := h3
      rw [add_sub_cancel] at h3'
      have h2' : alignUp addr pageSize ≤ v := h2
      bv_omega

theorem HeapInv.brkManages {s : HeapState} (h : HeapInv n s) {addr : U64}
    (hkeeps : (HeapCall.brk addr).Keeps s) {res : SysResult} {proc' : Process}
    (hrun : s.m.syscallBrk (.user n) s.proc addr = .ok (res, proc', m')) :
    BrkManages n s res proc' m' := by
  rcases syscallBrk_cases hrun with ⟨-, rfl, rfl, rfl⟩ | ⟨hzero, rfl, rfl, hwin⟩
  · exact ⟨rfl, h.initial, fun v _ hch => absurd (.refl n v _) hch, fun v _ _ => .refl n v _⟩
  · obtain ⟨hinit, haddr, hown⟩ := hkeeps hzero
    have hw := brkWindow_spec h.lower haddr
    have hout : ∀ v, Canonical v → ¬(brkWindow s.proc.brk addr).Covers v →
        Untouched n v s.m m' := by
      intro v hcanon hout
      rcases hwin with ⟨-, -, rfl⟩ | ⟨hlt, r, hadd⟩
      · exact .refl n v _
      · refine h.untouched hw.base hw.end_ hlt hw.lower hw.resolves hw.mask (fun w hcov => ?_) hadd
          hcanon hout
        rcases hown w hcov with he | he <;> simp [he]
    refine ⟨rfl, hinit, fun v hcanon hch => ?_, fun v hcanon hmine => hout v hcanon fun hcov => ?_⟩
    · have hcov : (brkWindow s.proc.brk addr).Covers v := by
        by_contra hno
        exact hch (hout v hcanon hno)
      obtain ⟨hlow, hhigh⟩ := hw.covers v hcov
      have hinitial := h.initial
      have hlower := h.lower
      have h1 := toNat_alignUp_lower h.lower
      have h2 := toNat_alignUp_lower haddr
      have h3 : (alignUp s.initial pageSize).toNat = (s.initial.toNat + 4095) / 4096 * 4096 :=
        toNat_alignUp_lower (Nat.le_trans (le_def.mp h.initial) h.lower)
      have h4 : (alignUp (klibMax s.proc.brk addr) pageSize).toNat =
          ((klibMax s.proc.brk addr).toNat + 4095) / 4096 * 4096 := by
        refine toNat_alignUp_lower ?_
        unfold klibMax
        split_ifs
        · exact haddr
        · exact hlower
      refine ⟨?_, ?_, ?_⟩
      · rw [le_def] at hinit hinitial hlow ⊢
        rw [le_def] at hlow
        omega
      · show v < alignUp (klibMax s.proc.brk addr) pageSize
        rw [lt_def, h4]
        rw [lt_def, lt_def, h1, h2] at hhigh
        unfold klibMax
        split_ifs with hmax
        · rw [lt_def] at hmax
          omega
        · rw [lt_def] at hmax
          omega
      · rcases hown v hcov with he | he <;> simp [he]
    · rcases hown v hcov with he | he <;> simp [he] at hmine

theorem Owners.claim_congr {a b : RangeArgs} {o : Option Owner} (hb : a.base = b.base)
    (hl : a.length = b.length) : g.claim a o = g.claim b o := by
  have hcov : ∀ v, a.Covers v ↔ b.Covers v := by
    intro v
    unfold RangeArgs.Covers RangeArgs.end_
    rw [hb, hl]
  funext v
  exact if_congr (hcov v) rfl rfl

theorem Owners.claim_empty {a : RangeArgs} {o : Option Owner} (h : ∀ v, ¬a.Covers v) :
    g.claim a o = g := by
  funext v
  exact if_neg (h v)

theorem Owns.mmap (h : Owns n m g) {k : Mapping} {base length pageFlags : U64}
    (hne : k ≠ .unmap) (hlt : base < base + length) (hmask : pageFlags &&& frameMask = 0#64)
    (hrun : m.mapAs (.user n) k base length pageFlags = .ok m') :
    Owns n m' (g.claim (k.args base length pageFlags) (some .mmap)) := by
  obtain ⟨r, hadd⟩ := mapAs_addRange hrun
  have hbase : (k.args base length pageFlags).base = base := by cases k <;> rfl
  have hend : (k.args base length pageFlags).end_ = base + length := by cases k <;> rfl
  have htype : (k.args base length pageFlags).type ≠ .none := by cases k <;> simp_all [Mapping.args]
  refine h.addRange ?_ (fun _ => ?_) (by cases k <;> rfl) (fun _ => ?_) ?_ (fun _ _ => rfl) hadd
  · rw [hbase, hend]
    exact BitVec.le_of_lt hlt
  · rw [hbase, hend]
    exact hlt
  · cases k <;> first | exact hmask | exact absurd rfl hne
  · unfold RangeArgs.kind
    rw [if_neg htype]
    rfl

/-- One call that meets the condition. -/
theorem HeapInv.step {s s' : HeapState} {c : HeapCall} (h : HeapInv n s) (hkeeps : c.Keeps s)
    (hrun : heapStep n s c = .ok s') : HeapInv n s' := by
  cases c with
  | mmap addr length prot flags fd offset =>
    obtain ⟨⟨res, proc, m⟩, h1, rfl⟩ := bind_pure_ok hrun
    obtain ⟨hbrk, hcase⟩ := syscallMmap_cases h1
    refine ⟨?_, by show _ ≤ proc.brk; rw [hbrk]; exact h.initial,
      by show proc.brk.toNat ≤ _; rw [hbrk]; exact h.lower⟩
    rcases hcase with ⟨⟨e, rfl⟩, rfl⟩ | ⟨hlen, k, pageFlags, hk, -, hmask, hne, rfl, hmap⟩
    · exact h.toOwns
    · have hlt := hkeeps (by rw [hk]; rfl) hlen
      have hwindow : ∀ o, s.owner.claim (mmapWindow s.proc addr length flags) o =
          s.owner.claim (k.args (mmapPlace s.proc addr (alignUp length pageSize) flags).1
            (alignUp length pageSize) pageFlags) o :=
        fun o => Owners.claim_congr (by cases k <;> rfl) (by cases k <;> rfl)
      show Owns n m (s.owner.claim (mmapWindow s.proc addr length flags) (some .mmap))
      rw [hwindow]
      exact h.toOwns.mmap hne hlt hmask hmap
  | munmap addr length =>
    obtain ⟨⟨res, proc, m⟩, h1, rfl⟩ := bind_pure_ok hrun
    unfold syscallMunmap at h1
    split_ifs at h1 with haligned
    · obtain ⟨rfl, heq⟩ := pure_pair h1
      obtain ⟨rfl, rfl⟩ := Prod.mk.inj heq
      exact h
    · obtain ⟨m1, hunmap, h1⟩ := bind_ok h1
      obtain ⟨rfl, heq⟩ := pure_pair h1
      obtain ⟨rfl, rfl⟩ := Prod.mk.inj heq
      have hbrk : (if s.proc.mmapAnonBase = addr + alignUp length pageSize
          then { s.proc with mmapAnonBase := addr } else s.proc).brk = s.proc.brk := by
        split_ifs <;> rfl
      have hmap : s.m.mapAs (.user n) .unmap addr (alignUp length pageSize) 0#64 = .ok m1 := hunmap
      obtain ⟨r, hadd⟩ := mapAs_addRange hmap
      have hle := hkeeps ((pageAligned_iff addr).mpr (not_not.mp haligned))
      refine ⟨?_, by rw [hbrk]; exact h.initial, by rw [hbrk]; exact h.lower⟩
      exact h.toOwns.addRange hle (fun hne => absurd rfl hne) rfl (fun hne => absurd rfl hne) rfl
        (fun hne => absurd rfl hne) hadd
  | brk addr =>
    obtain ⟨⟨res, proc, m⟩, h1, rfl⟩ := bind_pure_ok hrun
    rcases syscallBrk_cases h1 with ⟨rfl, -, rfl, rfl⟩ | ⟨hzero, -, rfl, hwin⟩
    · exact h
    · obtain ⟨hinit, haddr, hown⟩ := hkeeps hzero
      refine ⟨?_, hinit, haddr⟩
      show Owns n m (if addr = 0#64 then s.owner else s.owner.claim (brkWindow s.proc.brk addr) _)
      rw [if_neg hzero]
      rcases hwin with ⟨hnone, -, rfl⟩ | ⟨hlt, r, hadd⟩
      · rw [Owners.claim_empty hnone]
        exact h.toOwns
      · have hw := brkWindow_spec h.lower haddr
        refine h.toOwns.addRange hw.le hw.nonempty hw.resolves hw.mask ?_
          (fun hne hna => absurd (hw.anonymous hne) hna) hadd
        unfold RangeArgs.kind
        split_ifs <;> rfl
  | fault virt =>
    obtain ⟨⟨res, m⟩, h1, rfl⟩ := bind_pure_ok hrun
    exact ⟨h.toOwns.sameRanges (sameRanges_handlePageFault h1), h.initial, h.lower⟩

/-- **Main theorem.** In runs of `mmap`, `munmap`, `brk` and page faults after `execve`, every call
    of `brk` whose argument is not below the first break, and that finds nothing of `mmap`, the ELF
    loader or the stack between the old and the new break, manages the heap only. -/
theorem brk_run {m0 : Machine} {binaryBase : U64} {binary : List Machine.Segment}
    {linker : Option (U64 × List Machine.Segment)} {proc proc' : Process} {s : HeapState}
    {addr : U64} {res : SysResult} (hm : HeapOk m0)
    (hexec : m0.execve (.user n) binaryBase binary linker = .ok (proc, m))
    (hwindows : ∀ a ∈ programWindows binaryBase binary linker, a.base < a.end_)
    (hbrk : proc.brk.toNat ≤ 2 ^ 47)
    (hrun : Run (heapStep n) (fun s c => c.Keeps s)
      (started m proc (programWindows binaryBase binary linker)) s)
    (hkeeps : (HeapCall.brk addr).Keeps s)
    (hcall : s.m.syscallBrk (.user n) s.proc addr = .ok (res, proc', m')) :
    BrkManages n s res proc' m' := by
  have hinv := hrun.invariant (P := HeapInv n) (fun _ _ _ hs hok hnext => hs.step hok hnext)
    (HeapInv.start hm hexec hwindows hbrk)
  exact hinv.brkManages hkeeps hcall

end Steps

/-! ## Runs of a small program -/

/-- A program with one page at `0x400000`, as it starts. -/
def smallHeap : Except Panic HeapState := do
  let (proc, m) ← booted.execve (.user 0) 0#64 [⟨0x400000#64, 0x1000#64⟩] none
  .ok (started m proc (programWindows 0#64 [⟨0x400000#64, 0x1000#64⟩] none))

/-- It maps a page where `mmap` chooses. -/
def mapsAPage : Except Panic HeapState := do
  let s ← smallHeap
  heapStep 0 s (.mmap 0#64 0x1000#64 protRead mapAnonymousFlag none 0#64)

/-- It maps a page with `MAP_FIXED` at its break. -/
def mapsAtBreak : Except Panic HeapState := do
  let s ← smallHeap
  heapStep 0 s (.mmap 0x30401000#64 0x1000#64 protRead (mapFixed ||| mapAnonymousFlag) none 0#64)

/-- The heap grows by a page. -/
theorem brk_run_grows :
    ∃ s res proc m, mapsAPage = .ok s ∧
      s.m.syscallBrk (.user 0) s.proc 0x30402000#64 = .ok (res, proc, m) ∧
      s.m.kindAt (.user 0) 0x30401000#64 = none ∧
      (m.kindAt (.user 0) 0x30401000#64).isSome ∧ BrkManages 0 s res proc m := by
  obtain ⟨s, hs⟩ : ∃ s, mapsAPage = .ok s := ⟨_, rfl⟩
  obtain ⟨⟨res, proc, m⟩, hm⟩ : ∃ x, (mapsAPage >>= fun s =>
    s.m.syscallBrk (.user 0) s.proc 0x30402000#64) = .ok x := ⟨_, rfl⟩
  have hgrown : (m.kindAt (.user 0) 0x30401000#64).isSome :=
    map_ok_eq hm (fun x => (x.2.2.kindAt (.user 0) 0x30401000#64).isSome) rfl
  have hfree : s.m.kindAt (.user 0) 0x30401000#64 = none :=
    map_ok_eq hs (fun s => s.m.kindAt (.user 0) 0x30401000#64) rfl
  have hspans : (s.m.ranges (.user 0)).map (fun e => (e.base, e.end_)) =
      [(0x400000#64, 0x401000#64), (0x7f0000000000#64, 0x7f0000800000#64),
        (0x7f0000810000#64, 0x7f0000811000#64)] :=
    map_ok_eq hs (fun s => (s.m.ranges (.user 0)).map fun e => (e.base, e.end_)) rfl
  have hbrk : s.proc.brk = 0x30401000#64 := map_ok_eq hs (fun s => s.proc.brk) rfl
  have hinit : s.initial = 0x30401000#64 := map_ok_eq hs (fun s => s.initial) rfl
  rw [hs, ok_bind] at hm
  refine ⟨s, res, proc, m, hs, hm, hfree, hgrown, ?_⟩
  obtain ⟨s0, h0, h1⟩ := bind_ok hs
  obtain ⟨⟨proc0, m0⟩, hexec, h2⟩ := bind_ok h0
  have hproc : proc0.brk = 0x30401000#64 := map_ok_eq hexec (fun x => x.1.brk) rfl
  have hanon : proc0.mmapAnonBase = 0x7f0000810000#64 :=
    map_ok_eq hexec (fun x => x.1.mmapAnonBase) rfl
  obtain rfl := Except.ok.inj h2
  have hwindows : ∀ a ∈ programWindows 0#64 [⟨0x400000#64, 0x1000#64⟩] none, a.base < a.end_ := by
    decide
  have hlower : proc0.brk.toNat ≤ 2 ^ 47 := by
    rw [hproc]
    decide
  have hrun : Run (heapStep 0) (fun s c => c.Keeps s)
      (started m0 proc0 (programWindows 0#64 [⟨0x400000#64, 0x1000#64⟩] none)) s := by
    refine .step .start (fun _ _ => ?_) h1
    show (mmapPlace proc0 _ _ _).1 <
      (mmapPlace proc0 _ _ _).1 + alignUp 0x1000#64 pageSize
    have hplace : (mmapPlace proc0 0#64 (alignUp 0x1000#64 pageSize) mapAnonymousFlag).1 =
        0x7f0000810000#64 := by
      unfold mmapPlace
      rw [if_neg (by decide)]
      exact hanon
    rw [hplace]
    decide
  have hinv := hrun.invariant (P := HeapInv 0) (fun _ _ _ hs hok hnext => hs.step hok hnext)
    (HeapInv.start listed_booted.heap hexec hwindows hlower)
  refine brk_run listed_booted.heap hexec hwindows hlower hrun (fun _ => ⟨?_, by decide, ?_⟩) hm
  · rw [hinit]
    decide
  · intro v hv
    rw [hbrk] at hv
    obtain ⟨hlow, hhigh⟩ : 0x30401000#64 ≤ v ∧ v < 0x30402000#64 := hv
    have hnone : s.m.kindAt (.user 0) v = none := by
      rw [kindAt_eq_none_iff]
      intro r hr hcon
      have hmem := List.mem_map_of_mem (f := fun e : MappedRange => (e.base, e.end_))
        (List.mem_map_of_mem (f := s.m.range) hr)
      unfold ranges at hspans
      rw [hspans] at hmem
      obtain ⟨h3, h4⟩ := hcon
      simp only [List.mem_cons, Prod.mk.injEq, List.not_mem_nil, or_false] at hmem
      rcases hmem with ⟨hb, he⟩ | ⟨hb, he⟩ | ⟨hb, he⟩ <;> rw [hb] at h3 <;> rw [he] at h4 <;>
        bv_omega
    have howner := hinv.mapped v
    rw [hnone] at howner
    exact .inl (Option.isSome_eq_false_iff.mp howner |> Option.isNone_iff_eq_none.mp)

/-- The heap grows over the page that the program has mapped. -/
theorem brk_overlays :
    ∃ s res proc m, mapsAtBreak = .ok s ∧ s.owner 0x30401000#64 = some .mmap ∧
      s.m.syscallBrk (.user 0) s.proc 0x30402000#64 = .ok (res, proc, m) ∧
      s.m.kindAt (.user 0) 0x30401000#64 ≠ m.kindAt (.user 0) 0x30401000#64 ∧
      ¬BrkManages 0 s res proc m := by
  obtain ⟨s, hs⟩ : ∃ s, mapsAtBreak = .ok s := ⟨_, rfl⟩
  obtain ⟨⟨res, proc, m⟩, hm⟩ : ∃ x, (mapsAtBreak >>= fun s =>
    s.m.syscallBrk (.user 0) s.proc 0x30402000#64) = .ok x := ⟨_, rfl⟩
  have howner : s.owner 0x30401000#64 = some .mmap :=
    map_ok_eq hs (fun s => s.owner 0x30401000#64) rfl
  have hbefore : s.m.kindAt (.user 0) 0x30401000#64 =
      some (.anonymous, mmapProtToPageFlags protRead) :=
    map_ok_eq hs (fun s => s.m.kindAt (.user 0) 0x30401000#64) rfl
  have hafter : m.kindAt (.user 0) 0x30401000#64 =
      some (.anonymous, mmapProtToPageFlags (protRead ||| protWrite)) :=
    map_ok_eq hm (fun x => x.2.2.kindAt (.user 0) 0x30401000#64) rfl
  rw [hs, ok_bind] at hm
  have hne : s.m.kindAt (.user 0) 0x30401000#64 ≠ m.kindAt (.user 0) 0x30401000#64 := by
    rw [hbefore, hafter]
    decide
  exact ⟨s, res, proc, m, hs, howner, hm, hne, fun h =>
    hne (h.keeps _ (.inl (by decide)) (.inl howner)).kind.symm⟩

end Fishix.Mem
