import Fishix.Mem.PageTable

/-!
# Page maps and their ranges

Model of `mem/vmm.cpp`: `addr_to_range` (226-243), `handle_page_fault` (246-307),
`add_range` (387-489), `map_anonymous`, `map_direct`, `map_file` (491-504),
`invalidate_page`, `invalidate_pages` (506-541), `fork` (309-385), and the constructors
and destructors of `MappedRange` and `Pagemap` (81-117).

`add_range` restarts its scan of `range_list` until a scan finds no overlap. A scan
saves the next node before it works on the current one, and only the current node is
ever unlinked, so it visits the nodes that were linked when it began. A range inserted
during the scan (the second half of a split) starts at `end`, and the test for overlap
skips it if the scan comes across it; the model visits the initial nodes only
(`resolvePass`). The loop is bounded by `fuel`; `resolveLoop_fuel` shows that two scans
always suffice. `handle_page_fault` calls itself only after a walk has failed, and then
first takes a page for a table, so its depth is bounded by the length of the freelist.
-/

namespace Fishix.Mem

/-- The arguments of `add_range` (mem/vmm.hpp:104-105). -/
structure RangeArgs where
  base : U64
  length : U64
  pageFlags : U64
  type : RangeType
  phyBase : U64
  file : Option FileId
  fileOffset : U64
  merge : Bool
  resolveOverlap : Bool
  keepPages : Bool

/-- `uptr end = base + length`. -/
def RangeArgs.end_ (a : RangeArgs) : U64 := a.base + a.length

/-- `new MappedRange(base, length, page_flags, type)` (mem/vmm.cpp:81-86) with the fields
    `add_range` then sets (470-473). -/
def RangeArgs.toRange (a : RangeArgs) (h : a.type ≠ .none) : MappedRange :=
  { base := a.base, originalBase := a.base, length := a.length, pageFlags := a.pageFlags
    type := a.type, phyBase := a.phyBase, file := a.file, fileOffset := a.fileOffset, type_ne := h }

/-- `klib::align_up(length, PAGE_SIZE) / PAGE_SIZE`. -/
def numPages (length : U64) : ℕ := (alignUp length pageSize / pageSize).toNat

/-- The loop that finds `previous` in `add_range` (mem/vmm.cpp:477-485): the new range is
    linked after the first node whose successor is the list head or has a larger base. -/
def insertRangeId (base : RangeId → U64) (new : RangeId) : List RangeId → List RangeId
  | [] => [new]
  | [previous] => [previous, new]
  | previous :: next :: rest =>
    if base next > base new then previous :: new :: next :: rest
    else previous :: insertRangeId base new (next :: rest)

namespace Machine

/-! ## Pages of a mapping -/

/-- `invalidate_page` (mem/vmm.cpp:506-533). -/
def invalidatePage (m : Machine) (p : PagemapId) (virt : U64) (range : Option RangeId) :
    Except Panic Machine :=
  if !isPresent (m.entry p virt) then .ok m
  else do
    let phy := m.entry p virt &&& frameMask
    let page ← m.findPage phy
    let m ← (match page with
      | some f => do
        assert (!(m.page f).free)
        m.unlink f
      | none => .ok m)
    match range with
    | some r => do
      assert (isPresent (m.range r).pageFlags)
      let (f, m) ← (match page with
        | some f => .ok (f, m)
        | none => m.allocPage)
      let m := m.setPage f { m.page f with mappedAddr := virt }
      let m := m.linkLast (.range r) f
      .ok (m.writeEntry p virt (f.phy ||| (m.range r).pageFlags))
    | none => do
      let m := m.writeEntry p virt 0#64
      match page with
      | some f => m.freePage f
      | none => .ok m

/-- `invalidate_pages` (mem/vmm.cpp:535-541). -/
def invalidatePages (m : Machine) (p : PagemapId) (base length : U64) (range : Option RangeId) :
    Except Panic Machine :=
  (List.range (numPages length)).foldlM
    (fun m i => m.invalidatePage p (base + BitVec.ofNat 64 i * pageSize) range) m

/-! ## Ranges -/

/-- `if (file) file->increment_ref_count()`, and `decrement_ref_count` for `d = -1`, which deletes
    the description at zero. -/
def addRefCount (m : Machine) (file : Option FileId) (d : ℤ) : Machine :=
  match file with
  | some file =>
    { m with
      fileRefs := Function.update m.fileRefs file (m.fileRefs file + d)
      fileClosed := if d < 0 ∧ m.fileRefs file + d = 0 then
          Function.update m.fileClosed file (m.fileClosed file + 1)
        else m.fileClosed }
  | none => m

/-- `range_list` of `p` becomes `rs`. -/
def setRangeList (m : Machine) (p : PagemapId) (rs : List RangeId) : Machine :=
  m.setPagemap p { m.pagemap p with rangeList := rs }

/-- `~MappedRange` (mem/vmm.cpp:88-98) for a range linked in the list of `p`. -/
def deleteRange (m : Machine) (p : PagemapId) (r : RangeId) : Except Panic Machine := do
  let m := m.setRangeList p ((m.rangeList p).erase r)
  let m ← (m.list (.range r)).foldlM freePage m
  let m := m.setList (.range r) []
  .ok (m.addRefCount (m.range r).file (-1))

/-- The end of `add_range` (mem/vmm.cpp:470-485): a new range is linked into `range_list`. Its
    `page_list` is the list of a name that was not in use. -/
def newRange (m : Machine) (p : PagemapId) (a : RangeArgs) (h : a.type ≠ .none) :
    RangeId × Machine :=
  let r := m.nextRange
  let m := { m with nextRange := m.nextRange + 1 }
  let m := m.setRange r (a.toRange h)
  let m := m.addRefCount a.file 1
  (r, m.setRangeList p (insertRangeId (fun i => (m.range i).base) r (m.rangeList p)))

/-- The test of the merge loop (mem/vmm.cpp:446-460): the first range of the same type and
    flags that ends at `base` (`true`) or starts at `end` (`false`). -/
def mergeTarget (m : Machine) (a : RangeArgs) : List RangeId → Option (RangeId × Bool)
  | [] => none
  | r :: rest =>
    let existing := m.range r
    if a.type = existing.type ∧ a.pageFlags = existing.pageFlags then
      if a.base = existing.end_ then some (r, true)
      else if a.end_ = existing.base then some (r, false)
      else m.mergeTarget a rest
    else m.mergeTarget a rest

/-- `add_range` after its overlap loop (mem/vmm.cpp:443-488). -/
def finishAddRange (m : Machine) (p : PagemapId) (a : RangeArgs) (hadOverlap : Bool) :
    Except Panic (Option RangeId × Machine) :=
  let target :=
    if a.merge ∧ a.type = .anonymous then m.mergeTarget a (m.rangeList p) else none
  match target with
  | some (r, atEnd) => do
    let existing := m.range r
    let m := m.setRange r
      (if atEnd then { existing with length := existing.length + a.length }
       else { existing with base := existing.base - a.length, length := existing.length + a.length })
    let m ← (if hadOverlap then m.invalidatePages p a.base a.length (some r) else .ok m)
    .ok (none, m)
  | none =>
    if h : a.type = .none then do
      let m ← m.invalidatePages p a.base a.length none
      .ok (none, m)
    else do
      let (r, m) := m.newRange p a h
      let m ← (if hadOverlap then m.invalidatePages p a.base a.length (some r) else .ok m)
      .ok (some r, m)

/-- What the overlap loop does with one range. -/
inductive Resolved where
  /-- `continue`. -/
  | noOverlap
  /-- `need_to_resolve_overlap = true`. -/
  | changed
  /-- `return existing`. -/
  | found
deriving DecidableEq

/-- `uptr split_phy = existing->phy_base ? existing->phy_base + split_offset : 0`, also used
    by `mprotect`. -/
def offsetPhy (phyBase offset : U64) : U64 := if phyBase ≠ 0#64 then phyBase + offset else 0#64

/-- The arguments of the recursive call that makes the second half of a split
    (mem/vmm.cpp:425-433). -/
def splitArgs (a : RangeArgs) (existing : MappedRange) : RangeArgs :=
  let base2 := a.end_
  let length2 := existing.end_ - a.end_
  let splitOffset := base2 - existing.base
  { base := base2, length := length2, pageFlags := existing.pageFlags, type := existing.type
    phyBase := offsetPhy existing.phyBase splitOffset, file := existing.file
    fileOffset := existing.fileOffset + splitOffset
    merge := false, resolveOverlap := false, keepPages := a.keepPages }

/-- `cached_range_lookup = c`. -/
def setCache (m : Machine) (p : PagemapId) (c : Option RangeId) : Machine :=
  m.setPagemap p { m.pagemap p with cachedRangeLookup := c }

/-- `cached_range_lookup = nullptr`. -/
def clearCache (m : Machine) (p : PagemapId) : Machine := m.setCache p none

/-- The body of the overlap loop of `add_range` (mem/vmm.cpp:400-439) for one range. -/
def resolveOne (m : Machine) (p : PagemapId) (a : RangeArgs) (r : RangeId) :
    Except Panic (Resolved × Machine) :=
  let existing := m.range r
  if a.base ≥ existing.end_ ∨ a.end_ ≤ existing.base then .ok (.noOverlap, m)
  else if a.base ≤ existing.base then
    if a.end_ ≥ existing.end_ then
      if a.keepPages ∧ a.base = existing.base ∧ a.end_ = existing.end_ ∧ a.type = existing.type then
        if existing.pageFlags ≠ a.pageFlags then do
          let m := m.setRange r { existing with pageFlags := a.pageFlags }
          let m ← m.invalidatePages p existing.base existing.length (some r)
          .ok (.found, m)
        else .ok (.found, m)
      else do
        let m ← m.invalidatePages p existing.base existing.length none
        let m ← m.deleteRange p r
        .ok (.changed, m)
    else
      let overlap := a.end_ - existing.base
      .ok (.changed, m.setRange r
        { existing with base := existing.base + overlap, length := existing.length - overlap })
  else if a.end_ ≥ existing.end_ then
    .ok (.changed, m.setRange r
      { existing with length := existing.length - (existing.end_ - a.base) })
  else do
    let m := m.setRange r { existing with length := a.base - existing.base }
    let (split, m) ← (m.clearCache p).finishAddRange p (splitArgs a existing) false
    let m ← (match split with
      | some s => m.invalidatePages p (m.range s).base (m.range s).length (some s)
      | none => .ok m)
    .ok (.changed, m)

/-- One scan of the overlap loop over the nodes `rs`; returns the range to return early, if
    any, and whether an overlap was found. -/
def resolvePass (p : PagemapId) (a : RangeArgs) :
    List RangeId → Bool → Machine → Except Panic (Option RangeId × Bool × Machine)
  | [], again, m => .ok (none, again, m)
  | r :: rest, again, m => do
    let (res, m) ← m.resolveOne p a r
    match res with
    | .noOverlap => resolvePass p a rest again m
    | .changed => resolvePass p a rest true m
    | .found => .ok (some r, again, m)

/-- `while (need_to_resolve_overlap)` (mem/vmm.cpp:396-441), at most `fuel` scans; returns
    the range to return early, if any, and `had_overlap`. -/
def resolveLoop (p : PagemapId) (a : RangeArgs) :
    ℕ → Bool → Machine → Except Panic (Option RangeId × Bool × Machine)
  | 0, _, _ => .error .diverges
  | fuel + 1, hadOverlap, m => do
    let (found, again, m) ← resolvePass p a (m.rangeList p) false m
    match found with
    | some r => .ok (some r, hadOverlap || again, m)
    | none => if again then resolveLoop p a fuel true m else .ok (none, hadOverlap, m)

/-- `add_range` (mem/vmm.cpp:387-489); the result is the returned pointer. -/
def addRange (m : Machine) (p : PagemapId) (a : RangeArgs) :
    Except Panic (Option RangeId × Machine) :=
  let m := m.clearCache p
  if a.resolveOverlap then do
    let (found, hadOverlap, m) ← resolveLoop p a ((m.rangeList p).length + 2) false m
    match found with
    | some r => .ok (some r, m)
    | none => m.finishAddRange p a hadOverlap
  else m.finishAddRange p a false

/-- `map_anonymous` (mem/vmm.cpp:491-494). -/
def mapAnonymous (m : Machine) (p : PagemapId) (base length pageFlags : U64) (keepPages : Bool) :
    Except Panic Machine := do
  assert (isPresent pageFlags)
  let (_, m) ← m.addRange p
    { base, length, pageFlags, type := .anonymous, phyBase := 0#64, file := none
      fileOffset := 0#64, merge := true, resolveOverlap := true, keepPages }
  .ok m

/-- `map_direct` (mem/vmm.cpp:496-499). -/
def mapDirect (m : Machine) (p : PagemapId) (base length pageFlags phyBase : U64) :
    Except Panic Machine := do
  assert (isPresent pageFlags)
  let (_, m) ← m.addRange p
    { base, length, pageFlags, type := .direct, phyBase, file := none
      fileOffset := 0#64, merge := false, resolveOverlap := true, keepPages := false }
  .ok m

/-- `map_file` (mem/vmm.cpp:501-504). -/
def mapFile (m : Machine) (p : PagemapId) (base length pageFlags : U64) (file : FileId)
    (fileOffset : U64) : Except Panic Machine := do
  assert (isPresent pageFlags)
  let (_, m) ← m.addRange p
    { base, length, pageFlags, type := .file, phyBase := 0#64, file := some file
      fileOffset, merge := false, resolveOverlap := true, keepPages := false }
  .ok m

/-- The call of `add_range` that `MemFD::mmap` makes for `MAP_SHARED`
    (userland/memfd.cpp:67). -/
def mapVirtual (m : Machine) (p : PagemapId) (base length pageFlags address : U64) :
    Except Panic Machine := do
  let (_, m) ← m.addRange p
    { base, length, pageFlags, type := .directVirtual, phyBase := address, file := none
      fileOffset := 0#64, merge := false, resolveOverlap := true, keepPages := false }
  .ok m

/-- The call of `add_range` that `munmap`, a shrinking `brk` and `~Thread` make. -/
def unmapRange (m : Machine) (p : PagemapId) (base length : U64) : Except Panic Machine := do
  let (_, m) ← m.addRange p
    { base, length, pageFlags := 0#64, type := .none, phyBase := 0#64, file := none
      fileOffset := 0#64, merge := false, resolveOverlap := true, keepPages := false }
  .ok m

/-! ## Page faults -/

/-- The search of `addr_to_range` (mem/vmm.cpp:230-242): the page map's own list, then the
    kernel's. -/
def searchRange (m : Machine) (p : PagemapId) (virt : U64) : Option RangeId :=
  match (m.rangeList p).find? (fun r => decide ((m.range r).Contains virt)) with
  | some r => some r
  | none =>
    if p = .kernel then none
    else (m.rangeList .kernel).find? (fun r => decide ((m.range r).Contains virt))

/-- `addr_to_range` (mem/vmm.cpp:226-243). -/
def addrToRange (m : Machine) (p : PagemapId) (virt : U64) : Option RangeId × Machine :=
  let search :=
    match m.searchRange p virt with
    | some r => (some r, m.setCache p (some r))
    | none => (none, m)
  match (m.pagemap p).cachedRangeLookup with
  | some c => if (m.range c).Contains virt then (some c, m) else search
  | none => search

/-- `handle_page_fault` (mem/vmm.cpp:246-307); `none` is `-EFAULT`. -/
def handlePageFaultFuel (p : PagemapId) :
    ℕ → U64 → Machine → Except Panic (Option U64 × Machine)
  | 0, _, _ => .error .diverges
  | fuel + 1, virt, m => do
    let pageVirt := alignDown virt pageSize
    let m ← m.createEntry p virt
    if isPresent (m.entry p virt) then .ok (none, m)
    else
      match m.addrToRange p virt with
      | (none, m) => .ok (none, m)
      | (some r, m) =>
        let range := m.range r
        match range.type with
        | .anonymous => do
          let (f, m) ← m.allocPage
          let m := m.setPage f { m.page f with mappedAddr := pageVirt }
          let m := m.linkLast (.range r) f
          let m := m.setFrame f zeroFrame
          .ok (some f.phy, m.writeEntry p virt (f.phy ||| range.pageFlags))
        | .direct =>
          let phy := pageVirt - range.originalBase + range.phyBase
          .ok (some phy, m.writeEntry p virt ((phy &&& frameMask) ||| range.pageFlags))
        | .directVirtual => do
          let map := pageVirt - range.originalBase + range.phyBase
          let m ← (match m.findEntry p map with
            | some _ => .ok m
            | none => do
              let (_, m) ← handlePageFaultFuel p fuel map m
              .ok m)
          match m.findEntry p map with
          | none => .ok (none, m)
          | some target =>
            let phy := target &&& frameMask
            .ok (some phy, m.writeEntry p virt (phy ||| range.pageFlags))
        | .file => do
          let (f, m) ← m.allocPage
          let m := m.setPage f { m.page f with mappedAddr := pageVirt }
          let m := m.linkLast (.range r) f
          let offset := pageVirt - range.originalBase + range.fileOffset
          let contents ← (match range.file with
            | some file => .ok (m.fileRead file offset)
            | none => .error .badPointer)
          let m := m.setFrame f contents
          .ok (some f.phy, m.writeEntry p virt (f.phy ||| range.pageFlags))
        | .none => .ok (none, m)

/-- `handle_page_fault`. -/
def handlePageFault (m : Machine) (p : PagemapId) (virt : U64) :
    Except Panic (Option U64 × Machine) :=
  handlePageFaultFuel p ((m.list .freelist).length + 1) virt m

/-! ## Page maps -/

/-- A page map with an empty PML4 in page `f`. -/
def emptyPagemap (f : Pfn) : Pagemap :=
  { pml4 := Radix.empty 0#64 3 f, rangeList := [], cachedRangeLookup := none }

/-- `new Pagemap()` (mem/vmm.cpp:100-104), `memset(pml4, 0, PAGE_SIZE)` and `map_kernel`
    (sched/sched.cpp:348-350), as a new page map `p`. -/
def newPagemap (m : Machine) (p : PagemapId) : Except Panic Machine := do
  let m := m.setList (.tables p) []
  let (f, m) ← m.allocPageForPageTable p
  let m := m.setPagemap p (emptyPagemap f)
  .ok { m with live := Function.update m.live p true }

/-- `~Pagemap` (mem/vmm.cpp:106-117). -/
def deletePagemap (m : Machine) (p : PagemapId) : Except Panic Machine := do
  let m ← (m.rangeList p).foldlM (fun m r => m.deleteRange p r) m
  let m ← (m.list (.tables p)).foldlM freePage m
  let m := m.setList (.tables p) []
  .ok { m with live := Function.update m.live p false }

/-! ## `fork` -/

/-- The body of the loop over `old_range->page_list` (mem/vmm.cpp:368-378): a copy of
    `oldPage` is linked into range `new` and mapped in `q`. -/
def forkPage (q : PagemapId) (new : RangeId) (m : Machine) (oldPage : Pfn) :
    Except Panic Machine := do
  let (f, m) ← m.allocPage
  let m := m.setPage f { m.page f with mappedAddr := (m.page oldPage).mappedAddr }
  let m := m.linkLast (.range new) f
  let m ← m.mapPage q f.phy (m.page f).mappedAddr (m.range new).pageFlags
  .ok (m.setFrame f (m.frame oldPage))

/-- The arguments of the call of `add_range` that copies a range (mem/vmm.cpp:364). -/
def forkArgs (old : MappedRange) : RangeArgs :=
  { base := old.base, length := old.length, pageFlags := old.pageFlags, type := old.type
    phyBase := old.phyBase, file := old.file, fileOffset := old.fileOffset
    merge := false, resolveOverlap := false, keepPages := false }

/-- The body of the loop over `range_list` (mem/vmm.cpp:363-382). -/
def forkRange (q : PagemapId) (m : Machine) (old : RangeId) : Except Panic Machine := do
  let (new, m) ← m.addRange q (forkArgs (m.range old))
  match new with
  | none => .error .badPointer
  | some new =>
    if (m.range new).type = .anonymous ∨ (m.range new).type = .file then
      (m.list (.range old)).foldlM (forkPage q new) m
    else do
      assert ((m.range new).type = .direct ∨ (m.range new).type = .directVirtual)
      .ok m

/-- The loop over the lower 256 slots of the PML4 (mem/vmm.cpp:316-360). -/
def forkTables (q : PagemapId) (t r : PageTable) (m : Machine) :
    Except Panic (PageTable × Machine) :=
  ((List.finRange 512).take 256).foldlM
    (Radix.copySlot (fun m => m.allocPageForPageTable q)
      (Radix.copy (fun m => m.allocPageForPageTable q) 0#64 isPresent (List.finRange 512)) t) (r, m)

/-- The new page map of `fork` with its tables (mem/vmm.cpp:310-360). -/
def forkStart (m : Machine) (p q : PagemapId) : Except Panic Machine := do
  let m := m.setList (.tables q) []
  let (f, m) ← m.allocPageForPageTable q
  -- the upper slots are the kernel's, every lower slot of the `memcpy` is overwritten
  let (t, m) ← forkTables q (m.pagemap p).pml4 (Radix.empty 0#64 3 f) m
  let m := m.setPagemap q { pml4 := t, rangeList := [], cachedRangeLookup := none }
  .ok { m with live := Function.update m.live q true }

/-- `fork` (mem/vmm.cpp:309-385), with `q` the name of the new page map. -/
def fork (m : Machine) (p q : PagemapId) : Except Panic Machine := do
  let m ← m.forkStart p q
  (m.rangeList p).foldlM (forkRange q) m

end Machine

end Fishix.Mem
