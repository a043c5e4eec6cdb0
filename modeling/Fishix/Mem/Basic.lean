import Fishix.Common.Word
import Fishix.Common.Radix

/-!
# The state of the memory subsystem

Types and state shared by the models of `mem/pmm.cpp`, `mem/vmm.cpp` and of the
callers of the page maps.

* A physical frame is named by its page frame number `Pfn` (40 bits: physical
  addresses have 52). `pmm::Page` structs are named by the frame they describe.
* A page-table entry is the raw 64-bit word.
* The intrusive lists that link `pmm::Page`s (the freelist, a `page_list` of a
  range, a `page_table_pages_list` of a page map) are the values of
  `Machine.list`; `Page.link` names the list the page's own `link` is in, which is
  what `ListHead::remove` acts on.
* A `MappedRange` is named by its address on the kernel heap (`RangeId`); the heap
  never reuses an address (mem/bump.cpp:34-36), so `Machine.range` keeps the object
  after `delete`, and a `range_list` is a list of names.
* The upper 256 slots of every PML4 are those of the kernel's (`map_kernel`, `fork`;
  `VMM::init` fills all of them at boot), so tables of the upper half are kept in
  the kernel page map alone.
* A call that fails an `ASSERT`, panics or dereferences a bad pointer does not
  return: it is an `Except` error (`Panic`).
-/

namespace Fishix.Mem

/-! ## Frames and page-table entries -/

/-- A page frame number: physical address / `PAGE_SIZE`. -/
abbrev Pfn := BitVec 40

/-- `pfn * PAGE_SIZE` (`Page::phy`, mem/pmm.hpp:17). -/
def Pfn.phy (f : Pfn) : U64 := f.setWidth 64 <<< 12

/-- `PAGE_PRESENT` (mem/vmm.hpp:12). -/
abbrev pagePresent : U64 := 0x1#64
/-- `PAGE_WRITABLE`. -/
abbrev pageWritable : U64 := 0x2#64
/-- `PAGE_USER`. -/
abbrev pageUser : U64 := 0x4#64
/-- `PAGE_WRITE_COMBINING`, i.e. `PAGE_ATTRIBUTE_TABLE | PAGE_CACHE_DISABLE`. -/
abbrev pageWriteCombining : U64 := 0x90#64
/-- `PAGE_NO_EXECUTE`. -/
abbrev pageNoExecute : U64 := 0x8000000000000000#64

/-- The address bits of an entry, `0x000FFFFFFFFFF000`. -/
abbrev frameMask : U64 := 0x000FFFFFFFFFF000#64

/-- `entry & PAGE_PRESENT`. -/
def isPresent (entry : U64) : Bool := entry &&& pagePresent ≠ 0#64

/-- The frame an entry names: `(entry & 0x000FFFFFFFFFF000) / PAGE_SIZE`. -/
def frameOf (entry : U64) : Pfn := entry.extractLsb' 12 40

/-- The bits of an entry outside the frame address. -/
def flagsOf (entry : U64) : U64 := entry &&& ~~~frameMask

/-- The contents of a frame. -/
abbrev Frame := Fin 4096 → BitVec 8

/-- The frame `memset(ptr, 0, PAGE_SIZE)` leaves. -/
def zeroFrame : Frame := fun _ => 0#8

/-! ## Names of kernel objects -/

abbrev RangeId := ℕ
abbrev FileId := ℕ

/-- A `Pagemap` object: `vmm->kernel_pagemap` or one made by `new Pagemap()`. -/
inductive PagemapId where
  | kernel
  | user (n : ℕ)
deriving DecidableEq

/-- A list that links `pmm::Page`s. -/
inductive ListId where
  /-- `page_freelist` (mem/pmm.cpp:14). -/
  | freelist
  /-- `MappedRange::page_list` (mem/vmm.hpp:39). -/
  | range (r : RangeId)
  /-- `Pagemap::page_table_pages_list` (mem/vmm.hpp:83). -/
  | tables (p : PagemapId)
deriving DecidableEq

/-- `pmm::Page` (mem/pmm.hpp:11-21) without its `pfn`, which names it. -/
structure Page where
  free : Bool
  mappedAddr : U64
  /-- The list `Page::link` is in; `none` after `ListHead::remove`, which leaves null pointers. -/
  link : Option ListId

/-- `pmm::Region` (mem/pmm.hpp:24-34), at the start of a usable memory map entry. -/
structure Region where
  basePfn : ℕ
  numPages : ℕ
deriving DecidableEq

/-! ## Mapped ranges and page maps -/

/-- `MappedRange::Type` (mem/vmm.hpp:29-35). -/
inductive RangeType where
  /-- Only used as an argument to `add_range`. -/
  | none
  | direct
  | anonymous
  | file
  /-- Mirrors another virtual mapping in the kernel. -/
  | directVirtual
deriving DecidableEq

theorem RangeType.anonymous_ne_none : anonymous ≠ none := by decide

/-- `MappedRange` (mem/vmm.hpp:28-75). `NONE` is "only to be used as an argument to
    add_range", so no object has that type. -/
structure MappedRange where
  base : U64
  /-- `original_base`: "used for fixing offsets after the base is changed". -/
  originalBase : U64
  length : U64
  pageFlags : U64
  type : RangeType
  phyBase : U64
  file : Option FileId
  fileOffset : U64
  type_ne : type ≠ .none

/-- `MappedRange::end()`. -/
def MappedRange.end_ (r : MappedRange) : U64 := r.base + r.length

/-- `virt >= range->base && virt < range->end()`. -/
def MappedRange.Contains (r : MappedRange) (virt : U64) : Prop := r.base ≤ virt ∧ virt < r.end_

instance (r : MappedRange) (virt : U64) : Decidable (r.Contains virt) :=
  inferInstanceAs (Decidable (_ ∧ _))

/-- A four-level page table rooted at a PML4. -/
abbrev PageTable := Radix Pfn (Fin 512) U64 3

/-- `Pagemap` (mem/vmm.hpp:80-122). -/
@[ext] structure Pagemap where
  pml4 : PageTable
  rangeList : List RangeId
  cachedRangeLookup : Option RangeId

/-- The state of the memory subsystem. -/
structure Machine where
  /-- `region_list` (mem/pmm.cpp:15). -/
  regions : List Region
  page : Pfn → Page
  list : ListId → List Pfn
  /-- Physical memory outside the page tables. -/
  frame : Pfn → Frame
  /-- The `MappedRange` objects. -/
  range : RangeId → MappedRange
  /-- The next heap address for a `MappedRange`. -/
  nextRange : RangeId
  pagemap : PagemapId → Pagemap
  /-- The page maps that have been constructed and not destroyed. -/
  live : PagemapId → Bool
  /-- `kernel_virt_alloc_base` (mem/vmm.hpp:139). -/
  kernelVirtAllocBase : U64
  /-- What `vnode->read(nullptr, ptr, PAGE_SIZE, offset)` leaves in a zeroed page. -/
  fileRead : FileId → U64 → Frame
  /-- `FileDescription::ref_count` (fs/vfs.hpp:172). -/
  fileRefs : FileId → ℤ
  /-- How often `~FileDescription` has run (fs/vfs.hpp:160-163). -/
  fileClosed : FileId → ℕ

/-- Ways in which a call does not return. -/
inductive Panic where
  /-- `panic("Out of physical memory")` (mem/pmm.cpp:113). -/
  | outOfPhysicalMemory
  /-- `ASSERT(x)` (panic.hpp). -/
  | assertion
  /-- A null `ListHead` pointer or an index outside an array is dereferenced. -/
  | badPointer
  /-- A loop has not ended within its bound. -/
  | diverges
deriving DecidableEq

/-- `ASSERT(x)` (panic.hpp:18). -/
def assert (x : Bool) : Except Panic Unit := if x then .ok () else .error .assertion

namespace Machine

/-! ## Updates of one object -/

def setPage (m : Machine) (f : Pfn) (p : Page) : Machine :=
  { m with page := Function.update m.page f p }

def setList (m : Machine) (l : ListId) (fs : List Pfn) : Machine :=
  { m with list := Function.update m.list l fs }

def setFrame (m : Machine) (f : Pfn) (c : Frame) : Machine :=
  { m with frame := Function.update m.frame f c }

def setRange (m : Machine) (r : RangeId) (x : MappedRange) : Machine :=
  { m with range := Function.update m.range r x }

def setPagemap (m : Machine) (p : PagemapId) (x : Pagemap) : Machine :=
  { m with pagemap := Function.update m.pagemap p x }

/-- A machine without memory, page maps and ranges, from which concrete states are built. -/
def blank : Machine where
  regions := []
  page := fun _ => { free := false, mappedAddr := 0#64, link := none }
  list := fun _ => []
  frame := fun _ => zeroFrame
  range := fun _ =>
    { base := 0#64, originalBase := 0#64, length := 0#64, pageFlags := 0#64, type := .anonymous
      phyBase := 0#64, file := none, fileOffset := 0#64,
      type_ne := RangeType.anonymous_ne_none }
  nextRange := 0
  pagemap := fun _ =>
    { pml4 := Radix.empty 0#64 3 0#40, rangeList := [], cachedRangeLookup := none }
  live := fun _ => false
  kernelVirtAllocBase := 0#64
  fileRead := fun _ _ => zeroFrame
  fileRefs := fun _ => 0
  fileClosed := fun _ => 0

/-- The names in `range_list`, in list order. -/
def rangeList (m : Machine) (p : PagemapId) : List RangeId := (m.pagemap p).rangeList

/-- The ranges of a page map, in list order. -/
def ranges (m : Machine) (p : PagemapId) : List MappedRange := (m.rangeList p).map m.range

end Machine

/-! ## Entries -/

theorem isPresent_iff (e : U64) : isPresent e = true ↔ e.getLsbD 0 = true := by
  unfold isPresent
  rw [decide_eq_true_iff, BitVec.and_one_eq_setWidth_ofBool_getLsbD]
  cases e.getLsbD 0 <;> decide

@[simp] theorem isPresent_zero : isPresent 0#64 = false := by decide

theorem frameMask_eq : frameMask = (BitVec.allOnes 40).setWidth 64 <<< 12 := by decide

theorem getLsbD_frameMask (i : ℕ) : frameMask.getLsbD i = decide (12 ≤ i ∧ i < 52) := by
  rw [frameMask_eq]
  simp only [BitVec.getLsbD_shiftLeft, BitVec.getLsbD_setWidth, BitVec.getLsbD_allOnes]
  by_cases h : 12 ≤ i ∧ i < 52
  · simp [h]; omega
  · rw [decide_eq_false h]
    by_cases h12 : i < 12
    · simp [h12]
    · simp; omega

theorem getLsbD_of_flags {fl : U64} (h : fl &&& frameMask = 0#64) {i : ℕ} (h1 : 12 ≤ i)
    (h2 : i < 52) : fl.getLsbD i = false := by
  have := congrArg (fun x => BitVec.getLsbD x i) h
  simp only [BitVec.getLsbD_and, getLsbD_frameMask, BitVec.getLsbD_zero] at this
  simpa [h1, h2] using this

theorem getLsbD_phy (f : Pfn) (i : ℕ) :
    f.phy.getLsbD i = (decide (12 ≤ i ∧ i < 52) && f.getLsbD (i - 12)) := by
  unfold Pfn.phy
  simp only [BitVec.getLsbD_shiftLeft, BitVec.getLsbD_setWidth]
  by_cases h : 12 ≤ i ∧ i < 52
  · have h1 : i < 64 := by omega
    have h2 : ¬ i < 12 := by omega
    have h3 : i - 12 < 64 := by omega
    simp [h, h1, h2, h3]
  · rw [decide_eq_false h]
    by_cases h12 : i < 12
    · simp [h12]
    · have : f.getLsbD (i - 12) = false := BitVec.getLsbD_of_ge _ _ (by omega)
      simp [this]

theorem and_frameMask (e : U64) : e &&& frameMask = (frameOf e).phy := by
  apply BitVec.eq_of_getLsbD_eq
  intro i hi
  rw [getLsbD_phy, BitVec.getLsbD_and, getLsbD_frameMask]
  unfold frameOf
  by_cases h : 12 ≤ i ∧ i < 52
  · have h1 : i - 12 < 40 := by omega
    have h2 : 12 + (i - 12) = i := by omega
    simp [h, h1, h2]
  · simp [h]

theorem frameOf_phy_or {f : Pfn} {fl : U64} (h : fl &&& frameMask = 0#64) :
    frameOf (f.phy ||| fl) = f := by
  apply BitVec.eq_of_getLsbD_eq
  intro i hi
  unfold frameOf
  have h1 : 12 + i - 12 = i := by omega
  have h2 := getLsbD_of_flags h (i := 12 + i) (by omega) (by omega)
  have h3 : 12 + i < 52 := by omega
  simp [hi, getLsbD_phy, h1, h2, h3]

theorem flagsOf_phy_or {f : Pfn} {fl : U64} (h : fl &&& frameMask = 0#64) :
    flagsOf (f.phy ||| fl) = fl := by
  apply BitVec.eq_of_getLsbD_eq
  intro i hi
  unfold flagsOf
  rw [BitVec.getLsbD_and, BitVec.getLsbD_or, BitVec.getLsbD_not, getLsbD_phy, getLsbD_frameMask]
  by_cases hm : 12 ≤ i ∧ i < 52
  · simp [hm, getLsbD_of_flags h hm.1 hm.2]
  · simp [hm, hi]

theorem isPresent_phy_or {f : Pfn} {fl : U64} : isPresent (f.phy ||| fl) = isPresent fl := by
  rw [Bool.eq_iff_iff, isPresent_iff, isPresent_iff, BitVec.getLsbD_or, getLsbD_phy]
  simp

end Fishix.Mem
