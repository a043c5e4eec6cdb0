import Fishix.Common.ByteMemory
import Fishix.Common.Outcome
import Fishix.Fs.Vfs

/-!
# Loading an ELF file

Model of `elf::load` (userland/elf.cpp:10-102) into the active page map, and of the part of a page
map that it needs: which addresses are mapped, and the bytes there. A write outside of the lower
half, or to an address that is not mapped, ends the kernel here, and so does a read whose end wraps
around.

* `load_error`: a load fails only at the header, before it has mapped or written anything.
* `load_firstFreeVirt`: where a program ends is decided by its headers.
-/

namespace Fishix.Userland

open Fishix.Fs (VNode EntryId)
open BitVec (ofNat)

/-- What stops the kernel inside `execve`. -/
inductive Crash
  /-- Inside a path lookup. -/
  | lookup (fault : Fs.Fault)
  /-- A write to an address that is not the user's, or that is not mapped. -/
  | badAddress
  | assertion
  deriving DecidableEq

/-- The errors of `execve`. -/
inductive ExecErrno
  | enoent | eacces | enoexec | eisdir | elibbad
  deriving DecidableEq

/-! ## Address spaces -/

/-- `mem::MappedRange` (mem/vmm.hpp:36-59), of anonymous memory. -/
structure AnonRange where
  base : U64
  length : U64
  pageFlags : U64
  deriving DecidableEq

namespace AnonRange

/-- `end()`. -/
def end_ (r : AnonRange) : U64 := r.base + r.length

/-- The test for no overlap with `[base, end)` (mem/vmm.cpp:401). -/
def OutOf (base end_ : U64) (r : AnonRange) : Prop := base ≥ r.end_ ∨ end_ ≤ r.base

/-- The range that is mapped already (mem/vmm.cpp:406). -/
def Same (base end_ : U64) (r : AnonRange) : Prop :=
  ¬r.OutOf base end_ ∧ base = r.base ∧ end_ = r.end_

/-- A range that is deleted with its pages (mem/vmm.cpp:404-415). -/
def Covered (base end_ : U64) (r : AnonRange) : Prop :=
  ¬r.OutOf base end_ ∧ base ≤ r.base ∧ end_ ≥ r.end_

instance (base end_ : U64) (r : AnonRange) : Decidable (r.OutOf base end_) :=
  inferInstanceAs (Decidable (_ ∨ _))

instance (base end_ : U64) (r : AnonRange) : Decidable (r.Same base end_) :=
  inferInstanceAs (Decidable (_ ∧ _))

instance (base end_ : U64) (r : AnonRange) : Decidable (r.Covered base end_) :=
  inferInstanceAs (Decidable (_ ∧ _))

/-- What the overlap loop leaves of a range (mem/vmm.cpp:400-442). -/
def cut (base end_ : U64) (r : AnonRange) : List AnonRange :=
  if r.OutOf base end_ then [r]
  else if base ≤ r.base then
    if end_ ≥ r.end_ then []
    else [{ r with base := end_, length := r.length - (end_ - r.base) }]
  else if end_ ≥ r.end_ then [{ r with length := r.length - (r.end_ - base) }]
  else [{ r with length := base - r.base }, { r with base := end_, length := r.end_ - end_ }]

/-- The merge loop (mem/vmm.cpp:445-463). -/
def merge (new : AnonRange) : List AnonRange → Option (List AnonRange)
  | [] => none
  | r :: rest =>
    if new.pageFlags = r.pageFlags ∧ new.base = r.end_ then
      some ({ r with length := r.length + new.length } :: rest)
    else if new.pageFlags = r.pageFlags ∧ new.end_ = r.base then
      some ({ r with base := r.base - new.length, length := r.length + new.length } :: rest)
    else (merge new rest).map (r :: ·)

/-- The new range is linked after the first one whose successor has a larger base
    (mem/vmm.cpp:477-485). -/
def insert (new : AnonRange) : List AnonRange → List AnonRange
  | [] => [new]
  | [previous] => [previous, new]
  | previous :: next :: rest =>
    if next.base > new.base then previous :: new :: next :: rest
    else previous :: insert new (next :: rest)

end AnonRange

/-- What a page map says about the user's addresses. -/
structure Space where
  /-- The page flags of a mapped address. -/
  flags : U64 → Option U64 := fun _ => none
  byte : U64 → CChar := fun _ => 0#8
  /-- `range_list`. -/
  ranges : List AnonRange := []

/-- The first address that is not in the lower half. -/
def userEnd : U64 := 0x800000000000#64

def PAGE_PRESENT : U64 := 0x1#64
def PAGE_WRITABLE : U64 := 0x2#64
def PAGE_USER : U64 := 0x4#64
def PAGE_NO_EXECUTE : U64 := 0x8000000000000000#64

namespace Space

/-- `map_anonymous` with `keep_pages` (mem/vmm.cpp:387-494). A range that is covered goes with its
    pages; of any other one in the way, and of one that is mapped already, the pages are kept. Where
    there was none, a page of zeros appears when it is first touched. -/
def mapAnonymous (k : Space) (base length pageFlags : U64) : Space :=
  let end_ := base + length
  let flags := fun a => if a - base < length then some pageFlags else k.flags a
  if k.ranges.any fun r => r.Same base end_ then
    { k with
      flags
      ranges := k.ranges.map fun r => if r.Same base end_ then { r with pageFlags } else r }
  else
    let gone := k.ranges.filter fun r => r.Covered base end_
    let kept := k.ranges.flatMap (AnonRange.cut base end_)
    let new : AnonRange := { base, length, pageFlags }
    { flags
      byte := fun a => if gone.any fun r => a - r.base < r.length then 0#8 else k.byte a
      ranges := (new.merge kept).getD (new.insert kept) }

/-- Bytes are written to the active page map. -/
def write (k : Space) (dst : U64) (bytes : List CChar) : Except Crash Space :=
  if (List.range bytes.length).all fun i =>
      let a := dst + ofNat 64 i
      a < userEnd && (k.flags a).isSome then
    .ok { k with byte := fun a =>
      if (a - dst).toNat < bytes.length then bytes.getD (a - dst).toNat 0#8 else k.byte a }
  else .error .badAddress

end Space

/-! ## Headers -/

/-- `read(nullptr, buf, count, offset)`: the bytes copied. -/
def readAt (file : VNode) (count offset : U64) : List CChar :=
  if file.nodeType = .directory then []
  else ((file.data.getD []).drop offset.toNat).take count.toNat

/-- The end of a read wraps around: `count` bytes are copied, more than the file has
    (fs/tmpfs.cpp:106-109). -/
def Overruns (file : VNode) (count offset : U64) : Prop :=
  file.nodeType ≠ .directory ∧ offset.toNat < (file.data.getD []).length ∧
    2 ^ 64 ≤ offset.toNat + count.toNat

instance (file : VNode) (count offset : U64) : Decidable (Overruns file count offset) :=
  inferInstanceAs (Decidable (_ ∧ _ ∧ _))

/-- A read with a count from the file. -/
def readInto (file : VNode) (count offset : U64) : Except Crash (List CChar) :=
  if Overruns file count offset then .error .badAddress else .ok (readAt file count offset)

/-- `n` bytes that are zero where nothing has been copied. -/
def padded (n : ℕ) (bytes : List CChar) : List CChar := (bytes ++ List.replicate n 0#8).take n

/-- A little-endian field. -/
def fieldAt (bytes : List CChar) (offset size : ℕ) : ℕ :=
  Nat.ofDigits 256 (((bytes.drop offset).take size).map BitVec.toNat)

/-- `elf::Header` (userland/elf.hpp:9-24), the fields that are read. -/
structure Header where
  identifier : List CChar
  type : ℕ
  arch : ℕ
  entryAddr : U64
  phTableOffset : U64
  phEntrySize : ℕ
  phCount : ℕ

/-- `elf::ProgramHeader` (userland/elf.hpp:26-35), the fields that are read. -/
structure ProgramHeader where
  type : ℕ
  offset : U64
  virtAddr : U64
  fileSize : U64
  memSize : U64

/-- The header of a file (userland/elf.cpp:14-15). -/
def readHeader (file : VNode) : Header :=
  let bytes := padded 64 (readAt file 64#64 0#64)
  { identifier := bytes.take 16
    type := fieldAt bytes 16 2
    arch := fieldAt bytes 18 2
    entryAddr := ofNat 64 (fieldAt bytes 24 8)
    phTableOffset := ofNat 64 (fieldAt bytes 32 8)
    phEntrySize := fieldAt bytes 54 2
    phCount := fieldAt bytes 56 2 }

/-- A program header (userland/elf.cpp:30-31). -/
def readProgramHeader (file : VNode) (header : Header) (i : ℕ) : ProgramHeader :=
  let offset := header.phTableOffset + ofNat 64 (i * header.phEntrySize)
  let bytes := padded 56 (readAt file 56#64 offset)
  { type := fieldAt bytes 0 4
    offset := ofNat 64 (fieldAt bytes 8 8)
    virtAddr := ofNat 64 (fieldAt bytes 16 8)
    fileSize := ofNat 64 (fieldAt bytes 32 8)
    memSize := ofNat 64 (fieldAt bytes 40 8) }

/-- The identifier and the architecture that are accepted (userland/elf.cpp:17-23): ELF, 64-bit,
    little-endian, for System V or GNU, on x86-64. -/
def Header.accepted (header : Header) : Bool :=
  header.identifier.take 4 = (0x7f#8 :: chars "ELF") &&
    header.identifier.getD 4 0#8 = 2#8 && header.identifier.getD 5 0#8 = 1#8 && header.arch = 62 &&
    (header.identifier.getD 7 0#8 = 0#8 || header.identifier.getD 7 0#8 = 3#8)

def ET_EXEC : ℕ := 2
def PT_LOAD : ℕ := 1
def PT_INTERP : ℕ := 3
def PT_PHDR : ℕ := 6

/-! ## Loading -/

/-- `elf::Auxval`. -/
structure Auxval where
  atEntry : U64 := 0#64
  atPhdr : U64 := 0#64
  atPhent : U64 := 0#64
  atPhnum : U64 := 0#64
  deriving DecidableEq

/-- What a load writes: the page map, `*ld_path`, `*auxv` and `*first_free_virt`. -/
structure Loading where
  space : Space := {}
  /-- The memory that `ld_path` points to. -/
  ldPath : Option (List CChar) := none
  auxv : Auxval := {}
  firstFreeVirt : U64 := 0#64

/-- The lowest address of a segment, also in `file_virt_base` (userland/elf.cpp:25, 49). -/
def klibMin (a b : U64) : U64 := if a < b then a else b

/-- A page of a segment (userland/elf.cpp:54-73); `total_read_from_file` goes along. -/
def loadPage (file : VNode) (ph : ProgramHeader) (base : U64) (filePageCount : ℕ)
    (s : Loading × U64) (i : ℕ) : Except Crash (Loading × U64) := do
  let (l, total) := s
  let misalign := ph.virtAddr &&& 0xfff#64
  let n := ofNat 64 i * pageSize
  let pageVirt := base + n
  let dst := alignDown base pageSize + n
  let space ← l.space.write dst (List.replicate 4096 0#8)
  let size :=
    if i + 1 = filePageCount then ph.fileSize - total
    else if i = 0 then pageSize - misalign else pageSize
  let offset := if i = 0 then ph.offset + n else ph.offset + n - misalign
  let bytes ← (if i < filePageCount then readInto file size offset else .ok [])
  let space ← space.write (if i = 0 then dst + misalign else dst) bytes
  let firstFreeVirt := if l.firstFreeVirt ≤ pageVirt then pageVirt + pageSize else l.firstFreeVirt
  return ({ l with space, firstFreeVirt }, if i < filePageCount then total + size else total)

/-- `PT_LOAD` (userland/elf.cpp:34-78). -/
def loadSegment (file : VNode) (loadBase : U64) (ph : ProgramHeader) (l : Loading) :
    Except Crash Loading := do
  let misalign := ph.virtAddr &&& 0xfff#64
  let memPageCount := (ph.memSize + misalign + pageSize - 1#64) / pageSize
  let filePageCount := (ph.fileSize + misalign + pageSize - 1#64) / pageSize
  let base := loadBase + ph.virtAddr
  let space := l.space.mapAnonymous (alignDown base pageSize) (memPageCount * pageSize)
    (PAGE_PRESENT ||| PAGE_USER ||| PAGE_WRITABLE)
  let (l, total) ← (List.range memPageCount.toNat).foldlM
    (loadPage file ph base filePageCount.toNat) ({ l with space }, 0#64)
  if total = ph.fileSize then return l else .error .assertion

/-- The path of a `PT_INTERP` (userland/elf.cpp:86-88), where `heap` is what stands in newly allocated
    memory. `new char[0]` is a null pointer. -/
def readPath (file : VNode) (heap : List CChar) (ph : ProgramHeader) :
    Except Crash (Option (List CChar)) := do
  let path ← readInto file ph.fileSize ph.offset
  if ph.fileSize = BitVec.allOnes 64 then
    if path = [] then .ok none else .error .badAddress
  else .ok (some (path ++ heap.drop path.length))

/-- A program header of the table (userland/elf.cpp:29-89), with `file_virt_base`; `wantsLdPath` is
    that `ld_path` is not null. -/
def loadProgramHeader (file : VNode) (loadBase : U64) (heap : List CChar) (wantsLdPath : Bool)
    (header : Header) (s : Loading × U64) (i : ℕ) : Except Crash (Loading × U64) := do
  let (l, fileVirtBase) := s
  let ph := readProgramHeader file header i
  if ph.type = PT_LOAD then
    let l ← loadSegment file loadBase ph l
    return (l, klibMin fileVirtBase (loadBase + ph.virtAddr))
  else if ph.type = PT_PHDR then
    return ({ l with auxv := { l.auxv with atPhdr := loadBase + ph.virtAddr } }, fileVirtBase)
  else if ph.type = PT_INTERP ∧ wantsLdPath then
    let ldPath ← readPath file heap ph
    return ({ l with ldPath }, fileVirtBase)
  else return (l, fileVirtBase)

/-- `elf::load` (userland/elf.cpp:10-102). -/
def load (file : VNode) (loadBase : U64) (heap : List CChar) (wantsLdPath : Bool) (l : Loading) :
    Except Crash (Except ExecErrno Loading) :=
  let header := readHeader file
  if ¬header.accepted then .ok (.error .enoexec)
  else do
    let loadBase := if header.type = ET_EXEC then 0#64 else loadBase
    let (l, fileVirtBase) ← (List.range header.phCount).foldlM
      (loadProgramHeader file loadBase heap wantsLdPath header) (l, BitVec.allOnes 64)
    let atPhdr := if l.auxv.atPhdr = 0#64 then fileVirtBase + header.phTableOffset
      else l.auxv.atPhdr
    return .ok { l with
      firstFreeVirt := alignUp l.firstFreeVirt pageSize
      auxv := { atEntry := loadBase + header.entryAddr, atPhdr
                atPhent := ofNat 64 header.phEntrySize
                atPhnum := ofNat 64 header.phCount } }

/-! ## Mapping and writing -/

namespace AnonRange

variable {r q new : AnonRange} {rs rs' : List AnonRange} {base end_ length a : U64}

/-- The range ends before the addresses wrap around. -/
def InOrder (r : AnonRange) : Prop := r.base.toNat + r.length.toNat < 2 ^ 64

theorem toNat_end (h : r.InOrder) : r.end_.toNat = r.base.toNat + r.length.toNat := by
  unfold InOrder at h
  unfold end_
  rw [BitVec.toNat_add, Nat.mod_eq_of_lt h]

/-- What is deleted lies in the window that is mapped. -/
theorem mem_window_of_covered (h : r.InOrder) (hcovered : r.Covered base (base + length))
    (ha : a - r.base < r.length) : a - base < length := by
  obtain ⟨hout, hlow, hhigh⟩ := hcovered
  have hend := toNat_end h
  unfold InOrder at h
  unfold OutOf at hout
  bv_omega

theorem inOrder_cut (h : r.InOrder) (hq : q ∈ r.cut base end_) : q.InOrder := by
  have hend := toNat_end h
  unfold InOrder at h
  unfold cut at hq
  split_ifs at hq with hout hlow hhigh hhigh
  all_goals unfold OutOf at hout
  · obtain rfl := List.mem_singleton.mp hq
    exact h
  · cases hq
  · obtain rfl := List.mem_singleton.mp hq
    show end_.toNat + (r.length - (end_ - r.base)).toNat < 2 ^ 64
    bv_omega
  · obtain rfl := List.mem_singleton.mp hq
    show r.base.toNat + (r.length - (r.end_ - base)).toNat < 2 ^ 64
    bv_omega
  · rcases List.mem_cons.mp hq with rfl | hq
    · show r.base.toNat + (base - r.base).toNat < 2 ^ 64
      bv_omega
    · obtain rfl := List.mem_singleton.mp hq
      show end_.toNat + (r.end_ - end_).toNat < 2 ^ 64
      bv_omega

theorem inOrder_insert (hnew : new.InOrder) (hrs : ∀ r ∈ rs, r.InOrder) :
    ∀ r ∈ new.insert rs, r.InOrder := by
  fun_induction insert new rs with
  | case1 => simpa using hnew
  | case2 previous => simpa [hnew] using hrs
  | case3 previous next rest hlt => simpa [hnew] using hrs
  | case4 previous next rest hle ih =>
    intro r hr
    rcases List.mem_cons.mp hr with rfl | hr
    · exact hrs r List.mem_cons_self
    · exact ih (fun q hq => hrs q (List.mem_cons_of_mem _ hq)) r hr

theorem inOrder_merge (hnew : new.InOrder) (hrs : ∀ r ∈ rs, r.InOrder)
    (h : new.merge rs = some rs') : ∀ r ∈ rs', r.InOrder := by
  induction rs generalizing rs' with
  | nil => cases h
  | cons r rest ih =>
    have hr := hrs r List.mem_cons_self
    have hrest : ∀ q ∈ rest, q.InOrder := fun q hq => hrs q (List.mem_cons_of_mem _ hq)
    have hend := toNat_end hr
    have hend' := toNat_end hnew
    unfold merge at h
    split_ifs at h with hafter hbefore
    · cases h
      refine List.forall_mem_cons.mpr ⟨?_, hrest⟩
      have hat := hafter.2
      unfold InOrder at hr hnew ⊢
      show r.base.toNat + (r.length + new.length).toNat < 2 ^ 64
      bv_omega
    · cases h
      refine List.forall_mem_cons.mpr ⟨?_, hrest⟩
      have hat := hbefore.2
      unfold InOrder at hr hnew ⊢
      show (r.base - new.length).toNat + (r.length + new.length).toNat < 2 ^ 64
      bv_omega
    · obtain ⟨rs1, hmerge, rfl⟩ := Option.map_eq_some_iff.mp h
      exact List.forall_mem_cons.mpr ⟨hr, ih hrest hmerge⟩

end AnonRange

namespace Space

variable {k k' : Space} {base length pageFlags a dst : U64} {bytes : List CChar}

theorem mapAnonymous_flags : (k.mapAnonymous base length pageFlags).flags a =
    if a - base < length then some pageFlags else k.flags a := by
  unfold mapAnonymous
  simp only
  cases k.ranges.any fun r => r.Same base (base + length)
  · rfl
  · rfl

/-- A page is kept or cleared. -/
theorem mapAnonymous_byte : (k.mapAnonymous base length pageFlags).byte a = k.byte a ∨
    (k.mapAnonymous base length pageFlags).byte a = 0#8 ∧
      ∃ r ∈ k.ranges, r.Covered base (base + length) ∧ a - r.base < r.length := by
  unfold mapAnonymous
  simp only
  cases k.ranges.any fun r => r.Same base (base + length)
  case true => exact .inl rfl
  case false =>
    by_cases hgone : (k.ranges.filter fun r => r.Covered base (base + length)).any
        fun r => a - r.base < r.length
    · refine .inr ⟨if_pos hgone, ?_⟩
      obtain ⟨r, hr, ha⟩ := List.any_eq_true.mp hgone
      obtain ⟨hmem, hcovered⟩ := List.mem_filter.mp hr
      exact ⟨r, hmem, by simpa using hcovered, by simpa using ha⟩
    · exact .inl (if_neg hgone)

/-- No range wraps around. -/
def InOrder (k : Space) : Prop := ∀ r ∈ k.ranges, r.InOrder

/-- Outside of the window a byte stays. -/
theorem mapAnonymous_byte_outside (h : k.InOrder) (ha : ¬a - base < length) :
    (k.mapAnonymous base length pageFlags).byte a = k.byte a := by
  obtain hkept | ⟨-, r, hr, hcovered, hin⟩ := mapAnonymous_byte (k := k) (a := a)
  · exact hkept
  · exact absurd (AnonRange.mem_window_of_covered (h r hr) hcovered hin) ha

theorem InOrder.mapAnonymous (h : k.InOrder) (hwindow : base.toNat + length.toNat < 2 ^ 64) :
    (k.mapAnonymous base length pageFlags).InOrder := by
  unfold Space.mapAnonymous
  simp only
  cases k.ranges.any fun r => r.Same base (base + length)
  case true =>
    intro r hr
    obtain ⟨q, hq, rfl⟩ := List.mem_map.mp hr
    split_ifs
    · exact h q hq
    · exact h q hq
  case false =>
    have hnew : AnonRange.InOrder { base, length, pageFlags } := hwindow
    have hkept : ∀ r ∈ k.ranges.flatMap (AnonRange.cut base (base + length)), r.InOrder := by
      intro r hr
      obtain ⟨q, hq, hr⟩ := List.mem_flatMap.mp hr
      exact AnonRange.inOrder_cut (h q hq) hr
    show ∀ r ∈ (AnonRange.merge _ _).getD _, r.InOrder
    cases hmerge : AnonRange.merge { base, length, pageFlags }
      (k.ranges.flatMap (AnonRange.cut base (base + length))) with
    | none => exact AnonRange.inOrder_insert hnew hkept
    | some rs => exact AnonRange.inOrder_merge hnew hkept hmerge

theorem write_ok (h : k.write dst bytes = .ok k') :
    (∀ i < bytes.length, dst + ofNat 64 i < userEnd ∧
        (k.flags (dst + ofNat 64 i)).isSome) ∧
      k'.flags = k.flags ∧ k'.ranges = k.ranges ∧
      k'.byte = ByteMemory.store k.byte dst bytes := by
  unfold write at h
  split_ifs at h with hall
  cases h
  refine ⟨?_, rfl, rfl, rfl⟩
  intro i hi
  have hi' := List.all_eq_true.mp hall i (List.mem_range.mpr hi)
  simpa using hi'

theorem write_of_mapped (h : ∀ i < bytes.length,
    dst + ofNat 64 i < userEnd ∧ (k.flags (dst + ofNat 64 i)).isSome) :
    k.write dst bytes = .ok { k with byte := ByteMemory.store k.byte dst bytes } := by
  unfold write
  rw [if_pos]
  · rfl
  · refine List.all_eq_true.mpr ?_
    intro i hi
    simpa using h i (List.mem_range.mp hi)

end Space

variable {file : VNode} {loadBase : U64} {heap : List CChar} {wantsLdPath : Bool} {l l' : Loading}

/-- A load fails only at the header, and nothing has been written then. -/
theorem load_error {e : ExecErrno} (h : load file loadBase heap wantsLdPath l = .ok (.error e)) :
    (readHeader file).accepted = false ∧ e = .enoexec := by
  unfold load at h
  simp only at h
  by_cases haccepted : (readHeader file).accepted = true
  · rw [if_neg (by simpa using haccepted)] at h
    obtain ⟨⟨l', fileVirtBase⟩, -, h⟩ := bind_ok h
    cases Except.ok.inj h
  · rw [if_pos haccepted] at h
    obtain rfl := Except.error.inj (Except.ok.inj h)
    exact ⟨by simpa using haccepted, rfl⟩

theorem load_accepted (h : load file loadBase heap wantsLdPath l = .ok (.ok l')) :
    (readHeader file).accepted = true := by
  unfold load at h
  simp only at h
  by_contra haccepted
  rw [if_pos haccepted] at h
  cases Except.ok.inj h

theorem readInto_ok {count offset : U64} {bytes : List CChar}
    (h : readInto file count offset = .ok bytes) :
    ¬Overruns file count offset ∧ readAt file count offset = bytes := by
  unfold readInto at h
  split_ifs at h with hover
  exact ⟨hover, Except.ok.inj h⟩

/-! ## The end of a program -/

/-- The end of the program after a page. -/
def pageEnd (base firstFreeVirt : U64) (i : ℕ) : U64 :=
  let pageVirt := base + ofNat 64 i * pageSize
  if firstFreeVirt ≤ pageVirt then pageVirt + pageSize else firstFreeVirt

/-- The end of the program after a program header: only a segment moves it, over all of its
    pages. -/
def headerEnd (file : VNode) (loadBase : U64) (header : Header) (firstFreeVirt : U64) (i : ℕ) :
    U64 :=
  let ph := readProgramHeader file header i
  if ph.type = PT_LOAD then
    let memPageCount := (ph.memSize + (ph.virtAddr &&& 0xfff#64) + pageSize - 1#64) / pageSize
    (List.range memPageCount.toNat).foldl (pageEnd (loadBase + ph.virtAddr)) firstFreeVirt
  else firstFreeVirt

/-- Where a program ends that is loaded into an empty address space. -/
def imageEnd (file : VNode) (loadBase : U64) : U64 :=
  let header := readHeader file
  let loadBase := if header.type = ET_EXEC then 0#64 else loadBase
  alignUp ((List.range header.phCount).foldl (headerEnd file loadBase header) 0#64) pageSize

/-- How much is read from the file for a page. -/
def ProgramHeader.readSize (ph : ProgramHeader) (filePageCount i : ℕ) (total : U64) : U64 :=
  if i + 1 = filePageCount then ph.fileSize - total
  else if i = 0 then pageSize - (ph.virtAddr &&& 0xfff#64) else pageSize

/-- Where the part of the file for a page begins. -/
def ProgramHeader.readOffset (ph : ProgramHeader) (i : ℕ) : U64 :=
  if i = 0 then ph.offset + ofNat 64 i * pageSize
  else ph.offset + ofNat 64 i * pageSize - (ph.virtAddr &&& 0xfff#64)

/-- Where the part of the file for a page is read to. -/
def ProgramHeader.readDst (ph : ProgramHeader) (base : U64) (i : ℕ) : U64 :=
  if i = 0 then alignDown base pageSize + ofNat 64 i * pageSize +
    (ph.virtAddr &&& 0xfff#64) else alignDown base pageSize + ofNat 64 i * pageSize

/-- A page of a segment that completes: it is cleared, and a part of the file is read into it. -/
theorem loadPage_ok_iff {ph : ProgramHeader} {base : U64} {filePageCount i : ℕ}
    {s s' : Loading × U64} : loadPage file ph base filePageCount s i = .ok s' ↔
    ∃ k1, s.1.space.write (alignDown base pageSize + ofNat 64 i * pageSize)
        (List.replicate 4096 0#8) = .ok k1 ∧
      ∃ bytes, (if i < filePageCount then
          readInto file (ph.readSize filePageCount i s.2) (ph.readOffset i) else .ok []) =
          .ok bytes ∧
      ∃ k2, k1.write (ph.readDst base i) bytes = .ok k2 ∧
        ({ s.1 with space := k2, firstFreeVirt := pageEnd base s.1.firstFreeVirt i },
          if i < filePageCount then s.2 + ph.readSize filePageCount i s.2 else s.2) = s' := by
  unfold loadPage
  simp only [bind_ok_iff]
  refine exists_congr fun k1 => and_congr_right fun _ => exists_congr fun bytes =>
    and_congr_right fun _ => exists_congr fun k2 => and_congr_right fun _ => ?_
  exact ⟨Except.ok.inj, congrArg Except.ok⟩

theorem loadPage_firstFreeVirt {ph : ProgramHeader} {base : U64} {filePageCount i : ℕ}
    {s s' : Loading × U64} (h : loadPage file ph base filePageCount s i = .ok s') :
    s'.1.firstFreeVirt = pageEnd base s.1.firstFreeVirt i := by
  obtain ⟨k1, -, bytes, -, k2, -, rfl⟩ := loadPage_ok_iff.mp h
  rfl

theorem loadSegment_firstFreeVirt {ph : ProgramHeader}
    (h : loadSegment file loadBase ph l = .ok l') :
    l'.firstFreeVirt =
      (List.range ((ph.memSize + (ph.virtAddr &&& 0xfff#64) + pageSize - 1#64) / pageSize).toNat).foldl
        (pageEnd (loadBase + ph.virtAddr)) l.firstFreeVirt := by
  unfold loadSegment at h
  simp only at h
  obtain ⟨⟨l1, total⟩, hpages, h⟩ := bind_ok h
  simp only at h
  split_ifs at h with htotal
  cases h
  exact foldlM_ok_map (fun s => s.1.firstFreeVirt) _ (fun _ _ _ => loadPage_firstFreeVirt) hpages

theorem loadProgramHeader_firstFreeVirt {header : Header} {i : ℕ} {s s' : Loading × U64}
    (h : loadProgramHeader file loadBase heap wantsLdPath header s i = .ok s') :
    s'.1.firstFreeVirt = headerEnd file loadBase header s.1.firstFreeVirt i := by
  unfold loadProgramHeader at h
  unfold headerEnd
  simp only at h ⊢
  by_cases hload : (readProgramHeader file header i).type = PT_LOAD
  · rw [if_pos hload] at h ⊢
    obtain ⟨l1, hsegment, rfl⟩ := bind_pure_ok h
    exact loadSegment_firstFreeVirt hsegment
  · rw [if_neg hload] at h ⊢
    split_ifs at h
    · cases h
      rfl
    · obtain ⟨path, -, rfl⟩ := bind_pure_ok h
      rfl
    · cases h
      rfl

/-- Where a program ends is decided by its headers. -/
theorem load_firstFreeVirt (h : load file loadBase heap wantsLdPath {} = .ok (.ok l')) :
    l'.firstFreeVirt = imageEnd file loadBase := by
  have haccepted := load_accepted h
  unfold load at h
  simp only at h
  rw [if_neg (by simpa using haccepted)] at h
  obtain ⟨⟨l1, fileVirtBase⟩, hheaders, h⟩ := bind_ok h
  obtain rfl := Except.ok.inj (Except.ok.inj h)
  have hend := foldlM_ok_map (fun s => s.1.firstFreeVirt) _
    (fun _ _ _ => loadProgramHeader_firstFreeVirt) hheaders
  show alignUp l1.firstFreeVirt pageSize = imageEnd file loadBase
  rw [show l1.firstFreeVirt = _ from hend]
  rfl

end Fishix.Userland
