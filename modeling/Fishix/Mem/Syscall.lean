import Fishix.Mem.Vmm

/-!
# The memory syscalls

Model of `mem/vmm.cpp` lines 543-718: `mmap`, `munmap`, `mprotect`, `madvise` and `brk`, with
the `mmap` of the file types they dispatch to (fs/tmpfs.cpp:145-153, userland/memfd.cpp:63-73,
gfx/framebuffer.cpp:69-74), and of the part of `execve` that lays out a new address space
(sched/sched.cpp:348-446, userland/elf.cpp:29-89).

A syscall returns a word or an error number. `get_file_description(fd)` is an argument:
`none` is a closed descriptor. Messages printed for unsupported requests are not modelled.
-/

namespace Fishix.Mem

/-! ## Arguments and results -/

/-- The error numbers the memory syscalls return. -/
inductive Errno where
  | EINVAL
  | EBADF
  | EACCES
  | ENODEV
  | ENOMEM
deriving DecidableEq

/-- What a syscall returns: a word, or a negated error number. -/
abbrev SysResult := Except Errno U64

/-- `int` flag words. -/
abbrev Flags := BitVec 32

abbrev protRead : Flags := 0x1#32
abbrev protWrite : Flags := 0x2#32
abbrev protExec : Flags := 0x4#32
abbrev mapShared : Flags := 0x1#32
abbrev mapPrivate : Flags := 0x2#32
abbrev mapFixed : Flags := 0x10#32
abbrev mapAnonymousFlag : Flags := 0x20#32

/-- `flags & bit`, as a condition. -/
def Flags.has (flags bit : Flags) : Bool := flags &&& bit ≠ 0#32

/-- The fields of `sched::Process` that the memory syscalls use (sched/sched.hpp:134-135). -/
structure Process where
  /-- `mmap_anon_base`: "used for mmap bump allocator". -/
  mmapAnonBase : U64
  brk : U64

/-- A `vfs::VNode`, told apart by its `mmap`. -/
inductive Node where
  /-- `tmpfs::Node`. -/
  | tmpfs
  /-- `userland::MemFD`, with its `address`. -/
  | memfd (address : U64)
  /-- `gfx::FramebufferDevNode`, with `fb->addr - hhdm`. -/
  | framebuffer (phy : U64)
  /-- Other device nodes, pipes and sockets: `mmap` returns `-EACCES`. -/
  | refusing
  /-- Any other node: `VNode::mmap` returns `-ENODEV`. -/
  | other

/-- `vfs::FileDescription`. -/
structure FileDescription where
  id : FileId
  canRead : Bool
  canWrite : Bool
  node : Node

/-- The advice of `madvise`, as `syscall_madvise` groups it (mem/vmm.cpp:674-699). -/
inductive Advice where
  /-- `MADV_NORMAL` and the others that are "safe to ignore", and `MADV_DONTFORK`. -/
  | ignored
  /-- `MADV_FREE`, `MADV_DONTNEED`. -/
  | dontNeed
  /-- The `default` case. -/
  | unsupported
deriving DecidableEq

/-- `mmap_prot_to_page_flags` (mem/vmm.cpp:549-556). -/
def mmapProtToPageFlags (prot : Flags) : U64 :=
  let pageFlags := pagePresent ||| pageUser
  let pageFlags := if prot.has protWrite then pageFlags ||| pageWritable else pageFlags
  if !prot.has protExec then pageFlags ||| pageNoExecute else pageFlags

namespace Machine

/-! ## `mmap` and `munmap` -/

/-- `VNode::mmap`. -/
def nodeMmap (m : Machine) (p : PagemapId) (fd : FileDescription) (addr length offset : U64)
    (prot flags : Flags) : Except Panic (SysResult × Machine) :=
  let pageFlags := mmapProtToPageFlags prot
  match fd.node with
  | .tmpfs => do
    let m ← m.mapFile p addr length pageFlags fd.id offset
    .ok (.ok addr, m)
  | .memfd address =>
    if flags.has mapShared then do
      let m ← m.mapVirtual p addr length pageFlags address
      .ok (.ok addr, m)
    else if flags.has mapPrivate then do
      let m ← m.mapFile p addr length pageFlags fd.id offset
      .ok (.ok addr, m)
    else .ok (.error .EINVAL, m)
  | .framebuffer phy => do
    let m ← m.mapDirect p addr length (pageFlags ||| pageWriteCombining) phy
    .ok (.ok addr, m)
  | .refusing => .ok (.error .EACCES, m)
  | .other => .ok (.error .ENODEV, m)

/-- Where `mmap` places a mapping and the new `mmap_anon_base` (mem/vmm.cpp:565-573). -/
def mmapPlace (proc : Process) (addr alignedSize : U64) (flags : Flags) : U64 × Process :=
  if flags.has mapFixed then
    (addr, { proc with
      mmapAnonBase := alignUp (klibMax proc.mmapAnonBase (addr + alignedSize)) pageSize })
  else (proc.mmapAnonBase, { proc with mmapAnonBase := proc.mmapAnonBase + alignedSize })

/-- `syscall_mmap` (mem/vmm.cpp:558-591). -/
def syscallMmap (m : Machine) (p : PagemapId) (proc : Process) (addr length : U64)
    (prot flags : Flags) (fd : Option FileDescription) (offset : U64) :
    Except Panic (SysResult × Process × Machine) :=
  if length = 0#64 then .ok (.error .EINVAL, proc, m)
  else
    let alignedSize := alignUp length pageSize
    let (base, proc) := mmapPlace proc addr alignedSize flags
    if flags.has mapAnonymousFlag then do
      let m ← m.mapAnonymous p base alignedSize (mmapProtToPageFlags prot) (!flags.has mapFixed)
      .ok (.ok base, proc, m)
    else
      match fd with
      | none => .ok (.error .EBADF, proc, m)
      | some description =>
        if !description.canRead then .ok (.error .EACCES, proc, m)
        else if flags.has mapShared && prot.has protWrite && !description.canWrite then
          .ok (.error .EACCES, proc, m)
        else do
          let (res, m) ← m.nodeMmap p description base alignedSize offset prot flags
          .ok (res, proc, m)

/-- `syscall_munmap` (mem/vmm.cpp:593-608). -/
def syscallMunmap (m : Machine) (p : PagemapId) (proc : Process) (addr length : U64) :
    Except Panic (SysResult × Process × Machine) :=
  if addr % pageSize ≠ 0#64 then .ok (.error .EINVAL, proc, m)
  else do
    let length := alignUp length pageSize
    let m ← m.unmapRange p addr length
    let proc := if proc.mmapAnonBase = addr + length then { proc with mmapAnonBase := addr } else proc
    .ok (.ok 0#64, proc, m)

/-! ## `mprotect`, `madvise` and `brk` -/

/-- The arguments of the call of `add_range` in the loop of `mprotect` (mem/vmm.cpp:628-635). -/
def protectArgs (existing : MappedRange) (current end_ pageFlags : U64) : RangeArgs :=
  let rangeLen := existing.end_ - current
  let rangeLen := if current + rangeLen > end_ then end_ - current else rangeLen
  { base := current, length := rangeLen, pageFlags, type := existing.type
    phyBase := offsetPhy existing.phyBase (current - existing.base), file := existing.file
    fileOffset := existing.fileOffset + (current - existing.base)
    merge := true, resolveOverlap := true, keepPages := true }

/-- The loop of `mprotect` (mem/vmm.cpp:623-638), at most `fuel` iterations. -/
def protectLoop (p : PagemapId) (end_ pageFlags : U64) :
    ℕ → U64 → Machine → Except Panic (SysResult × Machine)
  | 0, _, _ => .error .diverges
  | fuel + 1, current, m =>
    if current < end_ then
      match m.addrToRange p current with
      | (none, m) => .ok (.error .ENOMEM, m)
      | (some r, m) => do
        let a := protectArgs (m.range r) current end_ pageFlags
        let (_, m) ← m.addRange p a
        protectLoop p end_ pageFlags fuel (current + a.length) m
    else .ok (.ok 0#64, m)

/-- `syscall_mprotect` (mem/vmm.cpp:610-640). -/
def syscallMprotect (m : Machine) (p : PagemapId) (addr length : U64) (prot : Flags) :
    Except Panic (SysResult × Machine) :=
  if addr % pageSize ≠ 0#64 then .ok (.error .EINVAL, m)
  else
    let length := alignUp length pageSize
    protectLoop p (addr + length) (mmapProtToPageFlags prot) (length.toNat + 1) addr m

/-- `syscall_madvise` (mem/vmm.cpp:663-700). -/
def syscallMadvise (m : Machine) (p : PagemapId) (addr length : U64) (advice : Advice) :
    Except Panic (SysResult × Machine) :=
  if addr % pageSize ≠ 0#64 then .ok (.error .EINVAL, m)
  else
    let length := alignUp length pageSize
    match advice with
    | .ignored => .ok (.ok 0#64, m)
    | .dontNeed => do
      let numPages := (length / pageSize).toNat
      let m ← (List.range numPages).foldlM
        (fun m i => m.invalidatePage p (addr + BitVec.ofNat 64 i * pageSize) none) m
      .ok (.ok 0#64, m)
    | .unsupported => .ok (.error .EINVAL, m)

/-- `syscall_brk` (mem/vmm.cpp:702-718). -/
def syscallBrk (m : Machine) (p : PagemapId) (proc : Process) (addr : U64) :
    Except Panic (SysResult × Process × Machine) :=
  if addr = 0#64 then .ok (.ok proc.brk, proc, m)
  else do
    let oldPageBrk := alignUp proc.brk pageSize
    let newPageBrk := alignUp addr pageSize
    let m ← (if newPageBrk > oldPageBrk then
        m.mapAnonymous p oldPageBrk (newPageBrk - oldPageBrk)
          (mmapProtToPageFlags (protRead ||| protWrite)) true
      else if newPageBrk < oldPageBrk then m.unmapRange p newPageBrk (oldPageBrk - newPageBrk)
      else .ok m)
    .ok (.ok addr, { proc with brk := addr }, m)

/-! ## The address space `execve` builds -/

/-- A `PT_LOAD` program header. -/
structure Segment where
  virtAddr : U64
  memSize : U64

/-- `user_mmap_base` and `user_stack_size` (sched/sched.cpp:27, 30). -/
abbrev userMmapBase : U64 := 0x7f0000000000#64
abbrev userStackSize : U64 := 0x800000#64

/-- One `PT_LOAD` header of `elf::load` (userland/elf.cpp:34-79): the mapping and the new
    `*first_free_virt`. The copying of the contents changes no range. -/
def loadSegment (p : PagemapId) (loadBase : U64) (fm : U64 × Machine) (ph : Segment) :
    Except Panic (U64 × Machine) := do
  let misalign := ph.virtAddr &&& 0xFFF#64
  let memPageCount := (ph.memSize + misalign + pageSize - 1#64) / pageSize
  let base := loadBase + ph.virtAddr
  let m ← fm.2.mapAnonymous p (alignDown base pageSize) (memPageCount * pageSize)
    (pagePresent ||| pageUser ||| pageWritable) true
  let firstFree := (List.range memPageCount.toNat).foldl
    (fun f i =>
      let pageVirt := base + BitVec.ofNat 64 i * pageSize
      if pageVirt ≥ f then pageVirt + pageSize else f) fm.1
  .ok (firstFree, m)

/-- `elf::load`: the loop over the program headers (userland/elf.cpp:29-97). -/
def elfLoad (p : PagemapId) (loadBase : U64) (segments : List Segment) (firstFree : U64)
    (m : Machine) : Except Panic (U64 × Machine) := do
  let (firstFree, m) ← segments.foldlM (loadSegment p loadBase) (firstFree, m)
  .ok (alignUp firstFree pageSize, m)

/-- The address space and the process fields that `execve` sets up (sched/sched.cpp:348-446):
    the binary, loaded at `binaryBase` (`0` for `ET_EXEC`), its linker if it has one, the
    stack and the guard. -/
def execve (m : Machine) (p : PagemapId) (binaryBase : U64) (binary : List Segment)
    (linker : Option (U64 × List Segment)) : Except Panic (Process × Machine) := do
  let m ← m.newPagemap p
  let (firstFree, m) ← elfLoad p binaryBase binary 0#64 m
  let brk := firstFree + 0x30000000#64
  let m ← (match linker with
    | none => .ok m
    | some (linkerBase, segments) => do
      let (_, m) ← elfLoad p linkerBase segments firstFree m
      .ok m)
  let m ← m.mapAnonymous p userMmapBase userStackSize
    (pagePresent ||| pageUser ||| pageWritable ||| pageNoExecute) true
  .ok ({ mmapAnonBase := userMmapBase + userStackSize + 0x10000#64, brk }, m)

end Machine

end Fishix.Mem
