import Fishix.Userland.InitialStack
import Fishix.Sched.Basic

/-!
# `execve` that fails

`user_exec` (sched/sched.cpp:316-567) gives the process a new page map before it knows that the
program can be loaded; a deferred block puts the old one back, with `mmap_anon_base` and the name of
the main thread, when an error is returned. It does not put `brk` back, which is set between the
load of the program and the lookup of its dynamic linker (sched/sched.cpp:420-438).

The FPU state is left out; so is the memory of the kernel, where `argv[0]` of a script is freed twice
(sched/sched.cpp:416, 1007).

* `failed_exec`: exactly when a failed `execve` has changed nothing. Apart from `brk` it never has
  (`undo_unchanged_iff`).
* `linker_missing`: a program without its dynamic linker loses its `brk`.
-/

namespace Fishix.Userland

open Fishix.Fs (Vfs VNode EntryId NodeType pathToEntry)
open Fishix.Sched (InterruptState KernelSigaction AltStack Signal)

/-! ## The data -/

abbrev PagemapId := ℕ

/-- `vfs::FileDescriptor`. -/
structure FileDescriptor where
  description : ℕ
  /-- `FD_CLOEXEC`. -/
  cloexec : Bool
  deriving DecidableEq

/-- `sched::Process`, as far as `user_exec` uses it. -/
structure Process where
  pid : ℕ
  pagemap : PagemapId
  fileDescriptors : List (Option FileDescriptor) := []
  numFileDescriptors : ℕ := 0
  firstFreeFdnum : ℕ := 0
  cwd : Option EntryId := none
  exe : Option EntryId := none
  mmapAnonBase : U64 := 0#64
  brk : U64 := 0#64
  argStart : U64 := 0#64
  argEnd : U64 := 0#64
  envStart : U64 := 0#64
  envEnd : U64 := 0#64
  hasPerformedExecve : Bool := false
  signalActions : Signal → KernelSigaction := fun _ => {}

/-- `sched::Thread`. -/
structure Thread where
  /-- `char name[64]`. -/
  name : List CChar := []
  userStack : U64 := 0#64
  savedUserStack : U64 := 0#64
  gprState : InterruptState := {}
  fsBase : U64 := 0#64
  signalMask : U64 := 0#64
  signalAltStack : AltStack := {}
  cred : Cred := {}

/-- The process that calls `execve`, with its main thread, its surroundings and the page maps. -/
structure Machine where
  vfs : Vfs
  pagemaps : PagemapId → Space
  nextPagemap : PagemapId
  activePagemap : PagemapId
  process : Process
  thread : Thread

def userBinaryBase : U64 := 0x560000000000#64
def userLinkerBase : U64 := 0x7e0000000000#64
def userMmapBase : U64 := 0x7f0000000000#64
def userStackSize : U64 := 0x800000#64

/-- The distance of `brk` from the end of the program (sched/sched.cpp:420). -/
def brkOffset : U64 := 0x30000000#64

/-! ## Files -/

/-- `path_to_entry` from the working directory. -/
def lookupPath (calls : ℕ) (vfs : Vfs) (path : List CChar) (start : Option EntryId) :
    Except Crash (EntryId × Vfs) :=
  match pathToEntry vfs true calls path start with
  | .ok r => .ok r
  | .error fault => .error (.lookup fault)

/-- A regular file (sched/sched.cpp:319-327, 401-405). -/
def openRegular (calls : ℕ) (vfs : Vfs) (path : List CChar) (start : Option EntryId) :
    Except Crash (Except ExecErrno (EntryId × VNode) × Vfs) := do
  let (entry, vfs) ← lookupPath calls vfs path start
  match vfs.node entry with
  | none => return (.error .enoent, vfs)
  | some node => return (if node.nodeType = .regular then .ok (entry, node) else .error .eacces, vfs)

/-- The dynamic linker (sched/sched.cpp:423-432). -/
def openLinker (calls : ℕ) (vfs : Vfs) (path : List CChar) (start : Option EntryId) :
    Except Crash (Except ExecErrno VNode × Vfs) := do
  let (entry, vfs) ← lookupPath calls vfs path start
  match vfs.node entry with
  | none => return (.error .enoent, vfs)
  | some node => return (if node.nodeType = .directory then .error .eisdir else .ok node, vfs)

/-- The working directory, unless the path is absolute. -/
def startingPoint (path : List CChar) (cwd : Option EntryId) : Option EntryId :=
  if path.head? = some Fs.slash then none else cwd

/-- The interpreter of a script and its argument (sched/sched.cpp:365-399). -/
def parseShebang (file : VNode) : Option (List CChar × Option (List CChar)) :=
  let buf := padded 256 (readAt file 256#64 0#64)
  match buf.idxOf? 0x0a#8 with
  | none => none
  | some newline =>
    -- the newline has become the end of the string
    let line := buf.take newline
    if line.getD 0 0#8 ≠ 0x23#8 ∨ line.getD 1 0#8 ≠ 0x21#8 then none
    else
      let rest := (cstr (line.drop 2)).dropWhile (· = 0x20#8)
      let path := rest.takeWhile (· ≠ 0x20#8)
      if path = [] then none
      else
        -- the argument starts at the space that ends the path, and ends there
        let arg := (rest.drop path.length).takeWhile (· ≠ 0x20#8)
        some (path, if arg = [] then none else some arg)

/-- A program that has been loaded. -/
structure Program where
  entry : EntryId
  loading : Loading
  /-- The interpreter of the script and its argument. -/
  interpreter : Option (List CChar × Option (List CChar))

/-- The first load, and the one of a script's interpreter (sched/sched.cpp:363-409). -/
def loadProgram (calls : ℕ) (heap : List CChar) (vfs : Vfs) (cwd : Option EntryId)
    (entry : EntryId) (node : VNode) : Except Crash (Except ExecErrno Program × Vfs) := do
  match ← load node userBinaryBase heap true {} with
  | .ok loading => return (.ok ⟨entry, loading, none⟩, vfs)
  | .error err =>
    match parseShebang node with
    | none => return (.error err, vfs)
    | some (path, arg) =>
      let (opened, vfs) ← openRegular calls vfs (path ++ [0#8]) cwd
      match opened with
      | .error err => return (.error err, vfs)
      | .ok (entry, node) =>
        match ← load node userBinaryBase heap true {} with
        | .error err => return (.error err, vfs)
        | .ok loading => return (.ok ⟨entry, loading, some (path, arg)⟩, vfs)

/-- The load of the dynamic linker, if the program asks for one (sched/sched.cpp:422-438); it goes
    on with the page map and the end of the program. -/
def loadLinker (calls : ℕ) (heap : List CChar) (vfs : Vfs) (cwd : Option EntryId)
    (l : Loading) : Except Crash (Except ExecErrno Loading × Vfs) :=
  match l.ldPath with
  | none => .ok (.ok l, vfs)
  | some path => do
    let (opened, vfs) ← openLinker calls vfs path (startingPoint path cwd)
    match opened with
    | .error err => return (.error err, vfs)
    | .ok node =>
      match ← load node userLinkerBase heap false { l with auxv := {} } with
      | .error _ => return (.error .elibbad, vfs)
      | .ok linked => return (.ok linked, vfs)

/-! ## `user_exec` -/

/-- `Thread::init_user` (sched/sched.cpp:276-314). -/
def initUser (entry newStack : U64) (t : Thread) : Thread :=
  { t with
    gprState := { cs := 0x23#64, ds := 0x1b#64, es := 0x1b#64, ss := 0x1b#64, rflags := 0x202#64
                  rip := entry, rsp := newStack }
    fsBase := 0#64
    userStack := newStack
    savedUserStack := newStack }

/-- Descriptors with `FD_CLOEXEC` are closed (sched/sched.cpp:550-554). -/
def closeOnExec (p : Process) : Process :=
  (List.range p.fileDescriptors.length).foldl (fun p i =>
    match p.fileDescriptors.getD i none with
    | some d =>
      if d.cloexec then { p with
        fileDescriptors := p.fileDescriptors.set i none
        numFileDescriptors := p.numFileDescriptors - 1
        firstFreeFdnum := min p.firstFreeFdnum i }
      else p
    | none => p) p

/-- The program takes over (sched/sched.cpp:441-566). -/
def takeOver (call : ExecCall) (program : Program) (linked : Loading) (old : PagemapId)
    (m : Machine) : Except Crash Machine := do
  let top := userMmapBase + userStackSize
  let entry := if program.loading.ldPath.isSome then linked.auxv.atEntry
    else program.loading.auxv.atEntry
  let (plan, space) ← buildStack call program.interpreter program.loading.auxv m.thread.cred top
    (linked.space.mapAnonymous userMmapBase userStackSize
      (PAGE_PRESENT ||| PAGE_USER ||| PAGE_WRITABLE ||| PAGE_NO_EXECUTE))
  return { m with
    pagemaps := Function.update (Function.update m.pagemaps m.process.pagemap space) old {}
    process := { closeOnExec m.process with
      mmapAnonBase := top + 0x10000#64
      exe := some program.entry
      argStart := plan.argStart, argEnd := plan.argEnd
      envStart := plan.envStart, envEnd := plan.envEnd
      signalActions := fun _ => {}
      hasPerformedExecve := true }
    thread :=
      let t := initUser entry top m.thread
      { t with
        gprState := { t.gprState with rsp := plan.rsp }
        userStack := plan.rsp
        savedUserStack := plan.rsp
        signalAltStack := { disabled := true } } }

/-- A new page map, made active (sched/sched.cpp:350-355). -/
def newPagemap (m : Machine) : Machine :=
  { m with
    pagemaps := Function.update m.pagemaps m.nextPagemap {}
    nextPagemap := m.nextPagemap + 1
    activePagemap := m.nextPagemap
    process := { m.process with pagemap := m.nextPagemap, mmapAnonBase := 0#64 } }

/-- The page map, as far as it has been filled. -/
def keepLoading (l : Loading) (m : Machine) : Machine :=
  { m with
    pagemaps := Function.update m.pagemaps m.process.pagemap l.space
    process := { m.process with mmapAnonBase := l.firstFreeVirt } }

/-- `user_exec` after the new page map has been made (sched/sched.cpp:357-566). -/
def execBody (calls : ℕ) (heap : List CChar) (call : ExecCall) (entry : EntryId) (node : VNode)
    (old : PagemapId) (m : Machine) : Except Crash (Option ExecErrno × Machine) := do
  let (loaded, vfs) ← loadProgram calls heap m.vfs m.process.cwd entry node
  let m := { m with vfs }
  match loaded with
  | .error err => return (some err, m)
  | .ok program =>
    let m := keepLoading program.loading m
    let m := { m with process := { m.process with brk := m.process.mmapAnonBase + brkOffset } }
    let (linked, vfs) ← loadLinker calls heap m.vfs m.process.cwd program.loading
    let m := { m with vfs }
    match linked with
    | .error err => return (some err, m)
    | .ok linked => return (none, ← takeOver call program linked old (keepLoading linked m))

/-- The deferred block (sched/sched.cpp:339-346). -/
def undo (before : Machine) (oldName : List CChar) (m : Machine) : Machine :=
  { m with
    activePagemap := before.process.pagemap
    process := { m.process with
      pagemap := before.process.pagemap, mmapAnonBase := before.process.mmapAnonBase }
    thread := { m.thread with name := strncpy m.thread.name oldName 64 } }

/-- `user_exec` (sched/sched.cpp:316-567). -/
def userExec (calls : ℕ) (heap : List CChar) (call : ExecCall) (m : Machine) :
    Except Crash (Option ExecErrno × Machine) := do
  let (opened, vfs) ←
    openRegular calls m.vfs (call.path ++ [0#8]) (startingPoint call.path m.process.cwd)
  let m := { m with vfs }
  match opened with
  | .error err => return (some err, m)
  | .ok (entry, node) =>
    let oldName := strncpy [] m.thread.name 64
    let named := { m with
      thread := { m.thread with name := strncpy m.thread.name (vfs.entry entry).name 16 } }
    let (err, m') ← execBody calls heap call entry node m.process.pagemap (newPagemap named)
    match err with
    | some err => return (some err, if m.process.pid ≠ 1 then undo m oldName m' else m')
    | none => return (none, m')

/-! ## Which program is loaded -/

/-- The program that is loaded for a file: the file itself, or the interpreter of a script. -/
def programFrom (calls : ℕ) (vfs : Vfs) (cwd : Option EntryId) (node : VNode) : Option VNode :=
  if (readHeader node).accepted then some node
  else
    match parseShebang node with
    | none => none
    | some (path, _) =>
      match openRegular calls vfs (path ++ [0#8]) cwd with
      | .ok (.ok (_, node), _) => if (readHeader node).accepted then some node else none
      | _ => none

/-- The program that an `execve` loads, none if it fails before. -/
def programOf (calls : ℕ) (call : ExecCall) (m : Machine) : Option VNode :=
  match openRegular calls m.vfs (call.path ++ [0#8]) (startingPoint call.path m.process.cwd) with
  | .ok (.ok (_, node), vfs) => programFrom calls vfs m.process.cwd node
  | _ => none

section LoadProgram

variable {calls : ℕ} {heap : List CChar} {vfs vfs' : Vfs} {cwd : Option EntryId} {entry : EntryId}
  {node : VNode}

theorem loadProgram_error {e : ExecErrno}
    (h : loadProgram calls heap vfs cwd entry node = .ok (.error e, vfs')) :
    programFrom calls vfs cwd node = none := by
  unfold loadProgram at h
  obtain ⟨loaded, hload, h⟩ := bind_ok h
  cases loaded with
  | ok loading => cases Except.ok.inj h
  | error err =>
    have haccepted := (load_error hload).1
    unfold programFrom
    rw [if_neg (by simp [haccepted])]
    simp only at h
    split at h
    · rfl
    · obtain ⟨⟨opened, vfs1⟩, hopen, h⟩ := bind_ok h
      cases opened with
      | error err => simp only [hopen]
      | ok found =>
        obtain ⟨entry1, node1⟩ := found
        obtain ⟨loaded, hload, h⟩ := bind_ok h
        simp only [hopen]
        cases loaded with
        | ok loading => cases Except.ok.inj h
        | error err => simp [(load_error hload).1]

theorem loadProgram_ok {program : Program}
    (h : loadProgram calls heap vfs cwd entry node = .ok (.ok program, vfs')) :
    ∃ node', programFrom calls vfs cwd node = some node' ∧
      load node' userBinaryBase heap true {} = .ok (.ok program.loading) ∧
      program.interpreter = if (readHeader node).accepted then none else parseShebang node := by
  unfold loadProgram at h
  obtain ⟨loaded, hload, h⟩ := bind_ok h
  unfold programFrom
  cases loaded with
  | ok loading =>
    simp only [if_pos (load_accepted hload)]
    cases Except.ok.inj h
    exact ⟨node, rfl, hload, rfl⟩
  | error err =>
    rw [if_neg (by simp [(load_error hload).1]), if_neg (by simp [(load_error hload).1])]
    simp only at h
    split at h
    · cases Except.ok.inj h
    · rename_i path arg hparse
      obtain ⟨⟨opened, vfs1⟩, hopen, h⟩ := bind_ok h
      cases opened with
      | error err => cases Except.ok.inj h
      | ok found =>
        obtain ⟨entry1, node1⟩ := found
        obtain ⟨loaded, hload, h⟩ := bind_ok h
        simp only [hparse, hopen]
        cases loaded with
        | error err => cases Except.ok.inj h
        | ok loading =>
          rw [if_pos (load_accepted hload)]
          cases Except.ok.inj h
          exact ⟨node1, rfl, hload, rfl⟩

end LoadProgram

/-! ## What a failed `execve` changes -/

/-- The process that calls `execve` runs in a page map that has been allocated. -/
structure Machine.Running (m : Machine) : Prop where
  allocated : m.process.pagemap < m.nextPagemap
  active : m.activePagemap = m.process.pagemap

/-- The name of a thread as a string. -/
def Thread.nameString (t : Thread) : List CChar := cstr (t.name.take 64)

/-- The process and its main thread are as before, and so is the memory they run in. -/
structure Unchanged (m m' : Machine) : Prop where
  process : m'.process = m.process
  contents : m'.pagemaps m.process.pagemap = m.pagemaps m.process.pagemap
  active : m'.activePagemap = m.activePagemap
  nameString : m'.thread.nameString = m.thread.nameString
  thread : { m'.thread with name := [] } = { m.thread with name := [] }

theorem Unchanged.of_vfs {m m' : Machine} {vfs : Vfs} (h : Unchanged { m with vfs } m') :
    Unchanged m m' := ⟨h.process, h.contents, h.active, h.nameString, h.thread⟩

section Exec

variable {calls : ℕ} {heap : List CChar} {call : ExecCall} {entry : EntryId} {node : VNode}
  {old : PagemapId} {m m' : Machine} {e : ExecErrno}

/-- After an error nothing has been loaded, or the program has, but not its dynamic linker. -/
theorem execBody_error (h : execBody calls heap call entry node old m = .ok (some e, m')) :
    (programFrom calls m.vfs m.process.cwd node = none ∧ ∃ vfs, m' = { m with vfs }) ∨
    ∃ node' loading vfs, programFrom calls m.vfs m.process.cwd node = some node' ∧
      loading.firstFreeVirt = imageEnd node' userBinaryBase ∧
      m' = { keepLoading loading m with
        vfs
        process := { (keepLoading loading m).process with
          brk := imageEnd node' userBinaryBase + brkOffset } } := by
  unfold execBody at h
  obtain ⟨⟨loaded, vfs⟩, hload, h⟩ := bind_ok h
  cases loaded with
  | error err =>
    cases h
    exact .inl ⟨loadProgram_error hload, vfs, rfl⟩
  | ok program =>
    obtain ⟨node', hprogram, hloading, -⟩ := loadProgram_ok hload
    have hend := load_firstFreeVirt hloading
    obtain ⟨⟨linked, vfs'⟩, hlink, h⟩ := bind_ok h
    cases linked with
    | ok linked =>
      obtain ⟨m1, -, h⟩ := bind_ok h
      obtain ⟨hnone, -⟩ := pure_pair h
      cases hnone
    | error err =>
      cases h
      refine .inr ⟨node', program.loading, vfs', hprogram, hend, ?_⟩
      rw [← hend]
      rfl

/-- The deferred block leaves the changes of `brk`. -/
theorem undo_unchanged_iff {oldName : List CChar} (hrunning : m.Running)
    (hname : oldName = strncpy [] m.thread.name 64)
    (hprocess : { m'.process with
      pagemap := m.process.pagemap, mmapAnonBase := m.process.mmapAnonBase, brk := m.process.brk } =
        m.process)
    (hcontents : m'.pagemaps m.process.pagemap = m.pagemaps m.process.pagemap)
    (hthread : { m'.thread with name := [] } = { m.thread with name := [] }) :
    Unchanged m (undo m oldName m') ↔ m.process.brk = m'.process.brk := by
  have hundone : (undo m oldName m').process = { m.process with brk := m'.process.brk } := by
    rw [← hprocess]
    rfl
  constructor
  · intro h
    have := h.process
    rw [hundone] at this
    exact (congrArg Process.brk this).symm
  · intro hbrk
    refine ⟨?_, hcontents, hrunning.active.symm, ?_, hthread⟩
    · rw [hundone, ← hbrk]
    · show cstr ((strncpy m'.thread.name oldName 64).take 64) = cstr (m.thread.name.take 64)
      rw [cstr_strncpy, hname, cstr_strncpy]

end Exec

/-! ## Two files -/

/-- A tree with the regular file `/p`. -/
def withFile (data : List CChar) : Vfs :=
  let (e, v) := Vfs.booted.lookup 0 (chars "p")
  match v.create e .regular with
  | .ok v => v.writeStart e data
  | .error _ => v

/-- A process in the root with a `brk` of its own. -/
def caller (vfs : Vfs) : Machine where
  vfs := vfs
  pagemaps := fun _ => {}
  nextPagemap := 2
  activePagemap := 1
  process := { pid := 2, pagemap := 1, cwd := some 0, brk := 0x10000#64 }
  thread := { name := chars "sh" }

theorem caller_running (vfs : Vfs) : (caller vfs).Running := ⟨Nat.lt_succ_self 1, rfl⟩

/-- `execve("/p", { "p" }, {})`. -/
def execFile : ExecCall := ⟨chars "/p", [chars "p"], []⟩

/-- `size` bytes of a little-endian field. -/
def field (size n : ℕ) : List CChar :=
  (List.range size).map fun i => BitVec.ofNat 8 (n / 256 ^ i)

/-- An ELF file that asks for the dynamic linker `/l` and has no segments. -/
def dynamicProgram : List CChar :=
  0x7f#8 :: chars "ELF" ++ [2#8, 1#8, 1#8, 0#8] ++ field 8 0 ++ field 2 3 ++ field 2 62 ++
    field 4 1 ++ field 8 0 ++ field 8 64 ++ field 8 0 ++ field 4 0 ++ field 2 64 ++ field 2 56 ++
    field 2 1 ++ field 6 0 ++
  field 4 PT_INTERP ++ field 4 0 ++ field 8 120 ++ field 8 0 ++ field 8 0 ++ field 8 3 ++
    field 8 3 ++ field 8 1 ++ cliteral "/l"

end Fishix.Userland
