import Fishix.Process.Tree

/-!
# Waiting, and the process tree as a system

`waitid_impl` and `wait4` (sched/sched.cpp:1037-1178), and `System`: the process tree whose threads
fork, exit, are killed, stopped and continued, regroup and wait, in any order. A system also keeps,
for no code to read, which processes have been created and deleted, how each process died and what
the wait calls have reported.
-/

namespace Fishix.ProcessTree

open Fishix.Sched (Panic orPanic assert Signal SIGCHLD SIGCONT)

/-! ## `waitid` and `wait4` -/

def WNOHANG : BitVec 32 := 0x1#32
/-- `WUNTRACED` is the same number. -/
def WSTOPPED : BitVec 32 := 0x2#32
def WEXITED : BitVec 32 := 0x4#32
def WCONTINUED : BitVec 32 := 0x8#32
def WNOWAIT : BitVec 32 := 0x1000000#32
/-- `__WNOTHREAD | __WALL | __WCLONE`. -/
def waitCloneOptions : BitVec 32 := 0xE0000000#32

/-- One of the options `flag` is given. -/
def hasOption (options flag : BitVec 32) : Bool := options &&& flag ≠ 0#32

/-- What a wait call comes to. -/
inductive WaitResult
  | error (e : Errno)
  /-- The call returns `ret`, with what it has stored at `infop` or `status`. -/
  | returned (ret : ℤ) (info : Option Siginfo) (status : Option ℤ)
  /-- The thread sleeps. -/
  | asleep
  deriving DecidableEq

/-- The status word of `wait4` (sched/sched.cpp:1164-1171), where `<<` keeps 32 bits of an `int`. -/
def waitStatusWord (info : Siginfo) : ℤ :=
  if info.pid = 0 then 0
  else if info.code = CLD_EXITED then (info.status * 256).bmod (2 ^ 32)
  else if info.code = CLD_KILLED then info.status
  else if info.code = CLD_STOPPED then (info.status * 256).bmod (2 ^ 32) + 0x7f
  else if info.code = CLD_CONTINUED then 0xffff
  else 0

/-- The return from `waitid_impl` to its caller (sched/sched.cpp:1158-1177). -/
def Caller.deliver (caller : Caller) : WaitResult → WaitResult
  | .returned ret written status =>
    match caller with
    | .waitid => .returned ret written status
    | .wait4 info wantsStatus =>
      let info := written.getD info
      .returned info.pid none (if wantsStatus then some (waitStatusWord info) else none)
  | r => r

namespace Tree

/-- `add_child` (sched/sched.cpp:1054-1067): a child stands once for each event that is asked for. -/
def addChild (options : BitVec 32) (child : Pid) : List Pid :=
  (if hasOption options WEXITED then [child] else []) ++
    (if hasOption options WSTOPPED then [child] else []) ++
      if hasOption options WCONTINUED then [child] else []

/-- `LIST_FOR_EACH` over `children_list`. -/
def childrenList (k : Tree) (p : Pid) : Except Panic (List Pid) :=
  orPanic .badPointer ((k.childLinks (.head p)).next.bind
    (walkRing k.childLinks p (k.nextTid + 1)))

/-- `siginfo` of a child (sched/sched.cpp:1103-1111). -/
def siginfo (k : Tree) (child : Pid) : Except Panic Siginfo := do
  let t ← k.getMainThread child
  return { pid := child, uid := (k.thread t).uid, signo := SIGCHLD
           status := (k.process child).waitStatus, code := (k.process child).waitCode }

/-- What is stored at `infop`. -/
def writtenInfo (k : Tree) (infop : Bool) (child : Pid) : Except Panic (Option Siginfo) :=
  if infop then do
    let info ← k.siginfo child
    return some info
  else .ok none

/-- The event of a child has been reported (sched/sched.cpp:1114-1119). -/
def consume (k : Tree) (options : BitVec 32) (child : Pid) : Except Panic Tree :=
  if hasOption options WNOWAIT then .ok k
  else if (k.process child).isZombie then k.destroyProcess child
  else .ok (k.updateProcess child fun x => { x with waitCode := 0 })

/-- A child is reported (sched/sched.cpp:1100-1122). -/
def report (k : Tree) (call : WaitCall) (child : Pid) : Except Panic (WaitResult × Tree) := do
  let info ← k.writtenInfo call.infop child
  let k ← k.consume call.options child
  return (.returned child info none, k)

/-- One turn of the loop of `waitid_impl` (sched/sched.cpp:1092-1133). -/
def look (k : Tree) (t : Tid) (w : Waiting) : Except Panic (WaitResult × Tree) :=
  match w.targetChildren.find? fun child => (k.process child).waitCode ≠ 0 with
  | some child => k.report w.call child
  | none =>
    if hasOption w.call.options WNOHANG then
      .ok (.returned 0 (if w.call.infop then some {} else none) none, k)
    else
      let k := k.updateThread t fun x => { x with state := .blocked }
      .ok (.asleep, { k with waiting := Function.update k.waiting t (some w) })

/-- `waitid_impl` (sched/sched.cpp:1037-1134), by the thread `t`. -/
def waitidImpl (k : Tree) (t : Tid) (caller : Caller) (call : WaitCall) :
    Except Panic (WaitResult × Tree) :=
  if ¬hasOption call.options (WEXITED ||| WSTOPPED ||| WCONTINUED) then .ok (.error .einval, k)
  else
    let currentProcess := (k.thread t).process
    match call.idtype with
    | .all => do
      let children ← k.childrenList currentProcess
      if children = [] then return (.error .echild, k)
      else k.look t ⟨caller, call, children.flatMap (addChild call.options)⟩
    | .pid =>
      if ¬k.table call.id then .ok (.error .echild, k)
      else
        let child := (k.thread call.id).process
        if (k.process child).parent ≠ some currentProcess then .ok (.error .echild, k)
        else k.look t ⟨caller, call, addChild call.options child⟩
    -- "unsupported idtype"; `*infop` stays as it is
    | .pgid | .other => .ok (.returned 0 none none, k)

/-- `syscall_waitid` (sched/sched.cpp:1180-1183). -/
def waitid (k : Tree) (t : Tid) (call : WaitCall) : Except Panic (WaitResult × Tree) :=
  k.waitidImpl t .waitid call

/-- Which children `wait4` asks for (sched/sched.cpp:1144-1157). -/
def wait4Id (k : Tree) (t : Tid) (pid : ℤ) : Except Panic (IdType × ℕ) :=
  if pid < -1 then .ok (.pgid, (-pid).toNat)
  else if pid = -1 then .ok (.all, 0)
  else if pid = 0 then do
    let g ← k.groupOf (k.thread t).process
    return (.pgid, (k.group g).leaderProcess)
  else .ok (.pid, pid.toNat)

/-- What `wait4` asks of `waitid_impl` (sched/sched.cpp:1138-1161). -/
def wait4Call (k : Tree) (t : Tid) (pid : ℤ) (options : BitVec 32) : Except Panic WaitCall := do
  let (idtype, id) ← k.wait4Id t pid
  return { idtype, id, options := options ||| WEXITED, infop := true }

/-- `syscall_wait4` (sched/sched.cpp:1136-1178). `info` is what stands in the local variable before,
    `status` that the pointer is not null. -/
def wait4 (k : Tree) (t : Tid) (pid : ℤ) (status : Bool) (options : BitVec 32) (info : Siginfo) :
    Except Panic (WaitResult × Tree) :=
  if hasOption options (~~~(WNOHANG ||| WSTOPPED ||| WCONTINUED ||| waitCloneOptions)) then
    .ok (.error .einval, k)
  else do
    let call ← k.wait4Call t pid options
    let (r, k) ← k.waitidImpl t (.wait4 info status) call
    return ((Caller.wait4 info status).deliver r, k)

/-- A thread that sleeps in a wait call is woken, by an event or by a signal
    (sched/sched.cpp:1131-1132). -/
def wakeUp (k : Tree) (t : Tid) (w : Waiting) (interrupted : Bool) :
    Except Panic (WaitResult × Tree) :=
  let k := { k.updateThread t fun x => { x with state := .ready } with
    waiting := Function.update k.waiting t none }
  if interrupted then .ok (.error .eintr, k)
  else do
    let (r, k) ← k.look t w
    return (w.caller.deliver r, k)

end Tree

/-! ## The system -/

/-- How a process died. -/
inductive Death
  /-- It exited with this status. -/
  | exited (status : ℤ)
  /-- This signal killed it. -/
  | killed (signal : Signal)
  deriving DecidableEq

/-- What a wait call has reported. -/
structure Report where
  pid : ℤ
  /-- The process was a zombie. -/
  zombie : Bool
  /-- `WNOWAIT` was given. -/
  nowait : Bool
  deriving DecidableEq

structure System where
  tree : Tree
  /-- The processes that have been created. -/
  created : Pid → Bool
  /-- The processes that have been deleted. -/
  deleted : Pid → Bool := fun _ => false
  /-- How the zombies died. -/
  death : Pid → Option Death := fun _ => none
  /-- The reports of the wait calls, the last one first. -/
  reports : List Report := []

/-- What happens next. The thread named first does it, or it happens to it. -/
inductive Op
  | fork (t : Tid)
  | spawn (t : Tid)
  /-- `execve` succeeds. -/
  | execve (t : Tid)
  | exit (t : Tid) (status : ℤ)
  | exitGroup (t : Tid) (status : ℤ)
  /-- A signal that ends the process is dispatched. -/
  | kill (t : Tid) (signal : Signal)
  /-- A signal that stops the thread is dispatched. -/
  | stop (t : Tid) (signal : Signal)
  /-- SIGCONT lets a stopped thread go on. -/
  | cont (t : Tid)
  | setpgid (t : Tid) (pid pgid : ℤ)
  | setsid (t : Tid)
  | waitid (t : Tid) (call : WaitCall)
  | wait4 (t : Tid) (pid : ℤ) (status : Bool) (options : BitVec 32) (info : Siginfo)
  /-- A thread that sleeps in a wait call is woken. -/
  | wakeUp (t : Tid) (interrupted : Bool)

def Op.thread : Op → Tid
  | .fork t | .spawn t | .execve t | .exit t _ | .exitGroup t _ | .kill t _ | .stop t _ | .cont t
  | .setpgid t _ _ | .setsid t | .waitid t _ | .wait4 t _ _ _ _ | .wakeUp t _ => t

/-- `WNOWAIT` is given. -/
def Op.nowait (k : Tree) : Op → Bool
  | .waitid _ call => hasOption call.options WNOWAIT
  | .wait4 _ _ _ options _ => hasOption options WNOWAIT
  | .wakeUp t _ =>
    match k.waiting t with
    | some w => hasOption w.call.options WNOWAIT
    | none => false
  | _ => false

/-- The state in which the thread of an operation is. -/
def Op.threadState : Op → ThreadState
  | .cont _ => .stopped
  | .wakeUp _ _ => .blocked
  | _ => .ready

/-- A user thread may do this now. -/
def Tree.mayDo (k : Tree) (op : Op) : Bool :=
  k.table op.thread && (k.thread op.thread).process ≠ kernelProcess &&
    (k.thread op.thread).state = op.threadState &&
    match op with
    | .wakeUp t _ => (k.waiting t).isSome
    | _ => true

/-- The result of a wait call, or of its next turn. -/
def Tree.waitStep (k : Tree) : Op → Option (Except Panic (WaitResult × Tree))
  | .waitid t call => some (k.waitid t call)
  | .wait4 t pid status options info => some (k.wait4 t pid status options info)
  | .wakeUp t interrupted => (k.waiting t).map fun w => k.wakeUp t w interrupted
  | _ => none

namespace System

/-- A thread of the process `p` dies of `cause`. -/
def died (s : System) (p : Pid) (cause : Death) (k : Tree) : System :=
  { s with
    tree := k
    death := if (k.process p).isZombie ∧ ¬(s.tree.process p).isZombie then
      Function.update s.death p (some cause) else s.death }

/-- A wait call comes to a result. -/
def waited (s : System) (op : Op) (r : WaitResult) (k : Tree) : System :=
  { s with
    tree := k
    -- a deleted process has lost its threads
    deleted := fun p => s.deleted p ||
      (!(s.tree.process p).threadList.isEmpty && (k.process p).threadList.isEmpty)
    reports := match r with
      | .returned ret _ _ =>
        if ret = 0 then s.reports
        else ⟨ret, (s.tree.process ret.toNat).isZombie, op.nowait s.tree⟩ :: s.reports
      | _ => s.reports }

/-- One step. What the code does not do at this point does nothing. -/
def step (s : System) (op : Op) : Except Panic System :=
  if ¬s.tree.mayDo op then .ok s
  else
    let p := (s.tree.thread op.thread).process
    match op with
    | .fork t => do
      let k ← s.tree.fork t
      return { s with tree := k, created := Function.update s.created s.tree.nextTid true }
    | .spawn t => .ok { s with tree := s.tree.spawn t }
    | .execve _ => .ok { s with
        tree := s.tree.updateProcess p fun x => { x with hasPerformedExecve := true } }
    | .exit t status => do
      let k ← s.tree.terminateThread t none
      return s.died p (.exited status) k
    | .exitGroup t status => do
      let k ← s.tree.exitGroup t status
      return s.died p (.exited status) k
    | .kill _ signal => do
      let k ← s.tree.terminateProcess p (some signal)
      return s.died p (.killed signal) k
    | .stop t signal => do
      let k ← s.tree.stop t signal
      return { s with tree := k }
    | .cont t => .ok { s with tree := s.tree.continueStopped t }
    | .setpgid _ pid pgid => do
      let (_, k) ← s.tree.setpgid p pid pgid
      return { s with tree := k }
    | .setsid _ => do
      let (_, k) ← s.tree.setsid p
      return { s with tree := k }
    | op =>
      match s.tree.waitStep op with
      | none => .ok s
      | some result => do
        let (r, k) ← result
        return s.waited op r k

/-- The system when the init process has been created: `kernelThreads` threads of the kernel process
    (sched/sched.cpp:611-619), and the number that the init process has given up for 1
    (sched/sched.cpp:572-580). -/
def booted (kernelThreads : ℕ) : System where
  tree := {
    process := fun p =>
      if p = initProcess then { threadList := [1], numLivingThreads := 1, parent := some initProcess
                                group := some 0, hasPerformedExecve := true }
      else if p = kernelProcess then { threadList := List.range' 3 kernelThreads
                                       numLivingThreads := kernelThreads }
      else {}
    thread := fun t =>
      if t = 1 then { process := initProcess, state := .ready }
      else if 3 ≤ t ∧ t < 3 + kernelThreads then { process := kernelProcess, state := .ready }
      else {}
    table := fun t => t = 1 ∨ 3 ≤ t ∧ t < 3 + kernelThreads
    nextTid := 4 + kernelThreads
    group := fun g => if g = 0 then ⟨0, initProcess⟩ else {}
    nextGroup := 1
    session := fun _ => ⟨0⟩
    nextSession := 1
    childLinks := fun n =>
      if n = .head initProcess ∨ n = .head kernelProcess then ⟨some n, some n⟩ else {}
    groupLinks := fun n => if n = .head 0 then ⟨some n, some n⟩ else {} }
  created := fun p => p = initProcess ∨ p = kernelProcess

end System

end Fishix.ProcessTree
