import Fishix.Common.Rings
import Fishix.Common.Outcome
import Fishix.Sched.Basic

/-!
# The process tree

Processes as parents, children and members of process groups: the fields of `Thread`, `Process`,
`ProcessGroup` and `Session` (sched/sched.hpp:94-186) that `fork`, `setpgid`, `setsid`, the death of
a process and the wait calls use, and these functions (sched/sched.cpp:62-66, 85-91, 133-146,
179-238, 626-688, 806-818, 1037-1182, userland/pid.cpp:41-99).

`sibling_link` and `group_link` are chained as the source chains them (`Common/Rings.lean`).
Thread numbers are never given twice (`first_free_tid` only grows, sched/sched.cpp:43-60), so a
process is known by its `pid`, also after it has been deleted.

A system call runs with interrupts disabled until it sleeps (cpu/syscall/syscall.cpp:54-62,
sched/sched.cpp:690-701), so each is one step. Which of the ready threads runs, and when a sleeping
one is woken, is left open; events, pending signals and the memory of a process are left out.
-/

namespace Fishix.ProcessTree

open Fishix.Sched (Panic orPanic assert Signal SIGCHLD SIGCONT)

abbrev Tid := ℕ
abbrev Pid := ℕ
abbrev GroupId := ℕ
abbrev SessionId := ℕ

/-- The process that `create_init_process` makes (sched/sched.cpp:572-573). -/
def initProcess : Pid := 1

/-- The first process (sched/sched.cpp:612). -/
def kernelProcess : Pid := 2

/-- The errors of these calls. -/
inductive Errno
  | esrch | eacces | eperm | einval | echild | eintr
  deriving DecidableEq

/-! ## The data -/

/-- `Thread::State` (sched/sched.hpp:68-74); `READY` and `RUNNING` are one here. -/
inductive ThreadState
  | ready | blocked | stopped | zombie
  deriving DecidableEq

def CLD_EXITED : ℤ := 1
def CLD_KILLED : ℤ := 2
def CLD_STOPPED : ℤ := 5
def CLD_CONTINUED : ℤ := 6

structure Thread where
  process : Pid := 0
  state : ThreadState := .zombie
  /-- `cred.uids.rid`. -/
  uid : ℕ := 0

structure Process where
  threadList : List Tid := []
  numLivingThreads : ℤ := 0
  parent : Option Pid := none
  group : Option GroupId := none
  waitStatus : ℤ := 0
  waitCode : ℤ := 0
  isZombie : Bool := false
  hasPerformedExecve : Bool := false

structure ProcessGroup where
  session : SessionId := 0
  leaderProcess : Pid := 0

structure Session where
  leaderGroup : GroupId := 0

/-- `siginfo_t`, as far as the wait calls fill it in. -/
structure Siginfo where
  pid : ℤ := 0
  uid : ℕ := 0
  signo : ℕ := 0
  status : ℤ := 0
  code : ℤ := 0
  deriving DecidableEq

/-- `idtype_t`. -/
inductive IdType
  | all | pid | pgid | other
  deriving DecidableEq

/-- The arguments of `waitid_impl` (sched/sched.cpp:1037), without `rusage`. -/
structure WaitCall where
  idtype : IdType
  id : ℕ
  options : BitVec 32
  /-- `infop` is not null. -/
  infop : Bool
  deriving DecidableEq

/-- Who has called `waitid_impl`. -/
inductive Caller
  | waitid
  /-- `info` is what stands in the local variable of `wait4` before, `status` that the pointer is not
      null. -/
  | wait4 (info : Siginfo) (status : Bool)

/-- A thread that sleeps in `waitid_impl`. -/
structure Waiting where
  caller : Caller
  call : WaitCall
  targetChildren : List Pid

structure Tree where
  process : Pid → Process := fun _ => {}
  thread : Tid → Thread := fun _ => {}
  /-- `thread_table[tid] != nullptr`. -/
  table : Tid → Bool := fun _ => false
  /-- The next thread number. -/
  nextTid : Tid
  group : GroupId → ProcessGroup := fun _ => {}
  nextGroup : GroupId := 0
  session : SessionId → Session := fun _ => {}
  nextSession : SessionId := 0
  /-- `children_list` and `sibling_link`. -/
  childLinks : Links (ListNode Pid Pid) := fun _ => {}
  /-- `process_list` and `group_link`. -/
  groupLinks : Links (ListNode GroupId Pid) := fun _ => {}
  waiting : Tid → Option Waiting := fun _ => none

namespace Tree

def updateProcess (k : Tree) (p : Pid) (f : Process → Process) : Tree :=
  { k with process := Function.update k.process p (f (k.process p)) }

def updateThread (k : Tree) (t : Tid) (f : Thread → Thread) : Tree :=
  { k with thread := Function.update k.thread t (f (k.thread t)) }

/-- `Thread::get_from_tid` (sched/sched.cpp:148-153). -/
def getFromTid (k : Tree) (tid : ℤ) : Option Tid :=
  if 0 < tid ∧ k.table tid.toNat then some tid.toNat else none

/-- `Process::get_main_thread` (sched/sched.cpp:62-66). -/
def getMainThread (k : Tree) (p : Pid) : Except Panic Tid := do
  let t ← orPanic .badPointer (k.process p).threadList.head?
  assert (t = p)
  return t

/-- `Process::send_signal` needs the main thread; the signal itself is left out
    (sched/sched.cpp:236-238). -/
def sendSignal (k : Tree) (p : Pid) : Except Panic Unit := do
  let _ ← k.getMainThread p
  return ()

/-! ## Groups and parents -/

/-- A pointer to the process's group is followed. -/
def groupOf (k : Tree) (p : Pid) : Except Panic GroupId := orPanic .badPointer (k.process p).group

/-- `session_leader` (sched/sched.hpp:165). -/
def sessionLeader (k : Tree) (p : Pid) : Except Panic Pid := do
  let g ← k.groupOf p
  return (k.group (k.session (k.group g).session).leaderGroup).leaderProcess

/-- `ProcessGroup::ProcessGroup` (sched/sched.cpp:179-182). -/
def newGroup (k : Tree) (session : SessionId) (leaderProcess : Pid) : GroupId × Tree :=
  (k.nextGroup, { k with
    group := Function.update k.group k.nextGroup ⟨session, leaderProcess⟩
    nextGroup := k.nextGroup + 1
    groupLinks := k.groupLinks.init (.head k.nextGroup) })

/-- A process that has a group leaves its list (sched/sched.cpp:185-186). -/
def leaveGroup (k : Tree) (p : Pid) : Except Panic (Links (ListNode GroupId Pid)) :=
  match (k.process p).group with
  | none => .ok k.groupLinks
  | some _ => orPanic .badPointer (k.groupLinks.remove (.link p))

/-- `ProcessGroup::add_process` (sched/sched.cpp:184-189). -/
def addProcess (k : Tree) (g : GroupId) (p : Pid) : Except Panic Tree := do
  let links ← k.leaveGroup p
  let links ← orPanic .badPointer (links.addBefore (.head g) (.link p))
  return { k with groupLinks := links }.updateProcess p fun x => { x with group := some g }

/-- A process that is linked leaves its siblings (sched/sched.cpp:201). -/
def leaveSiblings (k : Tree) (p : Pid) : Except Panic (Links (ListNode Pid Pid)) :=
  let node := k.childLinks (.link p)
  if node.next = none ∨ node.prev = none then .ok k.childLinks
  else orPanic .badPointer (k.childLinks.remove (.link p))

/-- `Process::set_parent` (sched/sched.cpp:199-205). -/
def setParent (k : Tree) (p newParent : Pid) : Except Panic Tree := do
  let k := k.updateProcess p fun x => { x with parent := some newParent }
  let links ← k.leaveSiblings p
  let links ← orPanic .badPointer (links.addBefore (.head newParent) (.link p))
  let k := { k with childLinks := links }
  let g ← k.groupOf newParent
  k.addProcess g p

/-- `syscall_setpgid` (userland/pid.cpp:41-72); `none` is success. -/
def setpgid (k : Tree) (currentProcess : Pid) (pid pgid : ℤ) :
    Except Panic (Option Errno × Tree) := do
  let target : Except Errno Pid :=
    if pid = 0 then .ok currentProcess
    else match k.getFromTid pid with
      | none => .error .esrch
      | some t =>
        let p := (k.thread t).process
        if p ≠ currentProcess ∧ (k.process p).parent ≠ some currentProcess then .error .esrch
        else if (k.process p).parent = some currentProcess ∧ (k.process p).hasPerformedExecve then
          .error .eacces
        else .ok p
  match target with
  | .error e => return (some e, k)
  | .ok p =>
    let leader ← k.sessionLeader p
    if leader = p then return (some .eperm, k)
    else
      let own ← k.groupOf p
      if pgid ≠ 0 ∧ pgid ≠ p then
        if pgid < 0 then return (some .einval, k)
        else match k.getFromTid pgid with
          | none => return (some .eperm, k)
          | some t =>
            let g ← k.groupOf (k.thread t).process
            if (k.group g).session ≠ (k.group own).session then return (some .eperm, k)
            else
              let k ← k.addProcess g p
              return (none, k)
      else if (k.group own).leaderProcess = p then return (none, k)
      else
        let (g, k) := k.newGroup (k.group own).session p
        let k ← k.addProcess g p
        return (none, k)

/-- `syscall_setsid` (userland/pid.cpp:87-99); `none` is success. -/
def setsid (k : Tree) (process : Pid) : Except Panic (Option Errno × Tree) := do
  let own ← k.groupOf process
  if (k.group own).leaderProcess = process then return (some .eperm, k)
  else
    let session := k.nextSession
    let k := { k with nextSession := k.nextSession + 1 }
    let (g, k) := k.newGroup session process
    let k ← k.addProcess g process
    return (none, { k with session := Function.update k.session session ⟨g⟩ })

/-! ## Birth -/

/-- `Process::Process` (sched/sched.cpp:123-131). -/
def newProcess (k : Tree) : Pid × Tree :=
  (k.nextTid, { k with
    process := Function.update k.process k.nextTid {}
    nextTid := k.nextTid + 1
    childLinks := k.childLinks.init (.head k.nextTid) })

/-- `Thread::Thread` (sched/sched.cpp:85-105) and what `clone_impl` sets in the new thread. -/
def newThread (k : Tree) (p : Pid) (t : Tid) (uid : ℕ) : Tree :=
  let k := k.updateProcess p fun x => { x with
    threadList := x.threadList ++ [t], numLivingThreads := x.numLivingThreads + 1 }
  let k := k.updateThread t fun _ => { process := p, state := .ready, uid }
  { k with table := Function.update k.table t true }

/-- `clone_impl` for a process (sched/sched.cpp:855-918). -/
def fork (k : Tree) (old : Tid) : Except Panic Tree :=
  let (p, k) := k.newProcess
  let k := k.newThread p p (k.thread old).uid
  k.setParent p (k.thread old).process

/-- `clone_impl` for a thread. -/
def spawn (k : Tree) (old : Tid) : Tree :=
  let t := k.nextTid
  { k with nextTid := k.nextTid + 1 }.newThread (k.thread old).process t (k.thread old).uid

/-! ## Death -/

/-- `LIST_FOR_EACH_SAFE` over the children in `zombify` (sched/sched.cpp:219-222). A walk over more
    children than there are processes does not end. -/
def adoptLoop (p : Pid) : ℕ → Tree → ListNode Pid Pid → ListNode Pid Pid → Except Panic Tree
  | 0, _, _, _ => .error .endless
  | turns + 1, k, pos, next =>
    match pos with
    | .head q => if q = p then .ok k else .error .badPointer
    | .link c => do
      let k ← k.setParent c initProcess
      let next' ← orPanic .badPointer (k.childLinks next).next
      adoptLoop p turns k next next'

/-- The process is marked as dead (sched/sched.cpp:213-217). -/
def markDead (k : Tree) (p : Pid) (terminateSignal : Option Signal) : Tree :=
  k.updateProcess p fun x =>
    match terminateSignal with
    | none => { x with isZombie := true }
    | some signal => { x with isZombie := true, waitStatus := signal, waitCode := CLD_KILLED }

/-- `Process::zombify` (sched/sched.cpp:207-233). -/
def zombify (k : Tree) (p : Pid) (terminateSignal : Option Signal) : Except Panic Tree :=
  if p = initProcess then .error .initDied
  else do
    let k := k.markDead p terminateSignal
    let pos ← orPanic .badPointer (k.childLinks (.head p)).next
    let next ← orPanic .badPointer (k.childLinks pos).next
    let k ← adoptLoop p (k.nextTid + 1) k pos next
    let parent ← orPanic .badPointer (k.process p).parent
    k.sendSignal parent
    return k

/-- `terminate_thread` (sched/sched.cpp:654-670). -/
def terminateThread (k : Tree) (t : Tid) (terminateSignal : Option Signal) : Except Panic Tree :=
  if (k.thread t).state = .zombie then .ok k
  else
    let k := k.updateThread t fun x => { x with state := .zombie }
    let p := (k.thread t).process
    let k := k.updateProcess p fun x => { x with numLivingThreads := x.numLivingThreads - 1 }
    if (k.process p).numLivingThreads = 0 then k.zombify p terminateSignal else .ok k

/-- `terminate_process` (sched/sched.cpp:672-678). -/
def terminateProcess (k : Tree) (p : Pid) (terminateSignal : Option Signal) : Except Panic Tree :=
  (k.process p).threadList.foldlM (fun k t => k.terminateThread t terminateSignal) k

/-- `syscall_exit_group` (sched/sched.cpp:811-818). -/
def exitGroup (k : Tree) (t : Tid) (status : ℤ) : Except Panic Tree :=
  let p := (k.thread t).process
  let k := k.updateProcess p fun x => { x with waitStatus := status, waitCode := CLD_EXITED }
  k.terminateProcess p none

/-- `dequeue_thread` with a signal that stops the thread (sched/sched.cpp:626-640). The parent is
    read for `SA_NOCLDSTOP`. -/
def stop (k : Tree) (t : Tid) (signal : Signal) : Except Panic Tree := do
  assert ((k.thread t).state = .ready)
  let k := k.updateThread t fun x => { x with state := .stopped }
  let p := (k.thread t).process
  let k := k.updateProcess p fun x => { x with waitStatus := signal, waitCode := CLD_STOPPED }
  let _ ← orPanic .badPointer (k.process p).parent
  return k

/-- A stopped thread goes on (sched/sched.cpp:749-757). -/
def continueStopped (k : Tree) (t : Tid) : Tree :=
  let k := k.updateThread t fun x => { x with state := .ready }
  k.updateProcess (k.thread t).process fun x =>
    { x with waitStatus := SIGCONT, waitCode := CLD_CONTINUED }

/-- `Thread::~Thread` (sched/sched.cpp:107-121). -/
def destroyThread (k : Tree) (t : Tid) : Except Panic Tree := do
  assert ((k.thread t).state = .zombie)
  let k := k.updateProcess (k.thread t).process fun x =>
    { x with threadList := x.threadList.erase t }
  return { k with table := Function.update k.table t false }

/-- A thread of a process that is deleted (sched/sched.cpp:139-143). -/
def deleteThread (k : Tree) (t : Tid) : Except Panic Tree :=
  if (k.thread t).state ≠ .zombie then do
    let k ← k.terminateThread t none
    k.destroyThread t
  else k.destroyThread t

/-- `Process::~Process` (sched/sched.cpp:133-146). -/
def destroyProcess (k : Tree) (p : Pid) : Except Panic Tree := do
  assert (k.process p).isZombie
  let childLinks ← orPanic .badPointer (k.childLinks.remove (.link p))
  let groupLinks ← orPanic .badPointer (k.groupLinks.remove (.link p))
  let k := { k with childLinks, groupLinks }
  (k.process p).threadList.foldlM (fun k t => k.deleteThread t) k

end Tree

end Fishix.ProcessTree
