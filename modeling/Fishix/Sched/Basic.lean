import Fishix.Common.Word
import Fishix.Common.Outcome
import Fishix.Common.Ring

/-!
# Threads, processes, events and the run list

The data model of `sched/sched.hpp` lines 24-186, `sched/event.hpp` lines 11-36 and
`userland/signal.hpp`, with what the scheduler uses of `cpu/cpu.hpp`.

Threads, processes and events are known by numbers. The run list and the listener lists of
the events are chains of `ListHead`s (`Common/Ring.lean`): the run list goes through the
`sched_link` of the threads, a listener list through the `listener_link` of the `Listener`s
that stand in the `listeners` vectors of the waiting threads. A vector's buffer is one
allocation of the bump allocator, which never gives memory back (mem/bump.cpp), so a
`Listener*` is the number of its buffer and its place in it.

There is one CPU. Credentials, names, timers, descriptors and page maps are left out; closing a
dead process's files is the list of the events that it triggers.
-/

namespace Fishix.Sched

abbrev Tid := ℕ
abbrev Pid := ℕ
abbrev EventId := ℕ

/-- A signal number. -/
abbrev Signal := ℕ

/-- What stops the kernel. -/
inductive Panic
  /-- `ASSERT`. -/
  | assertion
  /-- A null or foreign pointer is followed. -/
  | badPointer
  /-- A walk over a list does not end. -/
  | endless
  /-- `panic("Init process died")`. -/
  | initDied
  deriving DecidableEq

def orPanic {α : Type} (p : Panic) : Option α → Except Panic α
  | none => .error p
  | some a => .ok a

/-- `ASSERT`. -/
def assert (b : Bool) : Except Panic Unit := if b then .ok () else .error .assertion

/-! ## Signals -/

/-- The signals the code names (the numbers of x86-64 Linux). -/
def SIGILL : Signal := 4
def SIGBUS : Signal := 7
def SIGFPE : Signal := 8
def SIGSEGV : Signal := 11
def SIGCHLD : Signal := 17
def SIGCONT : Signal := 18

/-- `get_signal_bit` (userland/signal.hpp:23). -/
def getSignalBit (signal : Signal) : U64 := 1#64 <<< (signal - 1)

/-- `SignalDefault` (userland/signal.hpp:8-10). -/
inductive SignalDefault
  | ignore | terminate | core | continue | stop
  deriving DecidableEq

/-- `signal_default_action` (userland/signal.cpp:316-351). -/
def signalDefaultAction (signal : Signal) : SignalDefault :=
  match signal with
  | 1 | 2 | 9 | 10 | 12 | 13 | 14 | 15 | 16 | 26 | 27 | 29 | 30 => .terminate
  | 17 | 23 | 28 => .ignore
  | 18 => .continue
  | 19 | 20 | 21 | 22 => .stop
  | _ => .core

/-- `handler` of a `KernelSigaction`: `SIG_DFL`, `SIG_IGN` or a function. -/
inductive Handler
  | dfl | ign | function (address : U64)
  deriving DecidableEq

/-- `KernelSigaction` (userland/signal.hpp:13-18). -/
structure KernelSigaction where
  handler : Handler := .dfl
  flags : U64 := 0#64
  restorer : U64 := 0#64
  mask : U64 := 0#64
  deriving DecidableEq

def SA_NOCLDSTOP : U64 := 0x1#64
def SA_ONSTACK : U64 := 0x08000000#64
def SA_RESTART : U64 := 0x10000000#64
def SA_NODEFER : U64 := 0x40000000#64
def SA_RESETHAND : U64 := 0x80000000#64

/-- `stack_t`: an alternate signal stack. -/
structure AltStack where
  sp : U64 := 0#64
  size : U64 := 0#64
  /-- `SS_DISABLE` is set. -/
  disabled : Bool := false
  /-- `SS_ONSTACK` is set. -/
  onStack : Bool := false
  deriving DecidableEq

/-! ## Register state -/

/-- `cpu::InterruptState` (cpu/cpu.hpp:57-63). -/
structure InterruptState where
  ds : U64 := 0#64
  es : U64 := 0#64
  r15 : U64 := 0#64
  r14 : U64 := 0#64
  r13 : U64 := 0#64
  r12 : U64 := 0#64
  r11 : U64 := 0#64
  r10 : U64 := 0#64
  r9 : U64 := 0#64
  r8 : U64 := 0#64
  rbp : U64 := 0#64
  rdi : U64 := 0#64
  rsi : U64 := 0#64
  rdx : U64 := 0#64
  rcx : U64 := 0#64
  rbx : U64 := 0#64
  rax : U64 := 0#64
  err : U64 := 0#64
  rip : U64 := 0#64
  cs : U64 := 0#64
  rflags : U64 := 0#64
  rsp : U64 := 0#64
  ss : U64 := 0#64
  deriving DecidableEq

/-- The code segment of the frame is a user segment. -/
def InterruptState.isUser (s : InterruptState) : Bool := s.cs &&& 3#64 = 3#64

/-- The bytes `save_extended_state` stores. -/
abbrev ExtendedState := List (BitVec 8)

/-- What `from_ucontext` reads of a signal frame (sched/context.cpp:5-26). -/
structure UContext where
  gpr : InterruptState := {}
  fpstate : ExtendedState := []
  sigmask : U64 := 0#64
  deriving DecidableEq

/-! ## Events -/

/-- A `Listener*`: its buffer and its place there. -/
structure ListenerRef where
  buffer : ℕ
  index : ℕ
  deriving DecidableEq

/-- `Event::Listener` (sched/event.hpp:12-19) without its link. -/
structure Listener where
  thread : Tid
  event : Option EventId
  which : ℕ
  deriving DecidableEq

/-- The list heads of listener lists: `listener_list_head` of an event, `listener_link` of a
    listener. -/
inductive Node
  | head (e : EventId)
  | link (p : ListenerRef)
  deriving DecidableEq

/-- `klib::Vector<Event::Listener>` (klib/vector.hpp:8-10). -/
structure ListenerVector where
  buffer : ℕ := 0
  size : ℕ := 0
  capacity : ℕ := 0
  deriving DecidableEq

/-- `Event` (sched/event.hpp:21-24). -/
structure Event where
  pending : ℕ := 0
  numListeners : ℤ := 0
  deriving DecidableEq

/-! ## Threads and processes -/

/-- `Thread::State` (sched/sched.hpp:68-74). -/
inductive ThreadState
  | ready | running | blocked | stopped | zombie
  deriving DecidableEq

/-- `Thread` (sched/sched.hpp:24-102). `-1` in `enqueued_by_signal` is `none`. -/
structure Thread where
  process : Pid := 0
  gprState : InterruptState := {}
  extendedState : Option ExtendedState := none
  gsBase : U64 := 0#64
  fsBase : U64 := 0#64
  savedUserStack : U64 := 0#64
  savedKernelStack : U64 := 0#64
  listeners : ListenerVector := {}
  whichEvent : ℕ := 0
  signalAltStack : AltStack := {}
  signalMask : U64 := 0#64
  pendingSignals : U64 := 0#64
  enqueuedBySignal : Option Signal := none
  enteringSignal : Bool := false
  exitingSignal : Bool := false
  /-- What stands at `signal_frame`. -/
  signalFrame : UContext := {}
  /-- `poll_saved_signal_mask` when `has_poll_saved_signal_mask`. -/
  pollSavedSignalMask : Option U64 := none
  signalEvent : EventId := 0
  signalReturnEvent : EventId := 0
  lastSyscallNum : U64 := 0#64
  lastSyscallRip : U64 := 0#64
  /-- `last_syscall_ret == -EINTR`. -/
  lastSyscallInterrupted : Bool := false
  /-- The futex event of the word at `clear_child_tid`, if there is one. -/
  clearChildTid : Option EventId := none
  state : ThreadState := .blocked

/-- `Process` (sched/sched.hpp:127-186). -/
structure Process where
  threadList : List Tid := []
  numLivingThreads : ℤ := 0
  parent : Pid := 0
  children : List Pid := []
  zombieEvent : EventId := 0
  stoppedEvent : EventId := 0
  continuedEvent : EventId := 0
  waitStatus : Signal := 0
  isZombie : Bool := false
  signalActions : Signal → KernelSigaction := fun _ => {}
  /-- The events that closing the file descriptors triggers. -/
  closeEvents : List EventId := []

/-- `cpu::CPU` (cpu/cpu.hpp:44-54) and the registers the scheduler saves. -/
structure Cpu where
  runningThread : Option Tid := none
  kernelStack : U64 := 0#64
  userStack : U64 := 0#64
  /-- The general registers, as an interrupt pushes them. -/
  regs : InterruptState := {}
  extended : ExtendedState := []
  kernelGsBase : U64 := 0#64
  fsBase : U64 := 0#64
  /-- `(u64)cpu`. -/
  address : U64 := 0#64

/-- The scheduler's state. -/
structure Kernel where
  /-- A number that is not in use stands for a dead thread. -/
  thread : Tid → Thread := fun _ => { state := .zombie }
  /-- `thread_table[tid] != nullptr`. -/
  used : Tid → Bool := fun _ => false
  process : Pid → Process := fun _ => {}
  event : EventId → Event := fun _ => {}
  listener : ListenerRef → Listener := fun _ => ⟨0, none, 0⟩
  listenerLinks : Links Node
  /-- The number of the next buffer. -/
  nextBuffer : ℕ := 0
  /-- The number of listeners in all buffers. -/
  slots : ℕ := 0
  /-- `sched_link` of the threads, and `sched_list_head` at `none`. -/
  schedLinks : Links (Option Tid)
  idleThread : Tid
  initProcess : Pid
  cpu : Cpu := {}

namespace Kernel

def updateThread (k : Kernel) (t : Tid) (f : Thread → Thread) : Kernel :=
  { k with thread := Function.update k.thread t (f (k.thread t)) }

def updateProcess (k : Kernel) (p : Pid) (f : Process → Process) : Kernel :=
  { k with process := Function.update k.process p (f (k.process p)) }

def updateEvent (k : Kernel) (e : EventId) (f : Event → Event) : Kernel :=
  { k with event := Function.update k.event e (f (k.event e)) }

/-- The thread's state. -/
def state (k : Kernel) (t : Tid) : ThreadState := (k.thread t).state

section Update

variable (k : Kernel) (t u : Tid) (p : Pid) (e : EventId) (f g : Thread → Thread)
  (fp : Process → Process) (fe : Event → Event)

theorem updateEvent_event {β : Type} {g : Event → β} (hf : ∀ x, g (fe x) = g x) (e' : EventId) :
    g ((k.updateEvent e fe).event e') = g (k.event e') := by
  by_cases he : e' = e
  · subst he
    simp [updateEvent, hf]
  · simp [updateEvent, he]

@[simp] theorem updateThread_thread_self : (k.updateThread t f).thread t = f (k.thread t) := by
  simp [updateThread]

theorem updateThread_thread_of_ne (h : u ≠ t) : (k.updateThread t f).thread u = k.thread u := by
  simp [updateThread, h]

@[simp] theorem updateThread_updateThread :
    (k.updateThread t f).updateThread t g = k.updateThread t fun x => g (f x) := by
  simp [updateThread]

@[simp] theorem updateThread_used : (k.updateThread t f).used = k.used := rfl
@[simp] theorem updateThread_process : (k.updateThread t f).process = k.process := rfl
@[simp] theorem updateThread_event : (k.updateThread t f).event = k.event := rfl
@[simp] theorem updateThread_listener : (k.updateThread t f).listener = k.listener := rfl
@[simp] theorem updateThread_listenerLinks :
    (k.updateThread t f).listenerLinks = k.listenerLinks := rfl
@[simp] theorem updateThread_schedLinks : (k.updateThread t f).schedLinks = k.schedLinks := rfl
@[simp] theorem updateThread_idleThread : (k.updateThread t f).idleThread = k.idleThread := rfl
@[simp] theorem updateThread_cpu : (k.updateThread t f).cpu = k.cpu := rfl

@[simp] theorem updateProcess_thread : (k.updateProcess p fp).thread = k.thread := rfl
@[simp] theorem updateProcess_used : (k.updateProcess p fp).used = k.used := rfl
@[simp] theorem updateProcess_schedLinks : (k.updateProcess p fp).schedLinks = k.schedLinks := rfl
@[simp] theorem updateProcess_idleThread : (k.updateProcess p fp).idleThread = k.idleThread := rfl
@[simp] theorem updateProcess_cpu : (k.updateProcess p fp).cpu = k.cpu := rfl

@[simp] theorem updateEvent_thread : (k.updateEvent e fe).thread = k.thread := rfl
@[simp] theorem updateEvent_schedLinks : (k.updateEvent e fe).schedLinks = k.schedLinks := rfl

@[simp] theorem updateThread_state_self : (k.updateThread t f).state t = (f (k.thread t)).state := by
  simp [state]

theorem updateThread_state_of_ne (h : u ≠ t) : (k.updateThread t f).state u = k.state u := by
  simp [state, updateThread_thread_of_ne k t u f h]

/-- A change that keeps the state of its thread keeps all states. -/
theorem updateThread_state (h : (f (k.thread t)).state = (k.thread t).state) (u : Tid) :
    (k.updateThread t f).state u = k.state u := by
  by_cases hu : u = t
  · subst hu
    simp [state, h]
  · exact updateThread_state_of_ne k t u f hu

@[simp] theorem updateProcess_state : (k.updateProcess p fp).state u = k.state u := rfl
@[simp] theorem updateEvent_state : (k.updateEvent e fe).state u = k.state u := rfl

end Update

/-! ### The run list -/

/-- `sched_list_head.add_before(&thread->sched_link)`. -/
def linkThread (k : Kernel) (t : Tid) : Except Panic Kernel := do
  let links ← orPanic .badPointer (k.schedLinks.addBefore none (some t))
  return { k with schedLinks := links }

/-- `thread->sched_link.remove()`. -/
def unlinkThread (k : Kernel) (t : Tid) : Except Panic Kernel := do
  let links ← orPanic .badPointer (k.schedLinks.remove (some t))
  return { k with schedLinks := links }

/-- `enqueue_thread` (sched/sched.cpp:642-652). -/
def enqueueThread (k : Kernel) (t : Tid) (signal : Option Signal) : Except Panic Kernel :=
  if k.state t ≠ .blocked ∧ k.state t ≠ .stopped then .ok k
  else if k.state t = .stopped ∧ signal ≠ some SIGCONT then .ok k
  else do
    let k := k.updateThread t fun x => { x with enqueuedBySignal := signal }
    let k ← k.linkThread t
    if k.state t = .blocked then return k.updateThread t fun x => { x with state := .ready }
    else return k

/-! ### `Event::trigger` -/

/-- The loop of `trigger` (sched/event.cpp:87-98), `pos` and `next` being the pointers of
    `LIST_FOR_EACH_SAFE`. A walk over more listeners than there are does not end. -/
def triggerLoop (e : EventId) (maxToWake : ℤ) :
    ℕ → Kernel → Node → Node → ℤ → Except Panic (ℤ × Kernel)
  | 0, _, _, _, _ => .error .endless
  | turns + 1, k, pos, next, numWokenUp =>
    match pos with
    | .head e' => if e' = e then .ok (numWokenUp, k) else .error .badPointer
    | .link p => do
      let k := k.updateThread (k.listener p).thread fun x =>
        { x with whichEvent := (k.listener p).which }
      let k ← k.enqueueThread (k.listener p).thread none
      if numWokenUp + 1 ≥ maxToWake then return (numWokenUp + 1, k)
      else do
        let next' ← orPanic .badPointer (k.listenerLinks next).next
        triggerLoop e maxToWake turns k next next' (numWokenUp + 1)

/-- `klib::NumericLimits<int>::max`. -/
def intMax : ℤ := 2147483647

/-- `Event::trigger` (sched/event.cpp:75-104). -/
def trigger (k : Kernel) (e : EventId) (drop : Bool) (maxToWake : ℤ) :
    Except Panic (ℤ × Kernel) :=
  if (k.event e).numListeners = 0 then
    .ok (0, if drop then k else k.updateEvent e fun x => { x with pending := x.pending + 1 })
  else do
    let pos ← orPanic .badPointer (k.listenerLinks (.head e)).next
    let next ← orPanic .badPointer (k.listenerLinks pos).next
    triggerLoop e maxToWake (k.slots + 2) k pos next 0

/-- `event.trigger()`. -/
def triggerAll (k : Kernel) (e : EventId) : Except Panic Kernel := do
  let (_, k) ← k.trigger e false intMax
  return k

/-! ### Signals, stopping and termination -/

/-- `Thread::send_signal` (sched/sched.cpp:155-161). -/
def sendSignal (k : Kernel) (t : Tid) (signal : Signal) : Except Panic Kernel := do
  let k := k.updateThread t fun x =>
    { x with pendingSignals := x.pendingSignals ||| getSignalBit signal }
  let k ← k.enqueueThread t (some signal)
  k.triggerAll (k.thread t).signalEvent

/-- `Process::send_signal` (sched/sched.cpp:236-238) with `get_main_thread`
    (sched/sched.cpp:62-66): the main thread has the number of the process. -/
def sendSignalProcess (k : Kernel) (p : Pid) (signal : Signal) : Except Panic Kernel := do
  let t ← orPanic .badPointer (k.process p).threadList.head?
  assert (t = p)
  k.sendSignal t signal

/-- `Thread::has_pending_signals` (sched/sched.cpp:163-165). -/
def hasPendingSignals (k : Kernel) (t : Tid) : Bool :=
  (k.thread t).pendingSignals &&& ~~~(k.thread t).signalMask ≠ 0#64

/-- `dequeue_thread` (sched/sched.cpp:626-640). -/
def dequeueThread (k : Kernel) (t : Tid) (stopSignal : Option Signal) : Except Panic Kernel := do
  assert (k.state t = .ready ∨ k.state t = .running)
  let k ← k.unlinkThread t
  match stopSignal with
  | none => return k.updateThread t fun x => { x with state := .blocked }
  | some signal => do
    let k := k.updateThread t fun x => { x with state := .stopped }
    let p := (k.thread t).process
    let k := k.updateProcess p fun x => { x with waitStatus := signal }
    let k ← k.triggerAll (k.process p).stoppedEvent
    let parent := (k.process p).parent
    if ((k.process parent).signalActions SIGCHLD).flags &&& SA_NOCLDSTOP = 0#64 then
      k.sendSignalProcess parent SIGCHLD
    else return k

/-- `Process::zombify` (sched/sched.cpp:206-233). -/
def zombify (k : Kernel) (p : Pid) (terminateSignal : Option Signal) : Except Panic Kernel := do
  if p = k.initProcess then .error .initDied
  else do
    let k := k.updateProcess p fun x =>
      { x with isZombie := true, waitStatus := terminateSignal.getD x.waitStatus }
    let k := (k.process p).children.foldl
      (fun k c => k.updateProcess c fun x => { x with parent := k.initProcess }) k
    let k := k.updateProcess k.initProcess fun x =>
      { x with children := x.children ++ (k.process p).children }
    let k := k.updateProcess p fun x => { x with children := [] }
    let k ← (k.process p).closeEvents.foldlM (fun k e => k.triggerAll e) k
    let k ← k.triggerAll (k.process p).zombieEvent
    k.sendSignalProcess (k.process p).parent SIGCHLD

/-- `terminate_thread` (sched/sched.cpp:654-671). -/
def terminateThread (k : Kernel) (t : Tid) (terminateSignal : Option Signal) :
    Except Panic Kernel :=
  if k.state t = .zombie then .ok k
  else do
    let k ← if k.state t = .ready ∨ k.state t = .running then k.unlinkThread t else .ok k
    let k := k.updateThread t fun x => { x with state := .zombie }
    let p := (k.thread t).process
    let k := k.updateProcess p fun x => { x with numLivingThreads := x.numLivingThreads - 1 }
    if (k.process p).numLivingThreads = 0 then k.zombify p terminateSignal
    else
      match (k.thread t).clearChildTid with
      | none => return k
      | some e => do
        let (_, k) ← k.trigger e true 1
        return k

/-- `terminate_process` (sched/sched.cpp:673-679). -/
def terminateProcess (k : Kernel) (p : Pid) (terminateSignal : Option Signal) :
    Except Panic Kernel :=
  (k.process p).threadList.foldlM (fun k t => k.terminateThread t terminateSignal) k

end Kernel

end Fishix.Sched
