import Fishix.Sched.Basic

/-!
# Signal dispatch and the scheduler interrupt

Model of `userland/signal.cpp` lines 54-188 (`dispatch_pending_signal`, `return_from_signal`)
and `sched/sched.cpp` lines 707-782 (`scheduler_isr`).

`scheduler_isr` goes back to `retry` when the thread it has picked is dead or stopped by the
time it would be resumed. One round is `isrSave`, which stores the registers into the current
thread, `isrPick`, which switches to the next thread, and `isrFinish`, which delivers its
signals and resumes it or goes back. Writes to user memory (the signal frame, `set_child_tid`)
and the switch of the page map are left out.
-/

namespace Fishix.Sched

/-- `cpu::extended_state_size` is the length of the saved state; `sizeof(SignalFrame)`
    (sched/context.hpp:7-20). -/
def signalFrameSize : U64 := 440#64

/-- The first signal of the loop at userland/signal.cpp:62-67. -/
def lowestSignal (accepted : U64) : Option Signal :=
  ((List.range 64).find? fun i => (accepted >>> i) &&& 1#64 ≠ 0#64).map (· + 1)

namespace Kernel

/-- The signals that are pending and not masked. -/
def acceptedSignals (k : Kernel) (t : Tid) : U64 :=
  (k.thread t).pendingSignals &&& ~~~(k.thread t).signalMask

/-- The system call is restarted (userland/signal.cpp:77-81). -/
def restartSyscall (x : Thread) (action : KernelSigaction) : InterruptState :=
  if action.flags &&& SA_RESTART ≠ 0#64 ∧ x.lastSyscallInterrupted ∧
      x.gprState.rip = x.lastSyscallRip then
    { x.gprState with rip := x.gprState.rip - 2#64, rax := x.lastSyscallNum }
  else x.gprState

/-- The stack pointer of a handler (userland/signal.cpp:121-131). -/
def handlerStack (x : Thread) (action : KernelSigaction) (rsp extendedStateSize : U64) : U64 :=
  let rsp := if action.flags &&& SA_ONSTACK ≠ 0#64 ∧ ¬x.signalAltStack.disabled then
    x.signalAltStack.sp + x.signalAltStack.size else rsp - 128#64
  let rsp := alignDown (rsp - extendedStateSize) 64#64
  alignDown (rsp - signalFrameSize) 16#64 - 8#64

/-- The rest of `dispatch_pending_signal` for a handler (userland/signal.cpp:116-171), without
    the stores to the frame. -/
def enterHandler (x : Thread) (action : KernelSigaction) (signal : Signal) (handler : U64) :
    Thread :=
  let size := BitVec.ofNat 64 (x.extendedState.getD []).length
  let frame := handlerStack x action x.gprState.rsp size
  { x with
    signalAltStack := { x.signalAltStack with
      onStack := x.signalAltStack.onStack ∨
        (action.flags &&& SA_ONSTACK ≠ 0#64 ∧ ¬x.signalAltStack.disabled) }
    gprState := { x.gprState with
      rsp := frame
      rip := handler
      rdi := BitVec.ofNat 64 signal
      rsi := frame + 312#64
      rdx := frame + 8#64
      rax := 0#64
      rflags := x.gprState.rflags &&& ~~~(1#64 <<< 8) &&& ~~~(1#64 <<< 10) &&& ~~~(1#64 <<< 16) }
    signalMask := if action.flags &&& SA_NODEFER = 0#64 then
      x.signalMask ||| action.mask ||| getSignalBit signal else x.signalMask ||| action.mask }

/-- What `dispatch_pending_signal` makes of the pending signals of a thread. -/
inductive Delivery
  /-- No signal, or one that is ignored. -/
  | nothing
  /-- A handler is entered. -/
  | handler
  /-- `terminate_process`. -/
  | terminate
  /-- `dequeue_thread` with a stop signal. -/
  | stop
  deriving DecidableEq

/-- The effect of dispatching the pending signals of `t`. -/
def delivery (k : Kernel) (t : Tid) : Delivery :=
  match lowestSignal (k.acceptedSignals t) with
  | none => .nothing
  | some signal =>
    let action := (k.process (k.thread t).process).signalActions signal
    match action.handler with
    | .ign => .nothing
    | .dfl =>
      match signalDefaultAction signal with
      | .ignore => .nothing
      | .continue => .nothing
      | .terminate => .terminate
      | .core => .terminate
      | .stop => .stop
    | .function _ => if action.restorer = 0#64 then .terminate else .handler

/-- `dispatch_pending_signal` (userland/signal.cpp:54-171). -/
def dispatchPendingSignal (k : Kernel) (t : Tid) : Except Panic Kernel :=
  let k := k.updateThread t fun x => { x with enteringSignal := false, enqueuedBySignal := none }
  match lowestSignal (k.acceptedSignals t) with
  | none => .ok k
  | some signal =>
    let k := k.updateThread t fun x =>
      { x with pendingSignals := x.pendingSignals &&& ~~~getSignalBit signal }
    let p := (k.thread t).process
    let action := (k.process p).signalActions signal
    let k := k.updateThread t fun x => { x with gprState := restartSyscall x action }
    match action.handler with
    | .ign => .ok k
    | .dfl =>
      match signalDefaultAction signal with
      | .ignore => .ok k
      | .continue => .ok k
      | .terminate => k.terminateProcess p (some signal)
      | .core => k.terminateProcess p (some signal)
      | .stop => k.dequeueThread t (some signal)
    | .function handler =>
      if action.restorer = 0#64 then k.terminateProcess p (some signal)
      else
        let k := if action.flags &&& SA_RESETHAND ≠ 0#64 then
            k.updateProcess p fun x => { x with
              signalActions := Function.update x.signalActions signal
                { x.signalActions signal with handler := .dfl } }
          else k
        -- `action->handler` is read again after `SA_RESETHAND` has cleared it
        let rip := if action.flags &&& SA_RESETHAND ≠ 0#64 then 0#64 else handler
        .ok (k.updateThread t fun x => enterHandler x action signal rip)

/-- `return_from_signal` (userland/signal.cpp:174-188). -/
def returnFromSignal (k : Kernel) (t : Tid) : Except Panic Kernel := do
  let k := k.updateThread t fun x =>
    { x with
      exitingSignal := false
      signalAltStack := { x.signalAltStack with onStack := false }
      gprState := { x.signalFrame.gpr with
        ds := x.gprState.ds, es := x.gprState.es, err := x.gprState.err, cs := x.gprState.cs
        ss := x.gprState.ss }
      extendedState := x.extendedState.map fun _ => x.signalFrame.fpstate
      signalMask := x.pollSavedSignalMask.getD x.signalFrame.sigmask
      pollSavedSignalMask := none }
  let (_, k) ← k.trigger (k.thread t).signalReturnEvent true intMax
  return k

/-! ### `scheduler_isr` -/

/-- The registers are stored into the current thread (sched/sched.cpp:711-726). -/
def isrSave (k : Kernel) (current : Tid) : Kernel :=
  k.updateThread current fun x =>
    { x with
      gprState := k.cpu.regs
      extendedState := x.extendedState.map fun _ => k.cpu.extended
      gsBase := k.cpu.kernelGsBase
      fsBase := k.cpu.fsBase
      savedUserStack := k.cpu.userStack
      savedKernelStack := k.cpu.kernelStack
      state := if x.state = .running then .ready else x.state }

/-- The thread to switch to (sched/sched.cpp:729-734). -/
def nextThread (k : Kernel) (current : Option Tid) : Except Panic Tid :=
  let fromHead : Except Panic Tid :=
    match (k.schedLinks none).next with
    | none => .error .badPointer
    | some none => .ok k.idleThread
    | some (some t) => .ok t
  match current with
  | none => fromHead
  | some c =>
    match (k.schedLinks (some c)).next with
    | some (some t) => .ok t
    | _ => fromHead

/-- A stopped thread that SIGCONT has enqueued goes on (sched/sched.cpp:753-760). -/
def continueStopped (k : Kernel) (t : Tid) : Except Panic Kernel :=
  if (k.thread t).enqueuedBySignal = some SIGCONT ∧ k.state t = .stopped then do
    let k := k.updateThread t fun x => { x with state := .ready }
    let p := (k.thread t).process
    let k := k.updateProcess p fun x => { x with waitStatus := SIGCONT }
    k.triggerAll (k.process p).continuedEvent
  else .ok k

/-- The CPU is set up for the next thread (sched/sched.cpp:736-760). -/
def isrPick (k : Kernel) (current : Option Tid) : Except Panic (Tid × Kernel) := do
  let t ← k.nextThread current
  assert (k.state t ≠ .blocked ∧ k.state t ≠ .zombie)
  let x := k.thread t
  let k := { k with cpu := { k.cpu with
    userStack := x.savedUserStack
    kernelStack := x.savedKernelStack
    kernelGsBase := if x.gprState.isUser then x.gsBase else k.cpu.address
    runningThread := some t
    fsBase := x.fsBase } }
  let k ← k.continueStopped t
  return (t, k)

/-- Signals are delivered to the picked thread (sched/sched.cpp:762-767). -/
def isrDeliver (k : Kernel) (t : Tid) : Except Panic Kernel :=
  let x := k.thread t
  if x.gprState.isUser then
    if x.enteringSignal then k.dispatchPendingSignal t
    else if x.exitingSignal then k.returnFromSignal t
    else .ok k
  else .ok k

/-- The picked thread is resumed (sched/sched.cpp:776-780). -/
def isrResume (k : Kernel) (t : Tid) : Kernel :=
  let k := k.updateThread t fun x => { x with state := .running }
  { k with cpu := { k.cpu with
    regs := (k.thread t).gprState
    extended := (k.thread t).extendedState.getD k.cpu.extended } }

/-- The end of a round (sched/sched.cpp:762-782): `true` for `goto retry`. -/
def isrFinish (k : Kernel) (t : Tid) : Except Panic (Bool × Kernel) := do
  let k ← k.isrDeliver t
  if k.state t = .zombie ∨ k.state t = .stopped then return (true, k)
  else return (false, k.isrResume t)

end Kernel

end Fishix.Sched
