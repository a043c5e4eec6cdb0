import Fishix.Sched.Event

/-!
# The machine that runs threads

One CPU and the code that runs on it between two scheduler interrupts. A thread runs user code
or kernel code; in kernel code it makes system calls that wake, stop, create or end threads;
`yield` spins until the scheduler interrupt has switched away. `scheduler_isr` and
`exception_handler` (cpu/interrupts/idt.cpp:77-105) run with interrupts disabled: nothing else
happens until they return.

The machine also keeps what no code reads: the registers that the CPU held when each thread was
last switched away from, and every store of `scheduler_isr` into a thread.
-/

namespace Fishix.Sched

open Function (update)

/-- Where the CPU is. -/
inductive Pc
  /-- The running thread is in user mode. -/
  | user
  /-- The running thread is in kernel code. -/
  | kernel
  /-- The running thread waits in `yield` for the scheduler interrupt (sched/sched.cpp:693-699). -/
  | yielding
  /-- `scheduler_isr` is at its label `retry`. -/
  | retry (current : Option Tid)
  /-- `scheduler_isr` has switched to a thread and looks at its signals. -/
  | picked (next : Tid)
  deriving DecidableEq

/-- The running thread runs, in either mode. -/
def Pc.inThread : Pc → Bool
  | .user | .kernel | .yielding => true
  | .retry _ | .picked _ => false

/-- What `scheduler_isr` saves of a thread. -/
structure Context where
  gpr : InterruptState := {}
  extended : Option ExtendedState := none
  gsBase : U64 := 0#64
  fsBase : U64 := 0#64
  userStack : U64 := 0#64
  kernelStack : U64 := 0#64
  deriving DecidableEq

def Thread.context (x : Thread) : Context :=
  ⟨x.gprState, x.extendedState, x.gsBase, x.fsBase, x.savedUserStack, x.savedKernelStack⟩

/-- The registers that code changes as it runs. -/
structure Registers where
  gpr : InterruptState := {}
  extended : ExtendedState := []
  kernelGsBase : U64 := 0#64
  fsBase : U64 := 0#64
  userStack : U64 := 0#64
  kernelStack : U64 := 0#64

namespace Kernel

/-- What the CPU holds, as far as the thread has room for it. -/
def cpuContext (k : Kernel) (t : Tid) : Context :=
  ⟨k.cpu.regs, (k.thread t).extendedState.map fun _ => k.cpu.extended, k.cpu.kernelGsBase,
    k.cpu.fsBase, k.cpu.userStack, k.cpu.kernelStack⟩

def setRegisters (k : Kernel) (r : Registers) : Kernel :=
  { k with cpu := { k.cpu with
    regs := r.gpr, extended := r.extended, kernelGsBase := r.kernelGsBase, fsBase := r.fsBase
    userStack := r.userStack, kernelStack := r.kernelStack } }

/-- The end of `__syscall_handler` (cpu/syscall/syscall.cpp:75-84), without the return value. -/
def syscallEnd (k : Kernel) (t : Tid) : Kernel :=
  let k := k.updateThread t fun x =>
    { x with signalMask := x.pollSavedSignalMask.getD x.signalMask, pollSavedSignalMask := none }
  if ¬(k.thread t).exitingSignal ∧ ¬(k.thread t).enteringSignal ∧ k.hasPendingSignals t then
    k.updateThread t fun x => { x with enteringSignal := true }
  else k

/-- `syscall_rt_sigreturn` (userland/signal.cpp:190-200). -/
def sigreturn (k : Kernel) (t : Tid) (frame : UContext) : Except Panic Kernel := do
  assert (¬(k.thread t).enteringSignal)
  assert (¬(k.thread t).exitingSignal)
  return k.updateThread t fun x => { x with exitingSignal := true, signalFrame := frame }

/-- The process and the thread that `clone_impl` creates (sched/sched.cpp:820-938): `x` carries
    the registers and what the arguments choose, `fork` is a new process. -/
def cloneImpl (k : Kernel) (old t : Tid) (fork : Option Process) (x : Thread) :
    Except Panic Kernel :=
  let p := match fork with
    | none => (k.thread old).process
    | some _ => t
  let k := match fork with
    | none => k
    | some y =>
      let k := k.updateProcess t fun _ => { y with
        threadList := [], numLivingThreads := 0, children := [], isZombie := false
        parent := (k.thread old).process
        signalActions := (k.process (k.thread old).process).signalActions }
      k.updateProcess (k.thread old).process fun z => { z with children := z.children ++ [t] }
  let k := k.updateProcess p fun z => { z with
    threadList := z.threadList ++ [t], numLivingThreads := z.numLivingThreads + 1 }
  let k := k.updateThread t fun _ => { x with
    process := p, listeners := {}, pendingSignals := 0#64, enqueuedBySignal := none
    enteringSignal := false, exitingSignal := false, pollSavedSignalMask := none
    state := .ready }
  let k := { k with used := update k.used t true }
  k.linkThread t

/-- `Thread::~Thread` (sched/sched.cpp:107-121). -/
def destroyThread (k : Kernel) (t : Tid) : Except Panic Kernel := do
  assert (k.state t = .zombie)
  let p := (k.thread t).process
  let k ← (k.updateProcess p fun z => { z with threadList := z.threadList.erase t }).clearListeners t
  let k := k.updateThread t fun x => { x with listeners := {} }
  return { k with used := update k.used t false }

/-- The signal of an exception in user mode (cpu/interrupts/idt.cpp:83-87). -/
def exceptionSignal (vec : ℕ) : Signal :=
  if vec = 0 ∨ vec = 19 then SIGFPE
  else if vec = 6 then SIGILL
  else if vec = 13 then SIGBUS
  else SIGSEGV

/-- The registers are stored into the thread (cpu/interrupts/idt.cpp:91-99). -/
def exceptionSave (k : Kernel) (t : Tid) : Kernel :=
  k.updateThread t fun x =>
    { x with
      gprState := k.cpu.regs
      extendedState := x.extendedState.map fun _ => k.cpu.extended
      gsBase := k.cpu.kernelGsBase
      fsBase := k.cpu.fsBase
      savedUserStack := k.cpu.userStack
      savedKernelStack := k.cpu.kernelStack
      enteringSignal := true }

/-- `exception_handler` for user mode (cpu/interrupts/idt.cpp:80-105). -/
def exceptionHandler (k : Kernel) (t : Tid) (vec : ℕ) : Except Panic Kernel := do
  let k ← k.sendSignal t (exceptionSignal vec)
  let k ← (k.exceptionSave t).dispatchPendingSignal t
  return { k with cpu := { k.cpu with
    regs := (k.thread t).gprState
    extended := (k.thread t).extendedState.getD k.cpu.extended } }

/-- The kernel when `create_init_process` returns (sched/sched.cpp:569-607, kernel.cpp:255-265):
    the main kernel thread runs, the thread of the init process is ready behind it, and the idle
    thread is ready and not in the run list. -/
def booted (idle main init : Thread) : Kernel where
  thread := fun t =>
    if t = 1 then { init with process := 1, listeners := {}, state := .ready }
    else if t = 3 then { idle with process := 2, listeners := {}, state := .ready }
    else if t = 4 then { main with process := 2, listeners := {}, state := .running }
    else { state := .zombie }
  used := fun t => t = 1 ∨ t = 3 ∨ t = 4
  process := fun p =>
    if p = 1 then { threadList := [1], numLivingThreads := 1, parent := 1 }
    else if p = 2 then { threadList := [3, 4], numLivingThreads := 2 }
    else {}
  listenerLinks := fun n => match n with
    | .head e => ⟨some (.head e), some (.head e)⟩
    | .link _ => {}
  schedLinks := fun n =>
    if n = none then ⟨some (some 4), some (some 1)⟩
    else if n = some 4 then ⟨some (some 1), some none⟩
    else if n = some 1 then ⟨some none, some (some 4)⟩
    else {}
  idleThread := 3
  initProcess := 1
  cpu := { runningThread := some 4 }

end Kernel

/-- A store of `scheduler_isr` into a thread, with what the CPU held when the thread was last
    switched away from. -/
structure Store where
  thread : Tid
  stored : Context
  held : Context
  deriving DecidableEq

structure Machine where
  kernel : Kernel
  pc : Pc := .kernel
  /-- What the CPU held when the thread was last switched away from. -/
  held : Tid → Context := fun _ => {}
  /-- The thread that the scheduler interrupt has interrupted. -/
  interrupted : Option Tid := none
  /-- The stores of `scheduler_isr`, the last one first. -/
  stores : List Store := []

/-- What happens next. -/
inductive Op
  /-- The running thread computes. -/
  | compute (r : Registers)
  /-- A system call begins. -/
  | syscall (r : Registers)
  /-- A system call returns. -/
  | sysret (r : Registers)
  | sigreturn (frame : UContext)
  | sigaction (signal : Signal) (action : KernelSigaction)
  | sigprocmask (mask : U64)
  | sendSignal (t : Tid) (signal : Signal)
  | trigger (e : EventId) (drop : Bool) (maxToWake : ℤ)
  | enqueue (t : Tid) (signal : Option Signal)
  /-- `Event::wait` of the running thread. -/
  | wait (events : List (Option EventId)) (nonblocking : Bool)
  /-- `Event::wait` when its thread runs again. -/
  | waitEnd
  | yield
  /-- `terminate_self` (sched/sched.cpp:681-689). -/
  | terminateSelf (wholeProcess : Bool)
  | dequeue (t : Tid) (stopSignal : Option Signal)
  | terminateThread (t : Tid) (signal : Option Signal)
  | terminateProcess (p : Pid) (signal : Option Signal)
  | clone (t : Tid) (fork : Option Process) (x : Thread)
  | destroy (t : Tid)
  /-- An exception in user mode. -/
  | exception (vec : ℕ)
  /-- The scheduler interrupt begins. -/
  | interrupt
  /-- `scheduler_isr` from `retry` until the next thread is set up (sched/sched.cpp:710-760). -/
  | select
  /-- The rest of the round (sched/sched.cpp:762-782). -/
  | finish

namespace Machine

/-- The running thread. -/
def running (m : Machine) : Option Tid := m.kernel.cpu.runningThread

/-- A function of the kernel is called. -/
def call (m : Machine) (k : Except Panic Kernel) (pc : Pc) : Except Panic Machine := do
  let k ← k
  return { m with kernel := k, pc }

/-- What an operation does where the code allows it. -/
def act (m : Machine) (op : Op) (r : Tid) : Except Panic Machine :=
  let k := m.kernel
  match op, m.pc with
  | .syscall c, .user => .ok { m with kernel := k.setRegisters c, pc := .kernel }
  | .exception vec, .user => m.call (k.exceptionHandler r vec) .user
  | .sysret c, .kernel => .ok { m with kernel := (k.syscallEnd r).setRegisters c, pc := .user }
  | .sigreturn frame, .kernel => m.call (k.sigreturn r frame) .kernel
  | .sigaction s a, .kernel =>
    -- SIGKILL and SIGSTOP keep their actions (userland/signal.cpp:221-222)
    if s = 0 ∨ 64 ≤ s ∨ s = 9 ∨ s = 19 then .ok m
    else m.call (.ok (k.updateProcess (k.thread r).process fun x =>
      { x with signalActions := update x.signalActions s a })) .kernel
  | .sigprocmask mask, .kernel =>
    m.call (.ok (k.updateThread r fun x => { x with signalMask := mask })) .kernel
  | .wait events nonblocking, .kernel => do
    let (result, k) ← k.wait r events nonblocking
    return { m with kernel := k, pc := if result = .asleep then .yielding else .kernel }
  | .waitEnd, .kernel => m.call (do let (_, k) ← k.waitEnd r; return k) .kernel
  | .yield, .kernel => .ok { m with pc := .yielding }
  | .terminateSelf true, .kernel =>
    m.call (k.terminateProcess (k.thread r).process none) .yielding
  | .terminateSelf false, .kernel => m.call (k.terminateThread r none) .yielding
  | .dequeue t s, .kernel => if t = r then .ok m else m.call (k.dequeueThread t s) .kernel
  | .terminateThread t s, .kernel =>
    if t = r then .ok m else m.call (k.terminateThread t s) .kernel
  | .terminateProcess p s, .kernel =>
    if r ∈ (k.process p).threadList then .ok m else m.call (k.terminateProcess p s) .kernel
  | .clone t fork x, .kernel =>
    if k.used t then .ok m
    else do
      let k ← k.cloneImpl r t fork x
      return { m with kernel := k, held := update m.held t (k.thread t).context }
  | .destroy t, .kernel => m.call (k.destroyThread t) .kernel
  | _, _ => .ok m

/-- One step. What the code does not do at this point does nothing. -/
def step (m : Machine) (op : Op) : Except Panic Machine :=
  let k := m.kernel
  match op, m.pc with
  | .select, .retry current => do
    let saved := match current with
      | none => m
      | some c =>
        let k := k.isrSave c
        { m with kernel := k, stores := ⟨c, (k.thread c).context, m.held c⟩ :: m.stores }
    let (t, k) ← saved.kernel.isrPick current
    return { saved with kernel := k, pc := .picked t }
  | .finish, .picked t => do
    let (again, k) ← k.isrFinish t
    return { m with
      kernel := k
      pc := if again then .retry (some t) else if k.cpu.regs.isUser then .user else .kernel }
  | op, pc =>
    if pc.inThread then
      match op with
      | .interrupt => .ok { m with
          pc := .retry m.running
          interrupted := m.running
          held := match m.running with
            | none => m.held
            | some r => update m.held r (k.cpuContext r) }
      | .compute c =>
        if c.gpr.isUser = (pc = .user) then .ok { m with kernel := k.setRegisters c } else .ok m
      | .sendSignal t s => m.call (k.sendSignal t s) pc
      | .trigger e drop n => m.call (do let (_, k) ← k.trigger e drop n; return k) pc
      | .enqueue t s => m.call (k.enqueueThread t s) pc
      | op =>
        match m.running with
        | none => .ok m
        | some r => m.act op r
    else .ok m

/-- The machine when the init process has been created. -/
def booted (idle main init : Thread) : Machine where
  kernel := .booted idle main init
  held := fun t => ((Kernel.booted idle main init).thread t).context

/-- All that a step can do. -/
inductive Effect (m : Machine) : Op → Machine → Prop
  | nothing {op : Op} : Effect m op m
  | compute {c : Registers} (pc : m.pc.inThread) (mode : c.gpr.isUser = (m.pc = .user)) :
      Effect m (.compute c) { m with kernel := m.kernel.setRegisters c }
  | syscall {c : Registers} (pc : m.pc = .user) :
      Effect m (.syscall c) { m with kernel := m.kernel.setRegisters c, pc := .kernel }
  | sysret {c : Registers} {r : Tid} (pc : m.pc = .kernel) (running : m.running = some r) :
      Effect m (.sysret c)
        { m with kernel := (m.kernel.syscallEnd r).setRegisters c, pc := .user }
  | sigreturn {f : UContext} {r : Tid} {k : Kernel} (pc : m.pc = .kernel)
      (running : m.running = some r) (hk : m.kernel.sigreturn r f = .ok k) :
      Effect m (.sigreturn f) { m with kernel := k }
  | sigaction {s : Signal} {a : KernelSigaction} {p : Pid} (pc : m.pc = .kernel) :
      Effect m (.sigaction s a) { m with kernel := m.kernel.updateProcess p fun x =>
        { x with signalActions := update x.signalActions s a } }
  | sigprocmask {mask : U64} {r : Tid} (pc : m.pc = .kernel) (running : m.running = some r) :
      Effect m (.sigprocmask mask) { m with
        kernel := m.kernel.updateThread r fun x => { x with signalMask := mask } }
  | sendSignal {t : Tid} {s : Signal} {k : Kernel} (pc : m.pc.inThread)
      (hk : m.kernel.sendSignal t s = .ok k) : Effect m (.sendSignal t s) { m with kernel := k }
  | trigger {e : EventId} {drop : Bool} {n n' : ℤ} {k : Kernel} (pc : m.pc.inThread)
      (hk : m.kernel.trigger e drop n = .ok (n', k)) :
      Effect m (.trigger e drop n) { m with kernel := k }
  | enqueue {t : Tid} {s : Option Signal} {k : Kernel} (pc : m.pc.inThread)
      (hk : m.kernel.enqueueThread t s = .ok k) : Effect m (.enqueue t s) { m with kernel := k }
  | wait {r : Tid} {events : List (Option EventId)} {nonblocking : Bool} {result : WaitResult}
      {k : Kernel} (pc : m.pc = .kernel) (running : m.running = some r)
      (hk : m.kernel.wait r events nonblocking = .ok (result, k)) (awake : result ≠ .asleep) :
      Effect m (.wait events nonblocking) { m with kernel := k }
  | sleep {r : Tid} {events : List (Option EventId)} {nonblocking : Bool} {k : Kernel}
      (pc : m.pc = .kernel) (running : m.running = some r)
      (hk : m.kernel.wait r events nonblocking = .ok (.asleep, k)) :
      Effect m (.wait events nonblocking) { m with kernel := k, pc := .yielding }
  | waitEnd {r : Tid} {result : WaitResult} {k : Kernel} (pc : m.pc = .kernel)
      (running : m.running = some r) (hk : m.kernel.waitEnd r = .ok (result, k)) :
      Effect m .waitEnd { m with kernel := k }
  | yield (pc : m.pc = .kernel) : Effect m .yield { m with pc := .yielding }
  | exitGroup {r : Tid} {k : Kernel} (pc : m.pc = .kernel) (running : m.running = some r)
      (hk : m.kernel.terminateProcess (m.kernel.thread r).process none = .ok k) :
      Effect m (.terminateSelf true) { m with kernel := k, pc := .yielding }
  | exit {r : Tid} {k : Kernel} (pc : m.pc = .kernel) (running : m.running = some r)
      (hk : m.kernel.terminateThread r none = .ok k) :
      Effect m (.terminateSelf false) { m with kernel := k, pc := .yielding }
  | dequeue {t r : Tid} {s : Option Signal} {k : Kernel} (pc : m.pc = .kernel)
      (running : m.running = some r) (ne : t ≠ r) (hk : m.kernel.dequeueThread t s = .ok k) :
      Effect m (.dequeue t s) { m with kernel := k }
  | terminateThread {t r : Tid} {s : Option Signal} {k : Kernel} (pc : m.pc = .kernel)
      (running : m.running = some r) (ne : t ≠ r) (hk : m.kernel.terminateThread t s = .ok k) :
      Effect m (.terminateThread t s) { m with kernel := k }
  | terminateProcess {p : Pid} {r : Tid} {s : Option Signal} {k : Kernel} (pc : m.pc = .kernel)
      (running : m.running = some r) (ne : r ∉ (m.kernel.process p).threadList)
      (hk : m.kernel.terminateProcess p s = .ok k) :
      Effect m (.terminateProcess p s) { m with kernel := k }
  | clone {t r : Tid} {fork : Option Process} {x : Thread} {k : Kernel} (pc : m.pc = .kernel)
      (running : m.running = some r) (unused : m.kernel.used t = false)
      (hk : m.kernel.cloneImpl r t fork x = .ok k) :
      Effect m (.clone t fork x) { m with
        kernel := k, held := update m.held t (k.thread t).context }
  | destroy {t : Tid} {k : Kernel} (pc : m.pc = .kernel)
      (hk : m.kernel.destroyThread t = .ok k) : Effect m (.destroy t) { m with kernel := k }
  | exception {vec : ℕ} {r : Tid} {k : Kernel} (pc : m.pc = .user) (running : m.running = some r)
      (hk : m.kernel.exceptionHandler r vec = .ok k) :
      Effect m (.exception vec) { m with kernel := k }
  | interruptIdle (pc : m.pc.inThread) (running : m.running = none) :
      Effect m .interrupt { m with pc := .retry none, interrupted := none }
  | interrupt {r : Tid} (pc : m.pc.inThread) (running : m.running = some r) :
      Effect m .interrupt { m with
        pc := .retry (some r), interrupted := some r
        held := update m.held r (m.kernel.cpuContext r) }
  | selectFirst {t : Tid} {k : Kernel} (pc : m.pc = .retry none)
      (hk : m.kernel.isrPick none = .ok (t, k)) :
      Effect m .select { m with kernel := k, pc := .picked t }
  | select {c t : Tid} {k : Kernel} (pc : m.pc = .retry (some c))
      (hk : (m.kernel.isrSave c).isrPick (some c) = .ok (t, k)) :
      Effect m .select { m with
        kernel := k, pc := .picked t
        stores := ⟨c, ((m.kernel.isrSave c).thread c).context, m.held c⟩ :: m.stores }
  | again {t : Tid} {k : Kernel} (pc : m.pc = .picked t)
      (hk : m.kernel.isrFinish t = .ok (true, k)) :
      Effect m .finish { m with kernel := k, pc := .retry (some t) }
  | resume {t : Tid} {k : Kernel} (pc : m.pc = .picked t)
      (hk : m.kernel.isrFinish t = .ok (false, k)) :
      Effect m .finish { m with
        kernel := k, pc := if k.cpu.regs.isUser then .user else .kernel }

theorem call_ok_iff {m m' : Machine} {x : Except Panic Kernel} {pc : Pc} :
    m.call x pc = .ok m' ↔ ∃ k, x = .ok k ∧ m' = { m with kernel := k, pc } := by
  unfold call
  rw [bind_ok_iff]
  constructor
  · rintro ⟨k, hk, h⟩
    exact ⟨k, hk, (Except.ok.inj h).symm⟩
  · rintro ⟨k, hk, rfl⟩
    exact ⟨k, hk, rfl⟩

/-- A call that leaves the CPU where it is. -/
theorem call_here {m m' : Machine} {x : Except Panic Kernel} {pc : Pc} (hpc : m.pc = pc)
    (h : m.call x pc = .ok m') : ∃ k, x = .ok k ∧ m' = { m with kernel := k } := by
  obtain ⟨k, hk, rfl⟩ := call_ok_iff.mp h
  exact ⟨k, hk, by rw [← hpc]⟩

theorem act_effect {m m' : Machine} {op : Op} {r : Tid} (hr : m.running = some r)
    (h : m.act op r = .ok m') : Effect m op m' := by
  unfold act at h
  simp only at h
  split at h
  · rename_i c hpc
    cases h
    exact .syscall hpc
  · rename_i vec hpc
    obtain ⟨k, hk, rfl⟩ := call_here hpc h
    exact .exception hpc hr hk
  · rename_i c hpc
    cases h
    exact .sysret hpc hr
  · rename_i frame hpc
    obtain ⟨k, hk, rfl⟩ := call_here hpc h
    exact .sigreturn hpc hr hk
  · rename_i signal action hpc
    split_ifs at h
    · cases h
      exact .nothing
    · obtain ⟨k, hk, rfl⟩ := call_here hpc h
      cases hk
      exact .sigaction hpc
  · rename_i mask hpc
    obtain ⟨k, hk, rfl⟩ := call_here hpc h
    cases hk
    exact .sigprocmask hpc hr
  · rename_i events nonblocking hpc
    obtain ⟨⟨result, k⟩, hk, rfl⟩ := bind_pure_ok h
    by_cases hasleep : result = .asleep
    · subst hasleep
      exact .sleep hpc hr hk
    · simp only [if_neg hasleep, ← hpc]
      exact .wait hpc hr hk hasleep
  · rename_i hpc
    obtain ⟨k, hk, rfl⟩ := call_here hpc h
    obtain ⟨⟨result, k1⟩, hend, rfl⟩ := bind_pure_ok hk
    exact .waitEnd hpc hr hend
  · rename_i hpc
    cases h
    exact .yield hpc
  · rename_i hpc
    obtain ⟨k, hk, rfl⟩ := call_ok_iff.mp h
    exact .exitGroup hpc hr hk
  · rename_i hpc
    obtain ⟨k, hk, rfl⟩ := call_ok_iff.mp h
    exact .exit hpc hr hk
  · rename_i t s hpc
    split_ifs at h with ht
    · cases h
      exact .nothing
    · obtain ⟨k, hk, rfl⟩ := call_here hpc h
      exact .dequeue hpc hr ht hk
  · rename_i t s hpc
    split_ifs at h with ht
    · cases h
      exact .nothing
    · obtain ⟨k, hk, rfl⟩ := call_here hpc h
      exact .terminateThread hpc hr ht hk
  · rename_i p s hpc
    split_ifs at h with hp
    · cases h
      exact .nothing
    · obtain ⟨k, hk, rfl⟩ := call_here hpc h
      exact .terminateProcess hpc hr hp hk
  · rename_i t fork x hpc
    split_ifs at h with ht
    · cases h
      exact .nothing
    · obtain ⟨k, hk, rfl⟩ := bind_pure_ok h
      exact .clone hpc hr (by simpa using ht) hk
  · rename_i t hpc
    obtain ⟨k, hk, rfl⟩ := call_here hpc h
    exact .destroy hpc hk
  · cases h
    exact .nothing

theorem step_effect {m m' : Machine} {op : Op} (h : m.step op = .ok m') : Effect m op m' := by
  unfold step at h
  simp only at h
  split at h
  · rename_i current hpc
    obtain ⟨⟨t, k⟩, hk, rfl⟩ := bind_pure_ok h
    cases current with
    | none => exact .selectFirst hpc hk
    | some c => exact .select hpc hk
  · rename_i t hpc
    obtain ⟨⟨again, k⟩, hk, rfl⟩ := bind_pure_ok h
    cases again with
    | true => exact .again hpc hk
    | false => exact .resume hpc hk
  · split_ifs at h with hpc
    · split at h
      · cases h
        cases hr : m.running with
        | none => exact .interruptIdle hpc hr
        | some r => exact .interrupt hpc hr
      · split_ifs at h with hmode
        · cases h
          exact .compute hpc hmode
        · cases h
          exact .nothing
      · obtain ⟨k, hk, rfl⟩ := call_here rfl h
        exact .sendSignal hpc hk
      · obtain ⟨k, hk, rfl⟩ := call_here rfl h
        obtain ⟨⟨n, k1⟩, htrigger, rfl⟩ := bind_pure_ok hk
        exact .trigger hpc htrigger
      · obtain ⟨k, hk, rfl⟩ := call_here rfl h
        exact .enqueue hpc hk
      · split at h
        · cases h
          exact .nothing
        · rename_i r hr
          exact act_effect hr h
    · cases h
      exact .nothing

end Machine

/-! ## Runs on given inputs -/

/-- A run of any steps. -/
def AnyStep (_ : Machine) (_ : Op) : Prop := True

/-- The code segment of user mode (cpu/gdt/gdt.hpp). -/
def userFrame (rip : U64) : InterruptState := { cs := 0x23#64, rip }

/-- A switch to the next thread. -/
def switchOps : List Op := [.interrupt, .select, .finish]

/-- The init process has user code to run. -/
def initThread : Thread := { gprState := userFrame 0x1000#64 }


/-- The init process forks a child, thread 5. -/
def forkOps : List Op :=
  [.syscall {}, .clone 5 (some {}) { gprState := userFrame 0x5000#64 },
    .sysret { gpr := userFrame 0x1000#64 }]

/-- The child raises SIGSTOP. -/
def raiseStopOps : List Op :=
  [.syscall {}, .sendSignal 5 19, .sysret { gpr := userFrame 0x5002#64 }]

/-- The init process forks, and its child raises SIGSTOP; the scheduler goes round, and the child is
    stopped when its turn comes. The init process is in a system call again. -/
def childStopped : List Op :=
  [switchOps, forkOps, switchOps, raiseStopOps, switchOps, switchOps,
    [.interrupt, .select, .finish, .select, .finish], switchOps, [.syscall {}]].flatten

/-! ## What the functions do -/

theorem exceptionSignal_ne (vec : ℕ) : Kernel.exceptionSignal vec ≠ SIGCONT := by
  unfold Kernel.exceptionSignal
  split_ifs <;> decide

theorem exceptionSave_state {k : Kernel} {t : Tid} (u : Tid) :
    (k.exceptionSave t).state u = k.state u :=
  Kernel.updateThread_state k t _ rfl u

theorem exceptionSave_delivery {k : Kernel} {t : Tid} :
    (k.exceptionSave t).delivery t = k.delivery t := by
  simp [Kernel.delivery, Kernel.acceptedSignals, Kernel.exceptionSave]

theorem sigreturn_eq {k k' : Kernel} {t : Tid} {frame : UContext}
    (h : k.sigreturn t frame = .ok k') :
    k' = k.updateThread t fun x => { x with exitingSignal := true, signalFrame := frame } := by
  unfold Kernel.sigreturn at h
  obtain ⟨u1, -, h⟩ := bind_ok h
  obtain ⟨u2, -, h⟩ := bind_ok h
  exact (Except.ok.inj h).symm

theorem exceptionHandler_cases {k k' : Kernel} {t : Tid} {vec : ℕ}
    (h : k.exceptionHandler t vec = .ok k') :
    ∃ k1 k2, k.sendSignal t (Kernel.exceptionSignal vec) = .ok k1 ∧
      (k1.exceptionSave t).dispatchPendingSignal t = .ok k2 ∧
      k' = { k2 with cpu := { k2.cpu with
        regs := (k2.thread t).gprState
        extended := (k2.thread t).extendedState.getD k2.cpu.extended } } := by
  unfold Kernel.exceptionHandler at h
  obtain ⟨k1, h1, h⟩ := bind_ok h
  obtain ⟨k2, h2, h⟩ := bind_ok h
  exact ⟨k1, k2, h1, h2, (Except.ok.inj h).symm⟩

/-- What `clone_impl` does to the threads and the run list. -/
theorem cloneImpl_cases {k k' : Kernel} {old t : Tid} {fork : Option Process} {x : Thread}
    (h : k.cloneImpl old t fork x = .ok k') :
    ∃ y l, y.state = .ready ∧ y.listeners = {} ∧ k.schedLinks.addBefore none (some t) = some l ∧
      k'.schedLinks = l ∧ k'.thread = update k.thread t y ∧
      k'.used = update k.used t true ∧ k'.idleThread = k.idleThread ∧ k'.cpu = k.cpu := by
  unfold Kernel.cloneImpl at h
  obtain ⟨l, hl, rfl⟩ := bind_pure_ok h
  have hl := orPanic_ok_iff.mp hl
  cases fork with
  | none => exact ⟨_, l, rfl, rfl, hl, rfl, rfl, rfl, rfl, rfl⟩
  | some z => exact ⟨_, l, rfl, rfl, hl, rfl, rfl, rfl, rfl, rfl⟩

theorem destroyThread_cases {k k' : Kernel} {t : Tid} (h : k.destroyThread t = .ok k') :
    k.state t = .zombie ∧ ∃ k1, ListensOnly k k1 ∧
      k' = { k1 with used := update k.used t false } := by
  unfold Kernel.destroyThread at h
  obtain ⟨u, hassert, h⟩ := bind_ok h
  obtain ⟨k1, hclear, rfl⟩ := bind_pure_ok h
  have hl := clearListeners_frame hclear
  have hprocess : ListensOnly k (k.updateProcess (k.thread t).process fun z =>
      { z with threadList := z.threadList.erase t }) := { ListensOnly.refl k with }
  have hall := (hprocess.trans hl).trans (.updateThread (t := t) {})
  refine ⟨by simpa using assert_ok_iff.mp hassert, _, hall, ?_⟩
  have hused : k1.used = k.used := hl.used
  simp [hused]

/-! ## What the scheduler leaves alone -/

/-- The listeners of all threads and the lists of all events are the same. -/
structure SameListeners (k k' : Kernel) : Prop where
  vector : ∀ u, (k'.thread u).listeners = (k.thread u).listeners
  used : k'.used = k.used
  numListeners : ∀ e, (k'.event e).numListeners = (k.event e).numListeners
  listener : k'.listener = k.listener
  listenerLinks : k'.listenerLinks = k.listenerLinks
  nextBuffer : k'.nextBuffer = k.nextBuffer

/-- The saved registers of all threads and the CPU are the same, too. -/
structure SameContexts (k k' : Kernel) : Prop extends SameListeners k k' where
  context : ∀ u, (k'.thread u).context = (k.thread u).context
  cpu : k'.cpu = k.cpu

section SameContexts

variable {k k' k'' : Kernel} {t u : Tid} {s : Option Signal}

theorem SameListeners.refl (k : Kernel) : SameListeners k k :=
  ⟨fun _ => rfl, rfl, fun _ => rfl, rfl, rfl, rfl⟩

theorem SameListeners.trans (h : SameListeners k k') (h' : SameListeners k' k'') :
    SameListeners k k'' :=
  ⟨fun u => (h'.vector u).trans (h.vector u), h'.used.trans h.used,
    fun e => (h'.numListeners e).trans (h.numListeners e), h'.listener.trans h.listener,
    h'.listenerLinks.trans h.listenerLinks, h'.nextBuffer.trans h.nextBuffer⟩

theorem sameListeners_updateThread {f : Thread → Thread}
    (hv : ∀ x, (f x).listeners = x.listeners) : SameListeners k (k.updateThread t f) := by
  refine { SameListeners.refl k with vector := ?_ }
  intro u
  by_cases hu : u = t
  · subst hu
    rw [Kernel.updateThread_thread_self, hv]
  · rw [Kernel.updateThread_thread_of_ne _ _ _ _ hu]

theorem SameContexts.refl (k : Kernel) : SameContexts k k :=
  { SameListeners.refl k with context := fun _ => rfl, cpu := rfl }

theorem SameContexts.trans (h : SameContexts k k') (h' : SameContexts k' k'') :
    SameContexts k k'' :=
  { h.toSameListeners.trans h'.toSameListeners with
    context := fun u => (h'.context u).trans (h.context u)
    cpu := h'.cpu.trans h.cpu }

theorem Quiet.sameContexts (h : Quiet k k') : SameContexts k k' := by
  refine ⟨⟨?_, h.used, h.numListeners, h.listener, h.listenerLinks, h.nextBuffer⟩, ?_, h.cpu⟩
  · intro u
    obtain ⟨w, s, q, st, ht, -⟩ := h.thread u
    rw [ht]
  · intro u
    obtain ⟨w, s, q, st, ht, -⟩ := h.thread u
    rw [ht]
    rfl

theorem sameContexts_updateThread {f : Thread → Thread} (hf : ∀ x, (f x).context = x.context)
    (hv : ∀ x, (f x).listeners = x.listeners) : SameContexts k (k.updateThread t f) := by
  refine { sameListeners_updateThread hv with context := ?_, cpu := rfl }
  intro u
  by_cases hu : u = t
  · subst hu
    rw [Kernel.updateThread_thread_self, hf]
  · rw [Kernel.updateThread_thread_of_ne _ _ _ _ hu]

theorem sameContexts_setAside {l : Links (Option Tid)} {st : ThreadState} :
    SameContexts k (k.setAside l t st) := by
  exact { sameContexts_updateThread (k := { k with schedLinks := l }) (t := t)
    (f := fun x => { x with state := st }) (fun _ => rfl) (fun _ => rfl) with }

theorem sameContexts_enqueueThread (h : k.enqueueThread t s = .ok k') : SameContexts k k' := by
  obtain rfl | ⟨-, l, -, rfl⟩ := enqueueThread_cases h
  · exact .refl k'
  · exact { sameContexts_updateThread (k := { k with schedLinks := l }) (t := t)
      (f := fun x => { x with
        enqueuedBySignal := s, state := if k.state t = .blocked then .ready else x.state })
      (fun _ => rfl) (fun _ => rfl) with }

theorem sameContexts_sendSignal {s : Signal} (h : k.sendSignal t s = .ok k') :
    SameContexts k k' := by
  unfold Kernel.sendSignal at h
  obtain ⟨k1, h1, h⟩ := bind_ok h
  refine .trans (.trans ?_ (sameContexts_enqueueThread h1))
    (Wakes.quiet (wakes_triggerAll h)).sameContexts
  exact sameContexts_updateThread (fun _ => rfl) (fun _ => rfl)

theorem sameContexts_dequeueThread (h : k.dequeueThread t s = .ok k') : SameContexts k k' := by
  obtain ⟨-, l, -, hw⟩ := dequeueThread_cases h
  exact sameContexts_setAside.trans (Wakes.quiet hw).sameContexts

theorem sameContexts_terminateThread (h : k.terminateThread t s = .ok k') : SameContexts k k' := by
  obtain ⟨-, rfl⟩ | ⟨-, l, -, hw⟩ := terminateThread_cases h
  · exact .refl k'
  · exact sameContexts_setAside.trans (Wakes.quiet hw).sameContexts

theorem sameContexts_terminateProcess {p : Pid} (h : k.terminateProcess p s = .ok k') :
    SameContexts k k' := by
  unfold Kernel.terminateProcess at h
  exact foldlM_ok_invariant (SameContexts k) (.refl k)
    (fun _ _ _ _ hk hstep => hk.trans (sameContexts_terminateThread hstep)) h

/-- Only the marks of a dispatched signal change saved registers. -/
theorem dispatch_same (h : k.dispatchPendingSignal t = .ok k') :
    ∃ k1, Dispatched k t k1 ∧ SameContexts k1 k' := by
  obtain ⟨k1, hd, hcases⟩ := dispatch_cases h
  refine ⟨k1, hd, ?_⟩
  cases hdel : k.delivery t with
  | nothing | handler =>
    simp only [hdel] at hcases
    subst hcases
    exact .refl k'
  | terminate =>
    simp only [hdel] at hcases
    obtain ⟨signal, hterm⟩ := hcases
    exact sameContexts_terminateProcess hterm
  | stop =>
    simp only [hdel] at hcases
    obtain ⟨signal, hstop⟩ := hcases
    exact sameContexts_dequeueThread hstop

theorem dispatch_contexts (h : k.dispatchPendingSignal t = .ok k') :
    (∀ u, u ≠ t → (k'.thread u).context = (k.thread u).context) ∧ k'.used = k.used ∧
      k'.cpu = k.cpu := by
  obtain ⟨k1, hd, hsame⟩ := dispatch_same h
  refine ⟨?_, hsame.used.trans hd.used, hsame.cpu.trans hd.cpu⟩
  intro u hu
  rw [hsame.context, hd.thread_of_ne hu]

theorem deliver_contexts (h : k.isrDeliver t = .ok k') :
    (∀ u, u ≠ t → (k'.thread u).context = (k.thread u).context) ∧ k'.used = k.used ∧
      k'.cpu = k.cpu := by
  obtain rfl | ⟨-, -, h⟩ | ⟨f, -, -, -, hw⟩ := deliver_cases h
  · exact ⟨fun _ _ => rfl, rfl, rfl⟩
  · exact dispatch_contexts h
  · have hsame := (Wakes.quiet hw).sameContexts
    refine ⟨?_, hsame.used, hsame.cpu⟩
    intro u hu
    rw [hsame.context, Kernel.updateThread_thread_of_ne _ _ _ _ hu]

theorem sameContexts_continueStopped (h : k.continueStopped t = .ok k') : SameContexts k k' := by
  obtain ⟨rfl, -⟩ | ⟨-, hw⟩ := continueStopped_cases h
  · exact .refl k'
  · refine .trans ?_ (Wakes.quiet hw).sameContexts
    exact sameContexts_updateThread (fun _ => rfl) (fun _ => rfl)

/-- A signal to another thread leaves a thread that does not sleep as it is. -/
theorem sendSignal_state {s : Signal} (h : k.sendSignal t s = .ok k') (hu : k.state u ≠ .blocked) :
    k'.state u = k.state u := by
  unfold Kernel.sendSignal at h
  obtain ⟨k1, h1, h⟩ := bind_ok h
  have hmark : (k.updateThread t fun x =>
      { x with pendingSignals := x.pendingSignals ||| getSignalBit s }).state u = k.state u :=
    Kernel.updateThread_state k t _ rfl u
  have h2 := enqueueThread_state h1 (by rw [hmark]; exact hu)
  rw [(Wakes.quiet (wakes_triggerAll h)).state_of_ne_blocked (by rw [h2, hmark]; exact hu), h2,
    hmark]

end SameContexts

end Fishix.Sched
