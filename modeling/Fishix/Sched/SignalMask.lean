import Fishix.Sched.Machine

/-!
# Who writes signal masks

`signal_mask` is written by `rt_sigprocmask` (userland/signal.cpp:202-216), by `ppoll` and
`epoll_pwait`, which install the caller's mask and keep the old one (fs/vfs.cpp:846-854,
userland/epoll.cpp:143-150), by the end of every system call, which puts the old one back
(cpu/syscall/syscall.cpp:75-78), by the dispatch of a signal to a handler, by the return from the
handler, and by `clone` in the new thread. `SignalMachine` is the machine of `Machine.lean` with
these calls as the source has them; it also keeps, for no code to read, which signals have been
dispatched.

Only `rt_sigaction` refuses SIGKILL and SIGSTOP. `CleanStep` is that no step takes them over from
the user's memory.

* `dispatch_signals`: what a dispatch does to the masks.
* `masks_clean`: in every run of such steps no mask blocks SIGKILL or SIGSTOP.
* `sigkill_blocked`: one call that blocks SIGKILL.
-/

namespace Fishix.Sched

def SIGKILL : Signal := 9
def SIGSTOP : Signal := 19

/-! ## The machine with its signal calls -/

/-- `how` of `rt_sigprocmask`. -/
inductive How
  /-- `SIG_BLOCK`. -/
  | block
  /-- `SIG_UNBLOCK`. -/
  | unblock
  /-- `SIG_SETMASK`. -/
  | setmask
  /-- Anything else. -/
  | invalid
  deriving DecidableEq

/-- The mask that `rt_sigprocmask` leaves (userland/signal.cpp:207-214). -/
def newMask (how : How) (set mask : U64) : U64 :=
  match how with
  | .block => mask ||| set
  | .unblock => mask &&& ~~~set
  | .setmask => set
  | .invalid => mask

/-- `ppoll_impl` and `epoll_pwait_impl` install a mask (fs/vfs.cpp:847-851,
    userland/epoll.cpp:144-148). -/
def Kernel.installMask (k : Kernel) (t : Tid) (sigmask : U64) : Except Panic Kernel := do
  assert ((k.thread t).pollSavedSignalMask = none)
  return k.updateThread t fun x =>
    { x with pollSavedSignalMask := some x.signalMask, signalMask := sigmask }

/-- The machine, and the signals dispatched so far, the last one first. -/
structure SignalMachine where
  machine : Machine
  dispatched : List (Tid × Signal) := []

inductive SignalOp
  | rtSigprocmask (how : How) (set : U64)
  | rtSigaction (signum : Signal) (act : KernelSigaction)
  /-- `ppoll` or `epoll_pwait` with a `sigmask` begins; its wait is a step of the machine. -/
  | poll (sigmask : U64)
  | clone (t : Tid) (fork : Option Process) (x : Thread)
  /-- Any other step of the machine. -/
  | other (op : Op)

/-- The steps that are calls of their own here. -/
def Op.isSignalCall : Op → Bool
  | .sigprocmask _ | .sigaction _ _ | .clone _ _ _ => true
  | _ => false

namespace SignalMachine

/-- The signals that a step of the machine dispatches. -/
def taken (m : Machine) : Op → List (Tid × Signal)
  | .finish =>
    match m.pc with
    | .picked t =>
      if (m.kernel.thread t).gprState.isUser ∧ (m.kernel.thread t).enteringSignal then
        (lowestSignal (m.kernel.acceptedSignals t)).toList.map (t, ·)
      else []
    | _ => []
  | .exception vec =>
    match m.pc, m.running with
    | .user, some r =>
      match m.kernel.sendSignal r (Kernel.exceptionSignal vec) with
      | .ok k => (lowestSignal (k.acceptedSignals r)).toList.map (r, ·)
      | .error _ => []
    | _, _ => []
  | _ => []

/-- A step of the machine. -/
def perform (s : SignalMachine) (op : Op) : Except Panic SignalMachine := do
  let machine ← s.machine.step op
  return { machine, dispatched := taken s.machine op ++ s.dispatched }

/-- One step. What the code does not do at this point does nothing. -/
def step (s : SignalMachine) (op : SignalOp) : Except Panic SignalMachine :=
  let m := s.machine
  match m.running with
  | none =>
    match op with
    | .other op => if op.isSignalCall then .ok s else s.perform op
    | _ => .ok s
  | some r =>
    match op with
    | .rtSigprocmask how set =>
      s.perform (.sigprocmask (newMask how set (m.kernel.thread r).signalMask))
    | .rtSigaction signum act =>
      -- `flags` is cut to an `uint` (userland/signal.cpp:229)
      s.perform (.sigaction signum { act with flags := act.flags &&& 0xFFFFFFFF#64 })
    | .poll sigmask =>
      if m.pc = .kernel then do
        let kernel ← m.kernel.installMask r sigmask
        return { s with machine := { m with kernel } }
      else .ok s
    | .clone t fork x =>
      -- sched/sched.cpp:886; the frame pointer of a new thread is null
      s.perform (.clone t fork { x with
        signalMask := (m.kernel.thread r).signalMask, signalFrame := {} })
    | .other op => if op.isSignalCall then .ok s else s.perform op

/-- The machine when the init process has been created: new threads block nothing
    (sched/sched.hpp:48). -/
def booted (idle main init : Thread) : SignalMachine where
  machine := .booted { idle with signalMask := 0#64, pollSavedSignalMask := none, signalFrame := {} }
    { main with signalMask := 0#64, pollSavedSignalMask := none, signalFrame := {} }
    { init with signalMask := 0#64, pollSavedSignalMask := none, signalFrame := {} }

end SignalMachine

/-! ## What leaves the masks alone -/

/-- What the kernel keeps of a thread's masks. -/
structure SignalState where
  mask : U64
  saved : Option U64
  frame : UContext
  exiting : Bool
  entering : Bool

def Thread.signals (x : Thread) : SignalState :=
  ⟨x.signalMask, x.pollSavedSignalMask, x.signalFrame, x.exitingSignal, x.enteringSignal⟩

/-- The masks of all threads and the actions of all processes are the same. -/
structure SameSignals (k k' : Kernel) : Prop where
  signals : ∀ u, (k'.thread u).signals = (k.thread u).signals
  actions : ∀ p, (k'.process p).signalActions = (k.process p).signalActions
  used : k'.used = k.used

section SameSignals

variable {k k' k'' : Kernel} {t : Tid} {s : Option Signal}

theorem SameSignals.refl (k : Kernel) : SameSignals k k := ⟨fun _ => rfl, fun _ => rfl, rfl⟩

theorem SameSignals.trans (h : SameSignals k k') (h' : SameSignals k' k'') : SameSignals k k'' :=
  ⟨fun u => (h'.signals u).trans (h.signals u), fun p => (h'.actions p).trans (h.actions p),
    h'.used.trans h.used⟩

theorem Quiet.sameSignals (h : Quiet k k') : SameSignals k k' := by
  refine ⟨?_, h.signalActions, h.used⟩
  intro u
  obtain ⟨w, p, q, st, hu, -⟩ := h.thread u
  rw [hu]
  rfl

theorem Wakes.sameSignals (h : Wakes k k') : SameSignals k k' := (Wakes.quiet h).sameSignals

theorem sameSignals_updateThread {f : Thread → Thread} (hf : ∀ x, (f x).signals = x.signals) :
    SameSignals k (k.updateThread t f) := by
  refine ⟨?_, fun _ => rfl, rfl⟩
  intro u
  by_cases hu : u = t
  · subst hu
    rw [Kernel.updateThread_thread_self, hf]
  · rw [Kernel.updateThread_thread_of_ne _ _ _ _ hu]

theorem sameSignals_setAside {l : Links (Option Tid)} {st : ThreadState} :
    SameSignals k (k.setAside l t st) := by
  refine ⟨?_, fun _ => rfl, rfl⟩
  intro u
  by_cases hu : u = t
  · subst hu
    simp [Kernel.setAside, Thread.signals]
  · rw [setAside_thread_of_ne hu]

theorem sameSignals_enqueueThread (h : k.enqueueThread t s = .ok k') : SameSignals k k' := by
  obtain rfl | ⟨-, l, -, rfl⟩ := enqueueThread_cases h
  · exact .refl k'
  · have hlinks : SameSignals k { k with schedLinks := l } := ⟨fun _ => rfl, fun _ => rfl, rfl⟩
    exact hlinks.trans (sameSignals_updateThread fun _ => rfl)

theorem sameSignals_sendSignal {signal : Signal} (h : k.sendSignal t signal = .ok k') :
    SameSignals k k' := by
  unfold Kernel.sendSignal at h
  obtain ⟨k1, h1, h⟩ := bind_ok h
  have hmark : SameSignals k (k.updateThread t fun x =>
      { x with pendingSignals := x.pendingSignals ||| getSignalBit signal }) :=
    sameSignals_updateThread fun _ => rfl
  exact (hmark.trans (sameSignals_enqueueThread h1)).trans (Wakes.sameSignals (wakes_triggerAll h))

theorem sameSignals_dequeueThread (h : k.dequeueThread t s = .ok k') : SameSignals k k' := by
  obtain ⟨-, l, -, hw⟩ := dequeueThread_cases h
  exact sameSignals_setAside.trans (Wakes.sameSignals hw)

theorem sameSignals_terminateThread (h : k.terminateThread t s = .ok k') : SameSignals k k' := by
  obtain ⟨-, rfl⟩ | ⟨-, l, -, hw⟩ := terminateThread_cases h
  · exact .refl k'
  · exact sameSignals_setAside.trans (Wakes.sameSignals hw)

theorem sameSignals_terminateProcess {p : Pid} (h : k.terminateProcess p s = .ok k') :
    SameSignals k k' := by
  unfold Kernel.terminateProcess at h
  exact foldlM_ok_invariant (SameSignals k) (.refl k)
    (fun _ _ _ _ hk hstep => hk.trans (sameSignals_terminateThread hstep)) h

theorem sameSignals_continueStopped (h : k.continueStopped t = .ok k') : SameSignals k k' := by
  obtain ⟨rfl, -⟩ | ⟨-, hw⟩ := continueStopped_cases h
  · exact .refl k'
  · have hgo : SameSignals k (k.updateThread t fun x => { x with state := .ready }) :=
      sameSignals_updateThread fun _ => rfl
    exact hgo.trans (Wakes.sameSignals hw)

theorem sameSignals_isrPick {current : Option Tid} (h : k.isrPick current = .ok (t, k')) :
    SameSignals k k' := by
  obtain ⟨-, -, -, h⟩ := pick_cases h
  have hswitch : SameSignals k (k.switchTo t) := ⟨fun _ => rfl, fun _ => rfl, rfl⟩
  exact hswitch.trans (sameSignals_continueStopped h)

theorem ListensOnly.sameSignals (h : ListensOnly k k') (hp : k'.process = k.process) :
    SameSignals k k' := by
  refine ⟨?_, fun p => by rw [hp], h.used⟩
  intro u
  obtain ⟨v, hv⟩ := h.thread u
  rw [hv]
  rfl

theorem sameSignals_wait {events : List (Option EventId)} {nonblocking : Bool} {r : WaitResult}
    (h : k.wait t events nonblocking = .ok (r, k')) : SameSignals k k' := by
  obtain ⟨-, rfl | ⟨e, rfl⟩⟩ | ⟨-, -, -, -, -, k1, hreg, hdeq⟩ := wait_cases h
  · exact .refl k'
  · exact ⟨fun _ => rfl, fun _ => rfl, rfl⟩
  · exact ((register_frame hreg).sameSignals (register_process hreg)).trans
      (sameSignals_dequeueThread hdeq)

theorem sameSignals_waitEnd {r : WaitResult} (h : k.waitEnd t = .ok (r, k')) :
    SameSignals k k' := by
  obtain ⟨hclear, -⟩ := waitEnd_cases h
  exact (clearListeners_frame hclear).sameSignals (clearListeners_process hclear)

/-- A destroyed thread leaves its number. -/
theorem destroyThread_signals (h : k.destroyThread t = .ok k') :
    (∀ u, (k'.thread u).signals = (k.thread u).signals) ∧
      (∀ p, (k'.process p).signalActions = (k.process p).signalActions) ∧
      k'.used = Function.update k.used t false := by
  obtain ⟨-, k1, hlisten, hk'⟩ := destroyThread_cases h
  refine ⟨?_, ?_, by rw [hk']⟩
  · intro u
    obtain ⟨v, hv⟩ := hlisten.thread u
    rw [hk', show (({ k1 with used := Function.update k.used t false } : Kernel).thread u) =
      k1.thread u from rfl, hv]
    rfl
  · intro p
    unfold Kernel.destroyThread at h
    obtain ⟨-, -, h⟩ := bind_ok h
    obtain ⟨k2, hclear, rfl⟩ := bind_pure_ok h
    show (k2.process p).signalActions = _
    rw [clearListeners_process hclear]
    by_cases hp : p = (k.thread t).process
    · subst hp
      simp [Kernel.updateProcess]
    · simp [Kernel.updateProcess, hp]

end SameSignals

/-! ## What a dispatch does to the masks -/

/-- The signal whose handler a dispatch enters, with its action. -/
def Kernel.entered (k : Kernel) (t : Tid) : Option (Signal × KernelSigaction) :=
  match lowestSignal (k.acceptedSignals t) with
  | none => none
  | some signal =>
    let action := (k.process (k.thread t).process).signalActions signal
    match action.handler with
    | .function _ => if action.restorer = 0#64 then none else some (signal, action)
    | _ => none

/-- The signals that a handler adds to the mask (userland/signal.cpp:169-171). -/
def handlerBits : Option (Signal × KernelSigaction) → U64
  | none => 0#64
  | some (signal, action) =>
    if action.flags &&& SA_NODEFER = 0#64 then action.mask ||| getSignalBit signal else action.mask

/-- The masks after a step that dispatches the signals of `t`. -/
structure MaskedBy (k : Kernel) (t : Tid) (bits : U64) (k' : Kernel) : Prop where
  other : ∀ u, u ≠ t → (k'.thread u).signals = (k.thread u).signals
  self : (k'.thread t).signals =
    { (k.thread t).signals with mask := (k.thread t).signalMask ||| bits, entering := false }
  actions : ∀ p s, (k'.process p).signalActions s = (k.process p).signalActions s ∨
    ((k'.process p).signalActions s).handler = .dfl
  used : k'.used = k.used

section Dispatch

variable {k k' k'' : Kernel} {t : Tid} {bits : U64}

theorem MaskedBy.trans (h : MaskedBy k t bits k') (h' : SameSignals k' k'') :
    MaskedBy k t bits k'' where
  other := fun u hu => (h'.signals u).trans (h.other u hu)
  self := (h'.signals t).trans h.self
  actions := fun p s => by
    rw [h'.actions p]
    exact h.actions p s
  used := h'.used.trans h.used

/-- The marks of a dispatched signal. -/
theorem maskedBy_marks {f : Thread → Thread}
    (hf : ∀ x, (f x).signals = { x.signals with entering := false }) :
    MaskedBy k t 0#64 (k.updateThread t f) := by
  refine ⟨?_, ?_, fun _ _ => .inl rfl, rfl⟩
  · intro u hu
    rw [Kernel.updateThread_thread_of_ne _ _ _ _ hu]
  · rw [Kernel.updateThread_thread_self, hf]
    simp [Thread.signals]

theorem maskedBy_received {signal : Signal} {action : KernelSigaction} :
    MaskedBy k t 0#64 (k.received t signal action) :=
  maskedBy_marks fun _ => rfl

/-- `SA_RESETHAND`. -/
theorem MaskedBy.updateProcess (h : MaskedBy k t bits k') {p : Pid} {f : Process → Process}
    (hf : ∀ x s, (f x).signalActions s = x.signalActions s ∨
      ((f x).signalActions s).handler = .dfl) : MaskedBy k t bits (k'.updateProcess p f) := by
  refine ⟨h.other, h.self, ?_, h.used⟩
  intro q s
  by_cases hq : q = p
  · subst hq
    have hself : (k'.updateProcess q f).process q = f (k'.process q) := by
      simp [Kernel.updateProcess]
    rw [hself]
    obtain hsame | hreset := hf (k'.process q) s
    · rw [hsame]
      exact h.actions q s
    · exact .inr hreset
  · have hother : (k'.updateProcess p f).process q = k'.process q := by
      simp [Kernel.updateProcess, hq]
    rw [hother]
    exact h.actions q s

theorem MaskedBy.enterHandler (h : MaskedBy k t 0#64 k') {signal : Signal}
    {action : KernelSigaction} {handler : U64} :
    MaskedBy k t (handlerBits (some (signal, action)))
      (k'.updateThread t fun x => Kernel.enterHandler x action signal handler) := by
  refine ⟨?_, ?_, h.actions, h.used⟩
  · intro u hu
    rw [Kernel.updateThread_thread_of_ne _ _ _ _ hu]
    exact h.other u hu
  · have hself := h.self
    simp only [Thread.signals, SignalState.mk.injEq, BitVec.or_zero] at hself
    obtain ⟨hmask, hsaved, hframe, hexiting, hentering⟩ := hself
    simp only [Kernel.updateThread_thread_self, Thread.signals, Kernel.enterHandler, handlerBits,
      hmask, hsaved, hframe, hexiting, hentering]
    split_ifs with hdefer
    · rw [BitVec.or_assoc]
    · rfl

theorem dispatch_signals (h : k.dispatchPendingSignal t = .ok k') :
    MaskedBy k t (handlerBits (k.entered t)) k' := by
  unfold Kernel.entered
  cases hlow : lowestSignal (k.acceptedSignals t) with
  | none =>
    rw [dispatch_none hlow] at h
    cases h
    exact maskedBy_marks fun _ => rfl
  | some signal =>
    rw [dispatch_some hlow] at h
    unfold Kernel.takeAction at h
    generalize haction : (k.process (k.thread t).process).signalActions signal = action at h
    have hreceived : MaskedBy k t 0#64 (k.received t signal action) := maskedBy_received
    simp only [haction]
    cases hh : action.handler with
    | ign =>
      simp only [hh] at h ⊢
      cases h
      exact hreceived
    | dfl =>
      simp only [hh] at h ⊢
      cases hd : signalDefaultAction signal with
      | ignore | «continue» =>
        simp only [hd] at h
        cases h
        exact hreceived
      | terminate | core =>
        simp only [hd] at h
        exact hreceived.trans (sameSignals_terminateProcess h)
      | stop =>
        simp only [hd] at h
        exact hreceived.trans (sameSignals_dequeueThread h)
    | function handler =>
      simp only [hh] at h ⊢
      split_ifs at h ⊢ with hr hreset
      · exact hreceived.trans (sameSignals_terminateProcess h)
      · cases h
        apply MaskedBy.enterHandler
        show MaskedBy k t 0#64 ((k.received t signal action).updateProcess _ _)
        apply hreceived.updateProcess
        intro x s
        by_cases hs : s = signal
        · subst hs
          simp
        · simp [hs]
      · cases h
        apply MaskedBy.enterHandler
        exact hreceived

end Dispatch

/-! ## Masks without SIGKILL and SIGSTOP -/

/-- SIGKILL and SIGSTOP. -/
def killStop : U64 := getSignalBit SIGKILL ||| getSignalBit SIGSTOP

def Clean (mask : U64) : Prop := mask &&& killStop = 0#64

instance (mask : U64) : Decidable (Clean mask) := inferInstanceAs (Decidable (_ = _))

section Clean

variable {a b : U64}

theorem clean_zero : Clean 0#64 := by
  simp [Clean]

theorem Clean.or (ha : Clean a) (hb : Clean b) : Clean (a ||| b) := by
  unfold Clean at *
  rw [BitVec.and_comm, BitVec.and_or_distrib_left, BitVec.and_comm killStop a, ha,
    BitVec.and_comm killStop b, hb]
  rfl

theorem Clean.and (ha : Clean a) : Clean (a &&& b) := by
  unfold Clean at *
  rw [BitVec.and_assoc, BitVec.and_comm b, ← BitVec.and_assoc, ha, BitVec.zero_and]

/-- Neither signal is blocked. -/
theorem Clean.blocks (ha : Clean a) :
    a &&& getSignalBit SIGKILL = 0#64 ∧ a &&& getSignalBit SIGSTOP = 0#64 := by
  have hkill : killStop &&& getSignalBit SIGKILL = getSignalBit SIGKILL := by decide
  have hstop : killStop &&& getSignalBit SIGSTOP = getSignalBit SIGSTOP := by decide
  unfold Clean at ha
  constructor
  · rw [← hkill, ← BitVec.and_assoc, ha, BitVec.zero_and]
  · rw [← hstop, ← BitVec.and_assoc, ha, BitVec.zero_and]

theorem clean_bit : ∀ i : Fin 64, i.val ≠ 8 → i.val ≠ 18 → Clean (1#64 <<< i.val) := by
  decide

theorem clean_getSignalBit {signal : Signal} (h0 : signal ≠ 0) (h64 : signal ≤ 64)
    (hkill : signal ≠ SIGKILL) (hstop : signal ≠ SIGSTOP) : Clean (getSignalBit signal) := by
  unfold SIGKILL at hkill
  unfold SIGSTOP at hstop
  have hlt : signal - 1 < 64 := Nat.sub_one_lt_of_le (Nat.pos_of_ne_zero h0) h64
  exact clean_bit ⟨signal - 1, hlt⟩ (by grind) (by grind)

end Clean

theorem lowestSignal_range {accepted : U64} {signal : Signal}
    (h : lowestSignal accepted = some signal) : signal ≠ 0 ∧ signal ≤ 64 := by
  unfold lowestSignal at h
  obtain ⟨i, hi, rfl⟩ := Option.map_eq_some_iff.mp h
  have hmem := List.mem_of_find?_eq_some hi
  rw [List.mem_range] at hmem
  exact ⟨Nat.succ_ne_zero i, hmem⟩

/-- No mask blocks SIGKILL or SIGSTOP, and no handler is installed for them. -/
structure MasksClean (k : Kernel) : Prop where
  mask : ∀ u, Clean (k.thread u).signalMask
  saved : ∀ u, Clean ((k.thread u).pollSavedSignalMask.getD 0#64)
  actions : ∀ p s, s = SIGKILL ∨ s = SIGSTOP → ((k.process p).signalActions s).handler = .dfl

/-- The mask that a dispatch takes from the action of its signal. -/
def actionMask (k : Kernel) (t : Tid) : U64 := ((k.entered t).map fun e => e.2.mask).getD 0#64

/-- The mask that a step takes over from the user's memory. -/
def SignalMachine.takenMask (s : SignalMachine) (op : SignalOp) : U64 :=
  let k := s.machine.kernel
  match op with
  | .rtSigprocmask .block set | .rtSigprocmask .setmask set => set
  | .poll sigmask => sigmask
  | .other .finish =>
    match s.machine.pc with
    | .picked t =>
      let x := k.thread t
      if ¬x.gprState.isUser then 0#64
      else if x.enteringSignal then actionMask k t
      else if x.exitingSignal ∧ x.pollSavedSignalMask = none then x.signalFrame.sigmask
      else 0#64
    | _ => 0#64
  | .other (.exception vec) =>
    match s.machine.pc, s.machine.running with
    | .user, some r =>
      match k.sendSignal r (Kernel.exceptionSignal vec) with
      | .ok k => actionMask k r
      | .error _ => 0#64
    | _, _ => 0#64
  | _ => 0#64

/-- A step that takes over neither SIGKILL nor SIGSTOP. -/
def CleanStep (s : SignalMachine) (op : SignalOp) : Prop := Clean (s.takenMask op)

instance (s : SignalMachine) (op : SignalOp) : Decidable (CleanStep s op) :=
  inferInstanceAs (Decidable (Clean _))

section MasksClean

variable {k k' : Kernel} {t : Tid}

section

variable (h : MasksClean k)

include h

/-- One thread's masks change. -/
theorem MasksClean.change (other : ∀ u, u ≠ t → (k'.thread u).signals = (k.thread u).signals)
    (mask : Clean (k'.thread t).signalMask)
    (saved : Clean ((k'.thread t).pollSavedSignalMask.getD 0#64)) (actions : ∀ p s, (k'.process
    p).signalActions s = (k.process p).signalActions s ∨ ((k'.process p).signalActions s).handler =
    .dfl) : MasksClean k' := by
  refine ⟨?_, ?_, ?_⟩
  · intro u
    by_cases hu : u = t
    · subst hu
      exact mask
    · have hsame := congrArg SignalState.mask (other u hu)
      exact (congrArg Clean hsame).mpr (h.mask u)
  · intro u
    by_cases hu : u = t
    · subst hu
      exact saved
    · have hsame := congrArg SignalState.saved (other u hu)
      exact (congrArg (fun s => Clean (Option.getD s 0#64)) hsame).mpr (h.saved u)
  · intro p s hs
    obtain hsame | hdfl := actions p s
    · rw [hsame]
      exact h.actions p s hs
    · exact hdfl

theorem MasksClean.same (hs : SameSignals k k') : MasksClean k' := by
  have h0 := hs.signals 0
  simp only [Thread.signals, SignalState.mk.injEq] at h0
  apply h.change (t := 0) (fun u _ => hs.signals u)
  · rw [h0.1]
    exact h.mask 0
  · rw [h0.2.1]
    exact h.saved 0
  · intro p s
    rw [hs.actions p]
    exact .inl rfl

theorem MasksClean.handlerBits (hmask : Clean (actionMask k t)) :
    Clean (handlerBits (k.entered t)) := by
  unfold actionMask at hmask
  cases he : k.entered t with
  | none => exact clean_zero
  | some e =>
    obtain ⟨signal, action⟩ := e
    rw [he] at hmask
    replace hmask : Clean action.mask := hmask
    -- the signal of a handler has an action of its own
    have hsignal : Clean (getSignalBit signal) := by
      unfold Kernel.entered at he
      cases hlow : lowestSignal (k.acceptedSignals t) with
      | none => simp [hlow] at he
      | some signal' =>
        simp only [hlow] at he
        split at he
        · rename_i handler hhandler
          split_ifs at he
          obtain ⟨rfl, rfl⟩ := Prod.mk.inj (Option.some.inj he)
          obtain ⟨h0, h64⟩ := lowestSignal_range hlow
          have hdfl := h.actions (k.thread t).process signal'
          apply clean_getSignalBit h0 h64
          · intro hkill
            rw [hdfl (.inl hkill)] at hhandler
            cases hhandler
          · intro hstop
            rw [hdfl (.inr hstop)] at hhandler
            cases hhandler
        · cases he
    simp only [Fishix.Sched.handlerBits]
    split_ifs
    · exact hmask.or hsignal
    · exact hmask

theorem MasksClean.maskedBy {bits : U64} (hm : MaskedBy k t bits k') (hbits : Clean bits) :
    MasksClean k' := by
  have hself := hm.self
  simp only [Thread.signals, SignalState.mk.injEq] at hself
  apply h.change hm.other
  · rw [hself.1]
    exact (h.mask t).or hbits
  · rw [hself.2.1]
    exact h.saved t
  · exact hm.actions

theorem MasksClean.dispatch (hmask : Clean (actionMask k t))
    (hd : k.dispatchPendingSignal t = .ok k') : MasksClean k' :=
  h.maskedBy (dispatch_signals hd) (h.handlerBits hmask)

end

theorem deliver_signals (h : k.isrDeliver t = .ok k') :
    SameSignals k k' ∨
    ((k.thread t).gprState.isUser ∧ (k.thread t).enteringSignal ∧
      MaskedBy k t (handlerBits (k.entered t)) k') ∨
    ((k.thread t).gprState.isUser ∧ ¬(k.thread t).enteringSignal ∧ (k.thread t).exitingSignal ∧
      (∀ u, u ≠ t → (k'.thread u).signals = (k.thread u).signals) ∧
      (k'.thread t).signals = ⟨(k.thread t).pollSavedSignalMask.getD (k.thread t).signalFrame.sigmask,
        none, (k.thread t).signalFrame, false, (k.thread t).enteringSignal⟩ ∧
      ∀ p, (k'.process p).signalActions = (k.process p).signalActions) := by
  unfold Kernel.isrDeliver at h
  simp only at h
  split_ifs at h with hu he hx
  · exact .inr (.inl ⟨hu, he, dispatch_signals h⟩)
  · refine .inr (.inr ⟨hu, he, hx, ?_⟩)
    unfold Kernel.returnFromSignal at h
    obtain ⟨⟨n, k1⟩, h1, rfl⟩ := bind_pure_ok h
    have hsame := Wakes.sameSignals (wakes_trigger h1)
    refine ⟨?_, ?_, ?_⟩
    · intro u hne
      rw [hsame.signals u, Kernel.updateThread_thread_of_ne _ _ _ _ hne]
    · rw [hsame.signals t, Kernel.updateThread_thread_self]
      rfl
    · intro p
      rw [hsame.actions p]
      rfl
  · cases h
    exact .inl (.refl k)
  · cases h
    exact .inl (.refl k)

/-- The end of a round of `scheduler_isr`. -/
theorem MasksClean.finish {again : Bool} (h : MasksClean k)
    (hclean : CleanStep ⟨{ kernel := k, pc := .picked t }, []⟩ (.other .finish))
    (hf : k.isrFinish t = .ok (again, k')) : MasksClean k' := by
  obtain ⟨k1, hdeliver, hk'⟩ := finish_cases hf
  have h1 : MasksClean k1 := by
    unfold CleanStep SignalMachine.takenMask at hclean
    simp only at hclean
    obtain hsame | ⟨hu, he, hm⟩ | ⟨hu, he, hx, hother, hself, hact⟩ := deliver_signals hdeliver
    · exact h.same hsame
    · rw [if_neg (by simpa using hu), if_pos he] at hclean
      exact h.maskedBy hm (h.handlerBits hclean)
    · rw [if_neg (by simpa using hu), if_neg he] at hclean
      simp only [Thread.signals, SignalState.mk.injEq] at hself
      apply h.change hother
      · rw [hself.1]
        cases hs : (k.thread t).pollSavedSignalMask with
        | none =>
          rw [if_pos ⟨hx, hs⟩] at hclean
          exact hclean
        | some m =>
          have hsaved := h.saved t
          rw [hs] at hsaved
          exact hsaved
      · rw [hself.2.1]
        exact clean_zero
      · intro p s
        rw [hact p]
        exact .inl rfl
  obtain ⟨-, -, rfl⟩ | ⟨-, -, rfl⟩ := hk'
  · exact h1
  · have hresume : SameSignals k1 (k1.isrResume t) := by
      refine ⟨?_, fun _ => rfl, rfl⟩
      intro u
      by_cases hu : u = t
      · subst hu
        simp [Kernel.isrResume, Thread.signals]
      · rw [isrResume_thread_of_ne hu]
    exact h1.same hresume

theorem MasksClean.exception {vec : ℕ} (h : MasksClean k)
    (hclean : ∀ k1, k.sendSignal t (Kernel.exceptionSignal vec) = .ok k1 → Clean (actionMask k1 t))
    (he : k.exceptionHandler t vec = .ok k') : MasksClean k' := by
  obtain ⟨k1, k2, hsend, hdispatch, rfl⟩ := exceptionHandler_cases he
  have hentered : actionMask (k1.exceptionSave t) t = actionMask k1 t := by
    simp [actionMask, Kernel.entered, Kernel.acceptedSignals, Kernel.exceptionSave]
  have hsend' : MasksClean k1 := h.same (sameSignals_sendSignal hsend)
  have h1 : MasksClean (k1.exceptionSave t) := by
    apply hsend'.change (t := t)
    · intro u hu
      rw [Kernel.exceptionSave, Kernel.updateThread_thread_of_ne _ _ _ _ hu]
    · simpa [Kernel.exceptionSave] using hsend'.mask t
    · simpa [Kernel.exceptionSave] using hsend'.saved t
    · exact fun _ _ => .inl rfl
  have h2 := h1.dispatch (by rw [hentered]; exact hclean k1 hsend) hdispatch
  exact h2.same ⟨fun _ => rfl, fun _ => rfl, rfl⟩

theorem syscallEnd_signals : (∀ u, u ≠ t → (k.syscallEnd t).thread u = k.thread u) ∧
    ((k.syscallEnd t).thread t).signalMask =
      (k.thread t).pollSavedSignalMask.getD (k.thread t).signalMask ∧
    ((k.syscallEnd t).thread t).pollSavedSignalMask = none ∧
    (k.syscallEnd t).process = k.process := by
  unfold Kernel.syscallEnd
  simp only
  split_ifs with hsig
  · refine ⟨?_, ?_, ?_, rfl⟩
    · intro u hu
      rw [Kernel.updateThread_thread_of_ne _ _ _ _ hu, Kernel.updateThread_thread_of_ne _ _ _ _ hu]
    · simp
    · simp
  · refine ⟨?_, ?_, ?_, rfl⟩
    · intro u hu
      rw [Kernel.updateThread_thread_of_ne _ _ _ _ hu]
    · simp
    · simp

theorem MasksClean.syscallEnd (h : MasksClean k) : MasksClean (k.syscallEnd t) := by
  obtain ⟨hother, hmask, hnone, hprocess⟩ := syscallEnd_signals (k := k) (t := t)
  apply h.change (t := t)
  · intro u hu
    rw [hother u hu]
  · rw [hmask]
    have hsaved := h.saved t
    cases hs : (k.thread t).pollSavedSignalMask with
    | none => exact h.mask t
    | some m =>
      rw [hs] at hsaved
      exact hsaved
  · rw [hnone]
    exact clean_zero
  · intro p s
    rw [hprocess]
    exact .inl rfl

/-- A new thread's mask is the one it is given, and a new process has the actions of its parent. -/
theorem cloneImpl_signals {old : Tid} {fork : Option Process} {x : Thread}
    (h : k.cloneImpl old t fork x = .ok k') :
    (∀ u, u ≠ t → k'.thread u = k.thread u) ∧
      (k'.thread t).signals = ⟨x.signalMask, none, x.signalFrame, false, false⟩ ∧
      ∀ p, ∃ q, (k'.process p).signalActions = (k.process q).signalActions := by
  unfold Kernel.cloneImpl at h
  obtain ⟨l, -, rfl⟩ := bind_pure_ok h
  cases fork with
  | none =>
    refine ⟨?_, ?_, ?_⟩
    · intro u hu
      simp [Kernel.updateThread, Kernel.updateProcess, hu]
    · simp [Kernel.updateThread, Kernel.updateProcess, Thread.signals]
    · intro p
      refine ⟨p, ?_⟩
      by_cases hp : p = (k.thread old).process
      · subst hp
        simp [Kernel.updateThread, Kernel.updateProcess]
      · simp [Kernel.updateThread, Kernel.updateProcess, hp]
  | some y =>
    refine ⟨?_, ?_, ?_⟩
    · intro u hu
      simp [Kernel.updateThread, Kernel.updateProcess, hu]
    · simp [Kernel.updateThread, Kernel.updateProcess, Thread.signals]
    · intro p
      by_cases ht : p = t
      · subst ht
        refine ⟨(k.thread old).process, ?_⟩
        by_cases hp : p = (k.thread old).process
        · subst hp
          simp [Kernel.updateThread, Kernel.updateProcess]
        · simp [Kernel.updateThread, Kernel.updateProcess, hp]
      · refine ⟨p, ?_⟩
        by_cases hp : p = (k.thread old).process
        · subst hp
          simp [Kernel.updateThread, Kernel.updateProcess, ht]
        · simp [Kernel.updateThread, Kernel.updateProcess, ht, hp]

theorem MasksClean.clone {old : Tid} {fork : Option Process} {x : Thread} (h : MasksClean k)
    (hx : Clean x.signalMask) (hc : k.cloneImpl old t fork x = .ok k') : MasksClean k' := by
  obtain ⟨hother, hself, hact⟩ := cloneImpl_signals hc
  simp only [Thread.signals, SignalState.mk.injEq] at hself
  refine ⟨?_, ?_, ?_⟩
  · intro u
    by_cases hu : u = t
    · subst hu
      rw [hself.1]
      exact hx
    · rw [hother u hu]
      exact h.mask u
  · intro u
    by_cases hu : u = t
    · subst hu
      rw [hself.2.1]
      exact clean_zero
    · rw [hother u hu]
      exact h.saved u
  · intro p s hs
    obtain ⟨q, hq⟩ := hact p
    rw [hq]
    exact h.actions q s hs

theorem MasksClean.sigaction {m m' : Machine} {s : Signal} {a : KernelSigaction}
    (h : MasksClean m.kernel) (hstep : m.step (.sigaction s a) = .ok m') :
    MasksClean m'.kernel := by
  by_cases hs : s = SIGKILL ∨ s = SIGSTOP
  · have hrefused : m.step (.sigaction s a) = .ok m := by
      have h9 : s = 0 ∨ 64 ≤ s ∨ s = 9 ∨ s = 19 := by
        obtain rfl | rfl := hs
        · simp [SIGKILL]
        · simp [SIGSTOP]
      unfold Machine.step Machine.act
      cases m.pc <;> cases m.running <;> simp [Pc.inThread, h9]
    rw [hrefused] at hstep
    cases hstep
    exact h
  · cases Machine.step_effect hstep with
    | nothing => exact h
    | sigaction hpc =>
      rename_i p
      refine ⟨h.mask, h.saved, ?_⟩
      intro q s' hs'
      have hne : s' ≠ s := by
        rintro rfl
        exact hs hs'
      by_cases hq : q = p
      · subst hq
        simpa [Kernel.updateProcess, hne] using h.actions q s' hs'
      · simpa [Kernel.updateProcess, hq] using h.actions q s' hs'

theorem MasksClean.machine {m m' : Machine} {op : Op} (h : MasksClean m.kernel)
    (hcall : op.isSignalCall = false) (hclean : CleanStep ⟨m, []⟩ (.other op))
    (hstep : m.step op = .ok m') : MasksClean m'.kernel := by
  cases Machine.step_effect hstep with
  | nothing => exact h
  | compute => exact h.same ⟨fun _ => rfl, fun _ => rfl, rfl⟩
  | syscall => exact h.same ⟨fun _ => rfl, fun _ => rfl, rfl⟩
  | sysret => exact h.syscallEnd.same ⟨fun _ => rfl, fun _ => rfl, rfl⟩
  | @sigreturn frame r k _ _ hk =>
    obtain rfl := sigreturn_eq hk
    apply h.change (t := r)
    · intro u hu
      rw [Kernel.updateThread_thread_of_ne _ _ _ _ hu]
    · simpa using h.mask r
    · simpa using h.saved r
    · exact fun _ _ => .inl rfl
  | sigaction | sigprocmask | clone => simp [Op.isSignalCall] at hcall
  | sendSignal _ hk => exact h.same (sameSignals_sendSignal hk)
  | trigger _ hk => exact h.same (Wakes.sameSignals (wakes_trigger hk))
  | enqueue _ hk => exact h.same (sameSignals_enqueueThread hk)
  | wait _ _ hk | sleep _ _ hk => exact h.same (sameSignals_wait hk)
  | waitEnd _ _ hk => exact h.same (sameSignals_waitEnd hk)
  | yield => exact h
  | exitGroup _ _ hk | terminateProcess _ _ _ hk => exact h.same (sameSignals_terminateProcess hk)
  | exit _ _ hk | terminateThread _ _ _ hk => exact h.same (sameSignals_terminateThread hk)
  | dequeue _ _ _ hk => exact h.same (sameSignals_dequeueThread hk)
  | destroy _ hk =>
    obtain ⟨hsignals, hact, -⟩ := destroyThread_signals hk
    apply h.change (t := 0) (fun u _ => hsignals u)
    · exact (congrArg Clean (congrArg SignalState.mask (hsignals 0))).mpr (h.mask 0)
    · exact (congrArg (fun s => Clean (Option.getD s 0#64))
        (congrArg SignalState.saved (hsignals 0))).mpr (h.saved 0)
    · intro p s
      rw [hact p]
      exact .inl rfl
  | @exception vec r k hpc hr hk =>
    refine h.exception ?_ hk
    intro k1 hk1
    unfold CleanStep SignalMachine.takenMask at hclean
    simpa only [hpc, hr, hk1] using hclean
  | interruptIdle | interrupt => exact h
  | selectFirst _ hk => exact h.same (sameSignals_isrPick hk)
  | @select c t k _ hk =>
    have hsave : SameSignals m.kernel (m.kernel.isrSave c) := sameSignals_updateThread fun _ => rfl
    exact h.same (hsave.trans (sameSignals_isrPick hk))
  | again hpc hk =>
    refine h.finish ?_ hk
    unfold CleanStep SignalMachine.takenMask at hclean ⊢
    simpa only [hpc] using hclean
  | resume hpc hk =>
    refine h.finish ?_ hk
    unfold CleanStep SignalMachine.takenMask at hclean ⊢
    simpa only [hpc] using hclean

end MasksClean

/-! ## Runs -/

section Run

variable {s s' : SignalMachine} {op : SignalOp}

theorem perform_ok_iff {o : Op} :
    s.perform o = .ok s' ↔ ∃ m, s.machine.step o = .ok m ∧
      s' = ⟨m, SignalMachine.taken s.machine o ++ s.dispatched⟩ := by
  unfold SignalMachine.perform
  rw [bind_ok_iff]
  constructor
  · rintro ⟨m, hm, h⟩
    exact ⟨m, hm, (Except.ok.inj h).symm⟩
  · rintro ⟨m, hm, rfl⟩
    exact ⟨m, hm, rfl⟩

theorem clean_newMask {how : How} {set mask : U64} (hmask : Clean mask)
    (hclean : CleanStep s (.rtSigprocmask how set)) : Clean (newMask how set mask) := by
  cases how with
  | block => exact hmask.or hclean
  | unblock => exact hmask.and
  | setmask => exact hclean
  | invalid => exact hmask

theorem masksClean_step (h : MasksClean s.machine.kernel) (hclean : CleanStep s op)
    (hstep : s.step op = .ok s') : MasksClean s'.machine.kernel := by
  have hother : ∀ o, op = .other o →
      (if o.isSignalCall then Except.ok s else s.perform o) = .ok s' →
      MasksClean s'.machine.kernel := by
    intro o ho hperform
    subst ho
    split_ifs at hperform with hcall
    · cases hperform
      exact h
    · obtain ⟨m, hm, rfl⟩ := perform_ok_iff.mp hperform
      exact h.machine (by simpa using hcall) hclean hm
  unfold SignalMachine.step at hstep
  simp only at hstep
  cases hr : s.machine.running with
  | none =>
    simp only [hr] at hstep
    cases op with
    | other o => exact hother o rfl hstep
    | _ =>
      cases hstep
      exact h
  | some r =>
    simp only [hr] at hstep
    cases op with
    | other o => exact hother o rfl hstep
    | rtSigprocmask how set =>
      obtain ⟨m, hm, rfl⟩ := perform_ok_iff.mp hstep
      cases Machine.step_effect hm with
      | nothing => exact h
      | sigprocmask hpc hr' =>
        rename_i r'
        obtain rfl : r = r' := Option.some.inj (hr.symm.trans hr')
        apply h.change (t := r)
        · intro u hu
          rw [Kernel.updateThread_thread_of_ne _ _ _ _ hu]
        · rw [Kernel.updateThread_thread_self]
          exact clean_newMask (h.mask r) hclean
        · simpa using h.saved r
        · exact fun _ _ => .inl rfl
    | rtSigaction signum act =>
      obtain ⟨m, hm, rfl⟩ := perform_ok_iff.mp hstep
      exact h.sigaction hm
    | poll sigmask =>
      split_ifs at hstep
      · obtain ⟨k, hk, rfl⟩ := bind_pure_ok hstep
        unfold Kernel.installMask at hk
        obtain ⟨_, -, rfl⟩ := bind_pure_ok hk
        apply h.change (t := r)
        · intro u hu
          rw [Kernel.updateThread_thread_of_ne _ _ _ _ hu]
        · rw [Kernel.updateThread_thread_self]
          exact hclean
        · simpa using h.mask r
        · exact fun _ _ => .inl rfl
      · cases hstep
        exact h
    | clone t fork x =>
      obtain ⟨m, hm, rfl⟩ := perform_ok_iff.mp hstep
      cases Machine.step_effect hm with
      | nothing => exact h
      | clone _ _ _ hk =>
        refine MasksClean.clone h ?_ hk
        exact h.mask r

theorem masksClean_booted (idle main init : Thread) :
    MasksClean (SignalMachine.booted idle main init).machine.kernel := by
  refine ⟨?_, ?_, ?_⟩
  · intro u
    simp only [SignalMachine.booted, Machine.booted, Kernel.booted]
    split_ifs <;> exact clean_zero
  · intro u
    simp only [SignalMachine.booted, Machine.booted, Kernel.booted]
    split_ifs <;> exact clean_zero
  · intro p s _
    simp only [SignalMachine.booted, Machine.booted, Kernel.booted]
    split_ifs <;> rfl

/-- **Main theorem.** In every run whose steps take over neither SIGKILL nor SIGSTOP from the
    user's memory, no thread ever blocks either of them. -/
theorem masks_clean {idle main init : Thread}
    (h : Run SignalMachine.step CleanStep (.booted idle main init) s) (t : Tid) :
    (s.machine.kernel.thread t).signalMask &&& getSignalBit SIGKILL = 0#64 ∧
      (s.machine.kernel.thread t).signalMask &&& getSignalBit SIGSTOP = 0#64 := by
  have hmasks : MasksClean s.machine.kernel :=
    h.invariant (fun _ _ _ hs ok hstep => masksClean_step hs ok hstep)
      (masksClean_booted idle main init)
  exact (hmasks.mask t).blocks

/-- The init process installs a handler for SIGUSR1 that masks SIGUSR2, takes the signal, polls with
    an empty mask and forks. -/
def cleanOps : List SignalOp :=
  (switchOps.map .other) ++
    [.other (.syscall {}),
      .rtSigaction 10 { handler := .function 0x2000#64, restorer := 0x3000#64, mask := 0x800#64 },
      .rtSigprocmask .setmask 0x4#64, .other (.sendSignal 1 10),
      .other (.sysret { gpr := userFrame 0x1000#64 })] ++
    (switchOps.map .other) ++ (switchOps.map .other) ++
    [.other (.syscall {}), .poll 0#64,
      .clone 5 (some {}) { gprState := userFrame 0x5000#64, signalMask := 0x100#64 }]

/-- The masks in that run. -/
theorem masks_clean_fork : ∃ s, Run SignalMachine.step CleanStep (.booted {} {} initThread) s ∧
    s.dispatched = [(1, 10)] ∧ (s.machine.kernel.thread 1).pollSavedSignalMask = some 0xa04#64 ∧
      (s.machine.kernel.thread 1).signalMask &&& getSignalBit SIGKILL = 0#64 ∧
      (s.machine.kernel.thread 1).signalMask &&& getSignalBit SIGSTOP = 0#64 := by
  obtain ⟨s, hs, hv⟩ := exists_ok_of_map (show ((cleanOps.foldlM
    (guarded SignalMachine.step CleanStep .assertion) (.booted {} {} initThread)).map fun s =>
      (s.dispatched, (s.machine.kernel.thread 1).pollSavedSignalMask)) =
    .ok ([(1, 10)], some 0xa04#64) by decide +kernel)
  obtain ⟨hdispatched, hsaved⟩ := Prod.mk.inj hv
  have hrun := Run.of_guarded hs
  exact ⟨s, hrun, hdispatched, hsaved, masks_clean hrun 1⟩

/-- The init process blocks SIGKILL. -/
def blockKillOps : List SignalOp :=
  switchOps.map .other ++ [.other (.syscall {}), .rtSigprocmask .block (getSignalBit SIGKILL)]

/-- `rt_sigprocmask` blocks SIGKILL. -/
theorem sigkill_blocked : ∃ s, Run SignalMachine.step (fun _ _ => True) (.booted {} {} initThread) s ∧
    (s.machine.kernel.thread 1).signalMask &&& getSignalBit SIGKILL ≠ 0#64 := by
  obtain ⟨s, hs, hv⟩ := exists_ok_of_map (show ((blockKillOps.foldlM
      SignalMachine.step (.booted {} {} initThread)).map fun s =>
        (s.machine.kernel.thread 1).signalMask) = .ok 0x100#64 by decide +kernel)
  refine ⟨s, Run.start.foldlM (fun _ _ _ => trivial) hs, ?_⟩
  rw [hv]
  decide

end Run

end Fishix.Sched
