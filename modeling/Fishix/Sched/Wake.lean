import Fishix.Sched.Isr

/-!
# What waking threads can do

Triggering events, sending signals and ending a process touch other threads in one way only:
`enqueue_thread`, beside marks on threads, events and processes that the run list does not
depend on. `Wake` lists these effects once; whatever every `Wake` keeps is kept by `trigger`,
`send_signal` and `zombify`.

* `wakes_trigger`, `wakes_sendSignal`, `wakes_zombify`, `wakes_dequeue`, `wakes_terminateThread`.
* `dispatch_cases`, `deliver_cases`: what delivering signals can do to the picked thread.
-/

namespace Fishix.Sched

open Kernel

/-- One effect of waking threads. -/
inductive Wake : Kernel → Kernel → Prop
  | mark {k : Kernel} (t : Tid) (w : ℕ) (s : U64) :
      Wake k (k.updateThread t fun x => { x with whichEvent := w, pendingSignals := s })
  | enqueue {k k' : Kernel} {t : Tid} {s : Option Signal} (hs : s ≠ some SIGCONT)
      (hk : k.enqueueThread t s = .ok k') : Wake k k'
  | event {k : Kernel} (e : EventId) (n : ℕ) :
      Wake k (k.updateEvent e fun x => { x with pending := n })
  | process {k : Kernel} (p : Pid) (f : Process → Process)
      (threads : ∀ x, (f x).threadList = x.threadList)
      (actions : ∀ x, (f x).signalActions = x.signalActions) : Wake k (k.updateProcess p f)

/-- Any number of such effects. -/
abbrev Wakes : Kernel → Kernel → Prop := Relation.ReflTransGen Wake

variable {k k' k'' : Kernel} {t : Tid} {e : EventId}

theorem orPanic_ok_iff {α : Type} {p : Panic} {o : Option α} {a : α} :
    orPanic p o = .ok a ↔ o = some a := by
  cases o with
  | none => simp [orPanic]
  | some b => simp [orPanic]

/-! ## Triggering events and sending signals -/

theorem wakes_triggerLoop {maxToWake : ℤ} :
    ∀ {turns : ℕ} {k k' : Kernel} {pos next : Node} {n n' : ℤ},
      triggerLoop e maxToWake turns k pos next n = .ok (n', k') → Wakes k k'
  | 0, _, _, _, _, _, _, h => by simp [triggerLoop] at h
  | turns + 1, k, k', pos, next, n, n', h => by
    unfold triggerLoop at h
    cases pos with
    | head e' =>
      simp only at h
      split_ifs at h
      cases h
      exact .refl
    | link p =>
      obtain ⟨k1, h1, h⟩ := bind_ok h
      have hwake : Wakes k k1 :=
        .head (.mark _ _ (k.thread (k.listener p).thread).pendingSignals)
          (.single (.enqueue (by simp) h1))
      split_ifs at h
      · cases h
        exact hwake
      · obtain ⟨next', -, h⟩ := bind_ok h
        exact hwake.trans (wakes_triggerLoop h)

theorem wakes_trigger {drop : Bool} {maxToWake n : ℤ}
    (h : k.trigger e drop maxToWake = .ok (n, k')) : Wakes k k' := by
  unfold Kernel.trigger at h
  split_ifs at h
  · cases h
    exact .refl
  · cases h
    exact .single (.event e _)
  · obtain ⟨pos, -, h⟩ := bind_ok h
    obtain ⟨next, -, h⟩ := bind_ok h
    exact wakes_triggerLoop h

theorem wakes_triggerAll (h : k.triggerAll e = .ok k') : Wakes k k' := by
  unfold Kernel.triggerAll at h
  obtain ⟨⟨n, k1⟩, h1, rfl⟩ := bind_pure_ok h
  exact wakes_trigger h1

theorem wakes_sendSignal {signal : Signal} (hs : signal ≠ SIGCONT)
    (h : k.sendSignal t signal = .ok k') : Wakes k k' := by
  unfold Kernel.sendSignal at h
  obtain ⟨k1, h1, h⟩ := bind_ok h
  exact .head (.mark t (k.thread t).whichEvent _)
    (.head (.enqueue (by simpa using hs) h1) (wakes_triggerAll h))

theorem wakes_sendSignalProcess {p : Pid} {signal : Signal} (hs : signal ≠ SIGCONT)
    (h : k.sendSignalProcess p signal = .ok k') : Wakes k k' := by
  unfold Kernel.sendSignalProcess at h
  obtain ⟨t, -, h⟩ := bind_ok h
  obtain ⟨u, -, h⟩ := bind_ok h
  exact wakes_sendSignal hs h

theorem wakes_closeFiles {es : List EventId}
    (h : es.foldlM (fun k e => Kernel.triggerAll k e) k = .ok k') : Wakes k k' :=
  foldlM_ok_invariant (fun k' => Wakes k k') .refl
    (fun _ _ _ _ hw h => hw.trans (wakes_triggerAll h)) h

theorem wakes_adopt (init : Kernel → Pid) (cs : List Pid) (k : Kernel) :
    Wakes k (cs.foldl (fun k c => k.updateProcess c fun x => { x with parent := init k }) k) := by
  induction cs generalizing k with
  | nil => exact .refl
  | cons c cs ih =>
    exact .head (.process c (fun x => { x with parent := init k }) (fun _ => rfl) (fun _ => rfl))
      (ih _)

theorem wakes_zombify {p : Pid} {signal : Option Signal}
    (h : k.zombify p signal = .ok k') : Wakes k k' := by
  unfold Kernel.zombify at h
  split_ifs at h
  obtain ⟨k1, h1, h⟩ := bind_ok h
  obtain ⟨k2, h2, h⟩ := bind_ok h
  refine .trans ?_ ((wakes_closeFiles h1).trans
    ((wakes_triggerAll h2).trans (wakes_sendSignalProcess (by decide) h)))
  -- the children go to the init process, which takes up their list
  refine .tail (.tail ?_ (.process _ _ (by intro x; rfl) (by intro x; rfl)))
    (.process p _ (by intro x; rfl) (by intro x; rfl))
  refine .trans ?_ (wakes_adopt (fun k => k.initProcess) _ _)
  exact .single (.process p _ (by intro x; rfl) (by intro x; rfl))

/-! ## What waking leaves alone -/

/-- A thread before and after: it may have become ready and carry other marks of its event and
    its signals. -/
def Woken (x y : Thread) : Prop :=
  ∃ w s q st, y = { x with whichEvent := w, pendingSignals := s, enqueuedBySignal := q, state := st }
    ∧ (st = x.state ∨ x.state = .blocked ∧ st = .ready)

theorem Woken.refl (x : Thread) : Woken x x := ⟨x.whichEvent, _, _, _, rfl, .inl rfl⟩

theorem Woken.trans {x y z : Thread} (h : Woken x y) (h' : Woken y z) : Woken x z := by
  obtain ⟨w, s, q, st, rfl, hst⟩ := h
  obtain ⟨w', s', q', st', rfl, hst'⟩ := h'
  refine ⟨w', s', q', st', rfl, ?_⟩
  simp only at hst'
  grind

/-- What does not depend on who is awake is the same. -/
structure Quiet (k k' : Kernel) : Prop where
  thread : ∀ t, Woken (k.thread t) (k'.thread t)
  used : k'.used = k.used
  numListeners : ∀ e, (k'.event e).numListeners = (k.event e).numListeners
  listener : k'.listener = k.listener
  listenerLinks : k'.listenerLinks = k.listenerLinks
  nextBuffer : k'.nextBuffer = k.nextBuffer
  slots : k'.slots = k.slots
  idleThread : k'.idleThread = k.idleThread
  threadList : ∀ p, (k'.process p).threadList = (k.process p).threadList
  signalActions : ∀ p, (k'.process p).signalActions = (k.process p).signalActions
  cpu : k'.cpu = k.cpu

theorem Quiet.refl (k : Kernel) : Quiet k k :=
  ⟨fun t => .refl (k.thread t), rfl, fun _ => rfl, rfl, rfl, rfl, rfl, rfl, fun _ => rfl,
    fun _ => rfl, rfl⟩

theorem Quiet.trans (h : Quiet k k') (h' : Quiet k' k'') : Quiet k k'' where
  thread := fun t => (h.thread t).trans (h'.thread t)
  used := h'.used.trans h.used
  numListeners := fun e => (h'.numListeners e).trans (h.numListeners e)
  listener := h'.listener.trans h.listener
  listenerLinks := h'.listenerLinks.trans h.listenerLinks
  nextBuffer := h'.nextBuffer.trans h.nextBuffer
  slots := h'.slots.trans h.slots
  idleThread := h'.idleThread.trans h.idleThread
  threadList := fun p => (h'.threadList p).trans (h.threadList p)
  signalActions := fun p => (h'.signalActions p).trans (h.signalActions p)
  cpu := h'.cpu.trans h.cpu

theorem quiet_updateThread {f : Thread → Thread} (hf : Woken (k.thread t) (f (k.thread t))) :
    Quiet k (k.updateThread t f) := by
  refine { Quiet.refl k with thread := ?_ }
  intro u
  by_cases hu : u = t
  · subst hu
    simpa [Kernel.updateThread] using hf
  · simpa [Kernel.updateThread, hu] using Woken.refl (k.thread u)

theorem quiet_schedLinks (l : Links (Option Tid)) : Quiet k { k with schedLinks := l } :=
  { Quiet.refl k with }

/-- What `enqueue_thread` does. -/
theorem enqueueThread_cases {s : Option Signal} (h : k.enqueueThread t s = .ok k') :
    k' = k ∨
    (k.state t = .blocked ∨ k.state t = .stopped ∧ s = some SIGCONT) ∧
      ∃ l, k.schedLinks.addBefore none (some t) = some l ∧
        k' = Kernel.updateThread { k with schedLinks := l } t fun x => { x with
          enqueuedBySignal := s, state := if k.state t = .blocked then .ready else x.state } := by
  unfold Kernel.enqueueThread at h
  split_ifs at h with h1 h2
  · exact .inl (Except.ok.inj h).symm
  · exact .inl (Except.ok.inj h).symm
  · refine .inr ⟨by grind, ?_⟩
    obtain ⟨k1, hlink, h⟩ := bind_ok h
    obtain ⟨l, hl, rfl⟩ := bind_pure_ok hlink
    refine ⟨l, orPanic_ok_iff.mp hl, ?_⟩
    · have hstate : Kernel.state { k.updateThread t (fun x => { x with enqueuedBySignal := s }) with
          schedLinks := l } t = k.state t := by
        simp [Kernel.state, Kernel.updateThread]
      rw [hstate] at h
      split_ifs at h with hb
      · rw [← Except.ok.inj h]
        simp [Kernel.updateThread, hb]
      · rw [← Except.ok.inj h]
        simp [Kernel.updateThread, hb]

/-- A wake-up leaves the rest of the kernel alone. -/
theorem Wake.quiet (h : Wake k k') : Quiet k k' := by
  induction h with
  | mark t w s => exact quiet_updateThread ⟨w, s, _, _, rfl, .inl rfl⟩
  | @enqueue _ t s hs hk =>
    obtain rfl | ⟨hstate, l, -, rfl⟩ := enqueueThread_cases hk
    · exact .refl _
    · refine (quiet_schedLinks l).trans (quiet_updateThread ⟨_, _, s, _, rfl, ?_⟩)
      obtain hb | ⟨-, hc⟩ := hstate
      · right
        exact ⟨hb, by simp [hb]⟩
      · exact absurd hc hs
  | event e n =>
    exact { Quiet.refl k with
      numListeners := k.updateEvent_event e _ (g := Event.numListeners) fun _ => rfl }
  | process p f threads actions =>
    refine { Quiet.refl k with threadList := ?_, signalActions := ?_ }
    · intro q
      by_cases hq : q = p
      · subst hq
        simp [Kernel.updateProcess, threads]
      · simp [Kernel.updateProcess, hq]
    · intro q
      by_cases hq : q = p
      · subst hq
        simp [Kernel.updateProcess, actions]
      · simp [Kernel.updateProcess, hq]

theorem Wakes.quiet (h : Wakes k k') : Quiet k k' := by
  induction h with
  | refl => exact .refl _
  | tail _ hw ih => exact ih.trans hw.quiet

theorem Quiet.state (h : Quiet k k') (t : Tid) :
    k'.state t = k.state t ∨ k.state t = .blocked ∧ k'.state t = .ready := by
  obtain ⟨w, s, q, st, ht, hst⟩ := h.thread t
  have hk : k'.state t = st := by rw [Kernel.state, ht]
  rw [hk]
  exact hst

/-! ## Taking threads off the run list -/

/-- The thread `t` is off the run list `l` and in the state `st`. -/
def Kernel.setAside (k : Kernel) (l : Links (Option Tid)) (t : Tid) (st : ThreadState) : Kernel :=
  Kernel.updateThread { k with schedLinks := l } t fun x => { x with state := st }

section

variable {l : Links (Option Tid)} {st : ThreadState}

theorem setAside_state_self : (k.setAside l t st).state t = st := by
  simp [Kernel.setAside]

theorem setAside_thread_of_ne {u : Tid} (h : u ≠ t) : (k.setAside l t st).thread u = k.thread u :=
  Kernel.updateThread_thread_of_ne { k with schedLinks := l } t u _ h

theorem setAside_state_of_ne {u : Tid} (h : u ≠ t) : (k.setAside l t st).state u = k.state u := by
  rw [Kernel.state, setAside_thread_of_ne h, Kernel.state]

end

theorem unlinkThread_ok_iff :
    k.unlinkThread t = .ok k' ↔
      ∃ l, k.schedLinks.remove (some t) = some l ∧ k' = { k with schedLinks := l } := by
  unfold Kernel.unlinkThread
  rw [bind_ok_iff]
  constructor
  · rintro ⟨l, hl, hk⟩
    exact ⟨l, orPanic_ok_iff.mp hl, (Except.ok.inj hk).symm⟩
  · rintro ⟨l, hl, rfl⟩
    exact ⟨l, orPanic_ok_iff.mpr hl, rfl⟩

theorem assert_ok_iff {b : Bool} : assert b = .ok () ↔ b = true := by
  cases b with
  | false => simp [assert]
  | true => simp [assert]

/-- What `dequeue_thread` does: the thread leaves the list, and for a stop others are told. -/
theorem dequeueThread_cases {s : Option Signal} (h : k.dequeueThread t s = .ok k') :
    (k.state t = .ready ∨ k.state t = .running) ∧
      ∃ l, k.schedLinks.remove (some t) = some l ∧
        Wakes (k.setAside l t (if s = none then .blocked else .stopped)) k' := by
  unfold Kernel.dequeueThread at h
  obtain ⟨u, ha, h⟩ := bind_ok h
  obtain ⟨k1, hu, h⟩ := bind_ok h
  obtain ⟨l, hl, rfl⟩ := unlinkThread_ok_iff.mp hu
  refine ⟨by simpa using assert_ok_iff.mp ha, l, hl, ?_⟩
  cases s with
  | none =>
    cases h
    exact .refl
  | some signal =>
    obtain ⟨k2, h2, h⟩ := bind_ok h
    have htold : Wakes (k.setAside l t .stopped) k2 :=
      .head (.process _ _ (by intro x; rfl) (by intro x; rfl)) (wakes_triggerAll h2)
    simp only at h
    split_ifs at h
    · exact htold.trans (wakes_sendSignalProcess (by decide) h)
    · cases h
      exact htold

/-- The last thread of a process takes it along, another wakes who joins it. -/
theorem wakes_mourn {p : Pid} {s : Option Signal} {child : Option EventId}
    (h : (if (k.process p).numLivingThreads = 0 then k.zombify p s
      else match child with
        | none => .ok k
        | some e => do
          let (_, k) ← k.trigger e true 1
          return k) = .ok k') : Wakes k k' := by
  split_ifs at h
  · exact wakes_zombify h
  cases child with
  | none =>
    cases h
    exact .refl
  | some e =>
    obtain ⟨⟨n, k2⟩, h2, rfl⟩ := bind_pure_ok h
    exact wakes_trigger h2

theorem terminateThread_cases {s : Option Signal} (h : k.terminateThread t s = .ok k') :
    k.state t = .zombie ∧ k' = k ∨
    k.state t ≠ .zombie ∧ ∃ l,
      (if k.state t = .ready ∨ k.state t = .running then k.schedLinks.remove (some t) = some l
        else l = k.schedLinks) ∧
      Wakes (k.setAside l t .zombie) k' := by
  unfold Kernel.terminateThread at h
  by_cases hz : k.state t = .zombie
  · rw [if_pos hz] at h
    exact .inl ⟨hz, (Except.ok.inj h).symm⟩
  rw [if_neg hz] at h
  refine .inr ⟨hz, ?_⟩
  by_cases hlinked : k.state t = .ready ∨ k.state t = .running
  · simp only [if_pos hlinked] at h ⊢
    obtain ⟨k1, hu, h⟩ := bind_ok h
    obtain ⟨l, hl, rfl⟩ := unlinkThread_ok_iff.mp hu
    exact ⟨l, hl, .head (.process _ _ (by intro x; rfl) (by intro x; rfl)) (wakes_mourn h)⟩
  · simp only [if_neg hlinked] at h ⊢
    exact ⟨_, rfl, .head (.process _ _ (by intro x; rfl) (by intro x; rfl)) (wakes_mourn h)⟩

/-! ## Delivering signals -/

/-- The thread `t` with the marks of a dispatched signal, and perhaps other signal actions. -/
def Dispatched (k : Kernel) (t : Tid) (k' : Kernel) : Prop :=
  ∃ (s : U64) (g : InterruptState) (a : AltStack) (m : U64) (p : Pid → Process),
    (∀ q, (p q).threadList = (k.process q).threadList) ∧
    k' = { k.updateThread t fun x => { x with
        enteringSignal := false, enqueuedBySignal := none, pendingSignals := s, gprState := g,
        signalAltStack := a, signalMask := m } with process := p }

section

variable (h : Dispatched k t k')

include h

theorem Dispatched.thread_of_ne {u : Tid} (hu : u ≠ t) : k'.thread u = k.thread u := by
  obtain ⟨s, g, a, m, P, -, rfl⟩ := h
  simp [Kernel.updateThread, hu]

theorem Dispatched.thread_self :
    ∃ s g a m, k'.thread t = { k.thread t with
      enteringSignal := false, enqueuedBySignal := none, pendingSignals := s, gprState := g,
      signalAltStack := a, signalMask := m } := by
  obtain ⟨s, g, a, m, P, -, rfl⟩ := h
  exact ⟨s, g, a, m, by simp⟩

theorem Dispatched.state (u : Tid) : k'.state u = k.state u := by
  by_cases hu : u = t
  · subst hu
    obtain ⟨s, g, a, m, ht⟩ := h.thread_self
    rw [Kernel.state, ht, Kernel.state]
  · rw [Kernel.state, h.thread_of_ne hu, Kernel.state]

theorem Dispatched.threadList (p : Pid) : (k'.process p).threadList = (k.process p).threadList := by
  obtain ⟨s, g, a, m, P, hP, rfl⟩ := h
  exact hP p

theorem Dispatched.schedLinks : k'.schedLinks = k.schedLinks := by
  obtain ⟨s, g, a, m, P, -, rfl⟩ := h
  rfl

theorem Dispatched.idleThread : k'.idleThread = k.idleThread := by
  obtain ⟨s, g, a, m, P, -, rfl⟩ := h
  rfl

theorem Dispatched.used : k'.used = k.used := by
  obtain ⟨s, g, a, m, P, -, rfl⟩ := h
  rfl

theorem Dispatched.cpu : k'.cpu = k.cpu := by
  obtain ⟨s, g, a, m, P, -, rfl⟩ := h
  rfl

end

/-- The signal is taken from the pending ones, and a system call it has interrupted is set up to
    be restarted. -/
def Kernel.received (k : Kernel) (t : Tid) (signal : Signal) (action : KernelSigaction) : Kernel :=
  k.updateThread t fun x => { x with
    enteringSignal := false
    enqueuedBySignal := none
    pendingSignals := x.pendingSignals &&& ~~~getSignalBit signal
    gprState := restartSyscall x action }

theorem dispatched_received {signal : Signal} {action : KernelSigaction} :
    Dispatched k t (k.received t signal action) :=
  ⟨_, _, _, _, _, fun _ => rfl, rfl⟩

theorem Dispatched.updateProcess {k1 : Kernel} (h : Dispatched k t k1) (p : Pid)
    {f : Process → Process} (hf : ∀ x, (f x).threadList = x.threadList) :
    Dispatched k t (k1.updateProcess p f) := by
  obtain ⟨s, g, a, m, P, hP, rfl⟩ := h
  refine ⟨s, g, a, m, Function.update P p (f (P p)), ?_, rfl⟩
  intro q
  by_cases hq : q = p
  · subst hq
    simp [hf, hP]
  · simp [hq, hP]

theorem Dispatched.enterHandler {k1 : Kernel} (h : Dispatched k t k1) (action : KernelSigaction)
    (signal : Signal) (handler : U64) :
    Dispatched k t (k1.updateThread t fun x => Kernel.enterHandler x action signal handler) := by
  obtain ⟨s, g, a, m, P, hP, hk⟩ := h
  let y := Kernel.enterHandler (k1.thread t) action signal handler
  refine ⟨y.pendingSignals, y.gprState, y.signalAltStack, y.signalMask, P, hP, ?_⟩
  subst hk
  simp [y, Kernel.updateThread, Kernel.enterHandler]

/-- The switch of `dispatch_pending_signal` on the action of a signal that has been received. -/
def Kernel.takeAction (k : Kernel) (t : Tid) (signal : Signal) (action : KernelSigaction) :
    Except Panic Kernel :=
  let p := (k.thread t).process
  match action.handler with
  | .ign => .ok (k.received t signal action)
  | .dfl =>
    match signalDefaultAction signal with
    | .ignore => .ok (k.received t signal action)
    | .continue => .ok (k.received t signal action)
    | .terminate => (k.received t signal action).terminateProcess p (some signal)
    | .core => (k.received t signal action).terminateProcess p (some signal)
    | .stop => (k.received t signal action).dequeueThread t (some signal)
  | .function handler =>
    if action.restorer = 0#64 then (k.received t signal action).terminateProcess p (some signal)
    else
      let k := if action.flags &&& SA_RESETHAND ≠ 0#64 then
          (k.received t signal action).updateProcess p fun x => { x with
            signalActions := Function.update x.signalActions signal
              { x.signalActions signal with handler := .dfl } }
        else k.received t signal action
      let rip := if action.flags &&& SA_RESETHAND ≠ 0#64 then 0#64 else handler
      .ok (k.updateThread t fun x => Kernel.enterHandler x action signal rip)

theorem acceptedSignals_dispatched : (k.updateThread t fun x => { x with
    enteringSignal := false, enqueuedBySignal := none }).acceptedSignals t =
    k.acceptedSignals t := by
  simp [Kernel.acceptedSignals]

/-- No signal is accepted. -/
theorem dispatch_none (hlow : lowestSignal (k.acceptedSignals t) = none) :
    k.dispatchPendingSignal t = .ok (k.updateThread t fun x => { x with
      enteringSignal := false, enqueuedBySignal := none }) := by
  unfold Kernel.dispatchPendingSignal
  simp only [acceptedSignals_dispatched, hlow]

theorem dispatch_some {signal : Signal} (hlow : lowestSignal (k.acceptedSignals t) = some signal) :
    k.dispatchPendingSignal t = k.takeAction t signal
      ((k.process (k.thread t).process).signalActions signal) := by
  unfold Kernel.dispatchPendingSignal
  simp only [acceptedSignals_dispatched, hlow, updateThread_thread_self, updateThread_process,
    updateThread_updateThread]
  rfl

theorem dispatch_cases (h : k.dispatchPendingSignal t = .ok k') :
    ∃ k1, Dispatched k t k1 ∧
      match k.delivery t with
      | .nothing | .handler => k' = k1
      | .terminate => ∃ s, k1.terminateProcess (k.thread t).process s = .ok k'
      | .stop => ∃ s, k1.dequeueThread t (some s) = .ok k' := by
  unfold Kernel.delivery
  cases hlow : lowestSignal (k.acceptedSignals t) with
  | none =>
    rw [dispatch_none hlow] at h
    cases h
    exact ⟨_, ⟨_, _, _, _, _, fun _ => rfl, rfl⟩, rfl⟩
  | some signal =>
    rw [dispatch_some hlow] at h
    unfold Kernel.takeAction at h
    generalize haction : (k.process (k.thread t).process).signalActions signal = action at h
    simp only [haction]
    cases hh : action.handler with
    | ign =>
      simp only [hh] at h ⊢
      exact ⟨_, dispatched_received, (Except.ok.inj h).symm⟩
    | dfl =>
      simp only [hh] at h ⊢
      cases hd : signalDefaultAction signal with
      | ignore | «continue» =>
        simp only [hd] at h ⊢
        exact ⟨_, dispatched_received, (Except.ok.inj h).symm⟩
      | terminate | core =>
        simp only [hd] at h ⊢
        exact ⟨_, dispatched_received, _, h⟩
      | stop =>
        simp only [hd] at h ⊢
        exact ⟨_, dispatched_received, _, h⟩
    | function handler =>
      simp only [hh] at h ⊢
      split_ifs at h ⊢ with hr hreset
      · exact ⟨_, dispatched_received, _, h⟩
      · cases h
        refine ⟨_, ?_, rfl⟩
        apply Dispatched.enterHandler
        show Dispatched k t ((k.received t signal action).updateProcess _ _)
        apply dispatched_received.updateProcess
        intro x
        rfl
      · cases h
        refine ⟨_, ?_, rfl⟩
        apply Dispatched.enterHandler
        exact dispatched_received

theorem deliver_cases (h : k.isrDeliver t = .ok k') :
    k' = k ∨
    ((k.thread t).gprState.isUser ∧ (k.thread t).enteringSignal ∧
      k.dispatchPendingSignal t = .ok k') ∨
    ∃ f : Thread → Thread, (∀ x, (f x).state = x.state) ∧ (∀ x, (f x).process = x.process) ∧
      (∀ x, (f x).listeners = x.listeners) ∧ Wakes (k.updateThread t f) k' := by
  unfold Kernel.isrDeliver at h
  simp only at h
  split_ifs at h with hu he hx
  · exact .inr (.inl ⟨hu, he, h⟩)
  · right
    right
    unfold Kernel.returnFromSignal at h
    obtain ⟨⟨n, k1⟩, h1, rfl⟩ := bind_pure_ok h
    have hw := wakes_trigger h1
    refine ⟨_, ?_, ?_, ?_, hw⟩ <;>
      · intro x
        rfl
  · exact .inl (Except.ok.inj h).symm
  · exact .inl (Except.ok.inj h).symm

theorem continueStopped_cases (h : k.continueStopped t = .ok k') :
    (k' = k ∧ ¬((k.thread t).enqueuedBySignal = some SIGCONT ∧ k.state t = .stopped)) ∨
    k.state t = .stopped ∧
      Wakes (k.updateThread t fun x => { x with state := .ready }) k' := by
  unfold Kernel.continueStopped at h
  split_ifs at h with hc
  · exact .inr ⟨hc.2, .head (.process _ _ (by intro x; rfl) (by intro x; rfl))
      (wakes_triggerAll h)⟩
  · exact .inl ⟨(Except.ok.inj h).symm, hc⟩

/-- The CPU set up for the thread `t`. -/
def Kernel.switchTo (k : Kernel) (t : Tid) : Kernel :=
  { k with cpu := { k.cpu with
    userStack := (k.thread t).savedUserStack
    kernelStack := (k.thread t).savedKernelStack
    kernelGsBase := if (k.thread t).gprState.isUser then (k.thread t).gsBase else k.cpu.address
    runningThread := some t
    fsBase := (k.thread t).fsBase } }

/-- What switching to the next thread does. -/
theorem pick_cases {current : Option Tid} (h : k.isrPick current = .ok (t, k')) :
    k.nextThread current = .ok t ∧ k.state t ≠ .blocked ∧ k.state t ≠ .zombie ∧
      (k.switchTo t).continueStopped t = .ok k' := by
  unfold Kernel.isrPick at h
  obtain ⟨t', hnext, h⟩ := bind_ok h
  obtain ⟨u, hassert, h⟩ := bind_ok h
  obtain ⟨k1, hcont, h⟩ := bind_ok h
  cases h
  have hstate := assert_ok_iff.mp hassert
  simp only [decide_eq_true_eq] at hstate
  exact ⟨hnext, hstate.1, hstate.2, hcont⟩

/-- What the end of a round does. -/
theorem finish_cases {again : Bool} (h : k.isrFinish t = .ok (again, k')) :
    ∃ k1, k.isrDeliver t = .ok k1 ∧
      (again = true ∧ (k1.state t = .zombie ∨ k1.state t = .stopped) ∧ k' = k1 ∨
        again = false ∧ ¬(k1.state t = .zombie ∨ k1.state t = .stopped) ∧ k' = k1.isrResume t) := by
  unfold Kernel.isrFinish at h
  obtain ⟨k1, hk1, h⟩ := bind_ok h
  refine ⟨k1, hk1, ?_⟩
  split_ifs at h with hdead
  · cases h
    exact .inl ⟨rfl, hdead, rfl⟩
  · cases h
    exact .inr ⟨rfl, hdead, rfl⟩

theorem isrResume_state_self : (k.isrResume t).state t = .running := by
  simp [Kernel.isrResume, Kernel.state]

theorem isrResume_thread_of_ne {u : Tid} (h : u ≠ t) : (k.isrResume t).thread u = k.thread u := by
  simp [Kernel.isrResume, Kernel.updateThread, h]

theorem isrResume_state_of_ne {u : Tid} (h : u ≠ t) : (k.isrResume t).state u = k.state u := by
  rw [Kernel.state, isrResume_thread_of_ne h, Kernel.state]

/-! ## Thread states -/

variable {u : Tid} {s : Option Signal}

theorem Quiet.state_of_ne_blocked (h : Quiet k k') (hu : k.state u ≠ .blocked) :
    k'.state u = k.state u := by
  obtain hsame | ⟨hb, -⟩ := h.state u
  · exact hsame
  · exact absurd hb hu

theorem enqueueThread_state (h : k.enqueueThread t s = .ok k') (hu : k.state u ≠ .blocked) :
    k'.state u = k.state u := by
  obtain rfl | ⟨-, l, -, rfl⟩ := enqueueThread_cases h
  · rfl
  by_cases hut : u = t
  · subst hut
    rw [updateThread_state_self]
    simp only [if_neg hu]
    rfl
  · exact updateThread_state_of_ne _ _ _ _ hut

theorem terminateThread_state (h : k.terminateThread t s = .ok k') (hu : k.state u ≠ .blocked) :
    k'.state u = k.state u ∨ u = t ∧ k'.state u = .zombie := by
  obtain ⟨-, rfl⟩ | ⟨-, l, -, hw⟩ := terminateThread_cases h
  · exact .inl rfl
  by_cases hut : u = t
  · subst hut
    have hz : (k.setAside l u .zombie).state u = .zombie := setAside_state_self
    right
    refine ⟨rfl, ?_⟩
    rw [(Wakes.quiet hw).state_of_ne_blocked (by rw [hz]; simp), hz]
  · left
    have hsame : (k.setAside l t .zombie).state u = k.state u := setAside_state_of_ne hut
    rw [← hsame] at hu ⊢
    exact (Wakes.quiet hw).state_of_ne_blocked hu

theorem terminateProcess_state {p : Pid} (h : k.terminateProcess p s = .ok k')
    (hu : k.state u ≠ .blocked) :
    k'.state u = k.state u ∨ u ∈ (k.process p).threadList ∧ k'.state u = .zombie := by
  unfold Kernel.terminateProcess at h
  refine foldlM_ok_invariant
    (fun k1 => k1.state u = k.state u ∨ u ∈ (k.process p).threadList ∧ k1.state u = .zombie)
    (.inl rfl) ?_ h
  intro t k1 k2 ht h1 hstep
  have hu1 : k1.state u ≠ .blocked := by
    obtain h1 | ⟨-, h1⟩ := h1
    · rw [h1]
      exact hu
    · rw [h1]
      simp
  obtain hsame | ⟨rfl, hz⟩ := terminateThread_state hstep hu1
  · rw [hsame]
    exact h1
  · exact .inr ⟨ht, hz⟩

theorem dequeueThread_state (h : k.dequeueThread t s = .ok k') (hu : k.state u ≠ .blocked) :
    k'.state u = k.state u ∨ u = t ∧ (s ≠ none → k'.state u = .stopped) := by
  obtain ⟨-, l, -, hw⟩ := dequeueThread_cases h
  by_cases hut : u = t
  · subst hut
    right
    refine ⟨rfl, ?_⟩
    intro hs
    have hst : (k.setAside l u (if s = none then .blocked else .stopped)).state u = .stopped := by
      rw [setAside_state_self, if_neg hs]
    rw [(Wakes.quiet hw).state_of_ne_blocked (by rw [hst]; simp), hst]
  · left
    have hsame : (k.setAside l t (if s = none then .blocked else .stopped)).state u = k.state u :=
      setAside_state_of_ne hut
    rw [← hsame] at hu ⊢
    exact (Wakes.quiet hw).state_of_ne_blocked hu

/-- A thread that does not sleep does not fall asleep by a signal, and it keeps its state unless
    the signal stops or kills. -/
theorem dispatch_state (h : k.dispatchPendingSignal t = .ok k') (hu : k.state u ≠ .blocked) :
    k'.state u ≠ .blocked ∧
      (k.delivery t ≠ .terminate → k.delivery t ≠ .stop → k'.state u = k.state u) := by
  obtain ⟨k1, hd, hcases⟩ := dispatch_cases h
  rw [← hd.state u] at hu ⊢
  cases hdel : k.delivery t with
  | nothing | handler =>
    simp only [hdel] at hcases
    subst hcases
    exact ⟨hu, fun _ _ => rfl⟩
  | terminate =>
    simp only [hdel] at hcases
    obtain ⟨signal, hterm⟩ := hcases
    refine ⟨?_, fun h => absurd rfl h⟩
    obtain hsame | ⟨-, hz⟩ := terminateProcess_state hterm hu
    · rw [hsame]
      exact hu
    · rw [hz]
      simp
  | stop =>
    simp only [hdel] at hcases
    obtain ⟨signal, hstop⟩ := hcases
    refine ⟨?_, fun _ h => absurd rfl h⟩
    obtain hsame | ⟨-, hz⟩ := dequeueThread_state hstop hu
    · rw [hsame]
      exact hu
    · rw [hz (by simp)]
      simp

theorem deliver_state (h : k.isrDeliver t = .ok k') (hu : k.state u ≠ .blocked) :
    k'.state u ≠ .blocked := by
  obtain rfl | ⟨-, -, h⟩ | ⟨f, hf, -, -, hw⟩ := deliver_cases h
  · exact hu
  · exact (dispatch_state h hu).1
  · have hsame : (k.updateThread t f).state u = k.state u := updateThread_state _ _ _ (hf _) u
    rw [← hsame] at hu
    rw [(Wakes.quiet hw).state_of_ne_blocked hu]
    exact hu

end Fishix.Sched
