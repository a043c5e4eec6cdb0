import Fishix.Sched.SignalMask

/-!
# A signal that interrupts a poll

`ppoll` and `epoll_pwait` return `-EINTR` when a signal is pending that the caller's temporary mask
does not block (fs/vfs.cpp:852-853, userland/epoll.cpp:148-149). The end of the system call puts
the saved mask back first and looks for pending signals after that
(cpu/syscall/syscall.cpp:75-84); a signal that only the saved mask blocks is not seen.
`dispatch_pending_signal` reads the same mask.

* `shielded_step`: a step in which a thread executes nothing dispatches no signal that is blocked
  when the thread is marked.
* `never_dispatched`: no such signal is dispatched before the thread's next user instruction.
* `poll_loses_signal`: a poll that SIGUSR1 interrupts, and the handler is not entered.
-/

namespace Fishix.Sched

/-- `signal` is in the mask. -/
def Blocks (mask : U64) (signal : Signal) : Prop := mask &&& getSignalBit signal ≠ 0#64

instance (mask : U64) (signal : Signal) : Decidable (Blocks mask signal) :=
  inferInstanceAs (Decidable (_ ≠ _))

section Blocks

variable {a b : U64} {signal : Signal}

/-- The loop of `dispatch_pending_signal` passes over a blocked signal. -/
theorem Blocks.not_lowest {pending : U64} (h : Blocks a signal) :
    lowestSignal (pending &&& ~~~a) ≠ some signal := by
  intro hlow
  unfold lowestSignal at hlow
  obtain ⟨i, hi, rfl⟩ := Option.map_eq_some_iff.mp hlow
  have haccepted := List.find?_some hi
  have hlt : i < 64 := List.mem_range.mp (List.mem_of_find?_eq_some hi)
  have hbit : a.getLsbD i = true := by
    unfold Blocks getSignalBit at h
    rw [Nat.add_sub_cancel, ← BitVec.twoPow_eq, BitVec.and_twoPow] at h
    by_contra hfalse
    rw [if_neg hfalse] at h
    exact h rfl
  have hclear : (pending &&& ~~~a).getLsbD i = false := by
    simp [hbit]
  have hzero : ((pending &&& ~~~a) >>> i) &&& 1#64 = 0#64 := by
    rw [BitVec.and_one_eq_setWidth_ofBool_getLsbD, BitVec.getLsbD_ushiftRight, Nat.add_zero, hclear]
    rfl
  simp [hzero] at haccepted

end Blocks

/-- What an interrupt handler does. -/
def SignalOp.byInterrupt : SignalOp → Bool
  | .other .interrupt | .other (.sendSignal _ _) | .other (.trigger _ _ _)
  | .other (.enqueue _ _) => true
  | _ => false

/-- The number of a new thread. -/
def SignalOp.newThread : SignalOp → Option Tid
  | .clone t _ _ => some t
  | _ => none

/-- A step in which the thread `t` executes nothing, and its number stays its own. -/
def Resting (t : Tid) (s : SignalMachine) (op : SignalOp) : Prop :=
  (s.machine.running = some t → s.machine.pc.inThread → op.byInterrupt) ∧ op.newThread ≠ some t

instance (t : Tid) (s : SignalMachine) (op : SignalOp) : Decidable (Resting t s op) :=
  inferInstanceAs (Decidable (_ ∧ _))

/-- `ppoll` or `epoll_pwait` returns to the end of the system call because of `signal`, which its
    temporary mask lets through and the saved one blocks. -/
structure PollInterrupted (t : Tid) (signal : Signal) (s : SignalMachine) : Prop where
  pc : s.machine.pc = .kernel
  running : s.machine.running = some t
  pending : Blocks (s.machine.kernel.thread t).pendingSignals signal
  unblocked : ¬Blocks (s.machine.kernel.thread t).signalMask signal
  saved : ∃ mask, (s.machine.kernel.thread t).pollSavedSignalMask = some mask ∧ Blocks mask signal

/-- If the thread `t` is marked for a dispatch, its mask blocks `signal`. -/
def Shielded (t : Tid) (signal : Signal) (k : Kernel) : Prop :=
  (k.thread t).enteringSignal = true → Blocks (k.thread t).signalMask signal

section Shielded

variable {k k' : Kernel} {t u : Tid} {signal : Signal} {m m' : Machine} {s s' : SignalMachine}

theorem Shielded.same (h : Shielded t signal k)
    (hs : (k'.thread t).signals = (k.thread t).signals) : Shielded t signal k' := by
  simp only [Thread.signals, SignalState.mk.injEq] at hs
  obtain ⟨hmask, -, -, -, hentering⟩ := hs
  unfold Shielded
  rw [hmask, hentering]
  exact h

theorem shielded_of_not_entering (h : (k.thread t).enteringSignal = false) :
    Shielded t signal k := by
  intro he
  rw [h] at he
  cases he

/-- A round of `scheduler_isr` that ends with the thread `u`. -/
theorem Shielded.finish {again : Bool} (h : Shielded t signal k)
    (hf : k.isrFinish u = .ok (again, k')) : Shielded t signal k' := by
  obtain ⟨k1, hdeliver, hk'⟩ := finish_cases hf
  have h1 : Shielded t signal k1 := by
    obtain hsame | ⟨-, -, hm⟩ | ⟨-, he, -, hother, hself, -⟩ := deliver_signals hdeliver
    · exact h.same (hsame.signals t)
    · by_cases hu : t = u
      · subst hu
        exact shielded_of_not_entering (congrArg SignalState.entering hm.self)
      · exact h.same (hm.other t hu)
    · by_cases hu : t = u
      · subst hu
        have hentering := congrArg SignalState.entering hself
        exact shielded_of_not_entering (hentering.trans (by simpa using he))
      · exact h.same (hother t hu)
  obtain ⟨-, -, rfl⟩ | ⟨-, -, rfl⟩ := hk'
  · exact h1
  · apply h1.same
    by_cases hu : t = u
    · subst hu
      simp [Kernel.isrResume, Thread.signals]
    · rw [isrResume_thread_of_ne hu]

theorem exception_signals {vec : ℕ} (hu : t ≠ u) (h : k.exceptionHandler u vec = .ok k') :
    (k'.thread t).signals = (k.thread t).signals := by
  obtain ⟨k1, k2, hsend, hdispatch, rfl⟩ := exceptionHandler_cases h
  have hsave : (k1.exceptionSave u).thread t = k1.thread t :=
    Kernel.updateThread_thread_of_ne _ _ _ _ hu
  have h2 := (dispatch_signals hdispatch).other t hu
  rw [hsave, (sameSignals_sendSignal hsend).signals t] at h2
  exact h2

theorem Shielded.machine {op : Op} (h : Shielded t signal m.kernel)
    (hrest : Resting t ⟨m, []⟩ (.other op)) (hcall : op.isSignalCall = false)
    (hstep : m.step op = .ok m') : Shielded t signal m'.kernel := by
  -- whoever executes the step is another thread
  have hne : ∀ {r : Tid}, m.pc.inThread → m.running = some r →
      (SignalOp.other op).byInterrupt = false → t ≠ r := by
    rintro r hpc hr hop rfl
    simp [hrest.1 hr hpc] at hop
  cases Machine.step_effect hstep with
  | nothing => exact h
  | compute => exact h
  | syscall => exact h
  | @sysret c r hpc hr =>
    have htr : t ≠ r := hne (by rw [hpc]; rfl) hr rfl
    apply h.same
    exact congrArg Thread.signals (syscallEnd_signals.1 t htr)
  | @sigreturn frame r k hpc hr hk =>
    have htr : t ≠ r := hne (by rw [hpc]; rfl) hr rfl
    obtain rfl := sigreturn_eq hk
    apply h.same
    rw [Kernel.updateThread_thread_of_ne _ _ _ _ htr]
  | sigaction | sigprocmask | clone => simp [Op.isSignalCall] at hcall
  | sendSignal _ hk => exact h.same ((sameSignals_sendSignal hk).signals t)
  | trigger _ hk => exact h.same ((Wakes.sameSignals (wakes_trigger hk)).signals t)
  | enqueue _ hk => exact h.same ((sameSignals_enqueueThread hk).signals t)
  | wait _ _ hk | sleep _ _ hk => exact h.same ((sameSignals_wait hk).signals t)
  | waitEnd _ _ hk => exact h.same ((sameSignals_waitEnd hk).signals t)
  | yield => exact h
  | exitGroup _ _ hk | terminateProcess _ _ _ hk =>
    exact h.same ((sameSignals_terminateProcess hk).signals t)
  | exit _ _ hk | terminateThread _ _ _ hk =>
    exact h.same ((sameSignals_terminateThread hk).signals t)
  | dequeue _ _ _ hk => exact h.same ((sameSignals_dequeueThread hk).signals t)
  | destroy _ hk => exact h.same ((destroyThread_signals hk).1 t)
  | @exception vec r k hpc hr hk =>
    have htr : t ≠ r := hne (by rw [hpc]; rfl) hr rfl
    exact h.same (exception_signals htr hk)
  | interruptIdle | interrupt => exact h
  | selectFirst _ hk => exact h.same ((sameSignals_isrPick hk).signals t)
  | @select c u k _ hk =>
    have hsave : SameSignals m.kernel (m.kernel.isrSave c) := sameSignals_updateThread fun _ => rfl
    exact h.same ((hsave.trans (sameSignals_isrPick hk)).signals t)
  | again _ hk | resume _ hk => exact h.finish hk

/-- What such a step dispatches. -/
theorem Shielded.taken {op : Op} (h : Shielded t signal m.kernel)
    (hrest : Resting t ⟨m, []⟩ (.other op)) : (t, signal) ∉ SignalMachine.taken m op := by
  intro hmem
  unfold SignalMachine.taken at hmem
  split at hmem
  · split at hmem
    · rename_i u hpc
      split_ifs at hmem with hdeliver
      · obtain ⟨s', hs', hpair⟩ := List.mem_map.mp hmem
        cases hpair
        exact (h hdeliver.2).not_lowest (Option.mem_toList.mp hs')
      · cases hmem
    · cases hmem
  · split at hmem
    · rename_i r hpc hr
      split at hmem
      · obtain ⟨s', hs', hpair⟩ := List.mem_map.mp hmem
        cases hpair
        have hop := hrest.1 hr (by rw [hpc]; rfl)
        cases hop
      · cases hmem
    · cases hmem
  · cases hmem

theorem shielded_step {op : SignalOp} (h : Shielded t signal s.machine.kernel)
    (hrest : Resting t s op) (hstep : s.step op = .ok s') :
    Shielded t signal s'.machine.kernel ∧
      s'.dispatched.count (t, signal) = s.dispatched.count (t, signal) := by
  have hother : ∀ o, op = .other o →
      (if o.isSignalCall then Except.ok s else s.perform o) = .ok s' →
      Shielded t signal s'.machine.kernel ∧
        s'.dispatched.count (t, signal) = s.dispatched.count (t, signal) := by
    intro o ho hperform
    subst ho
    split_ifs at hperform with hcall
    · cases hperform
      exact ⟨h, rfl⟩
    · obtain ⟨m, hm, rfl⟩ := perform_ok_iff.mp hperform
      refine ⟨h.machine hrest (by simpa using hcall) hm, ?_⟩
      rw [List.count_append, List.count_eq_zero.mpr (h.taken hrest), Nat.zero_add]
  unfold SignalMachine.step at hstep
  simp only at hstep
  cases hr : s.machine.running with
  | none =>
    simp only [hr] at hstep
    cases op with
    | other o => exact hother o rfl hstep
    | _ =>
      cases hstep
      exact ⟨h, rfl⟩
  | some r =>
    simp only [hr] at hstep
    have hne : s.machine.pc = .kernel → op.byInterrupt = false → t ≠ r := by
      rintro hpc hop rfl
      simp [hrest.1 hr (by rw [hpc]; rfl)] at hop
    cases op with
    | other o => exact hother o rfl hstep
    | rtSigprocmask how set =>
      obtain ⟨m, hm, rfl⟩ := perform_ok_iff.mp hstep
      refine ⟨?_, rfl⟩
      cases Machine.step_effect hm with
      | nothing => exact h
      | sigprocmask hpc hr' =>
        rename_i r'
        obtain rfl : r = r' := Option.some.inj (hr.symm.trans hr')
        apply h.same
        dsimp only
        rw [Kernel.updateThread_thread_of_ne _ _ _ _ (hne hpc rfl)]
    | rtSigaction signum act =>
      obtain ⟨m, hm, rfl⟩ := perform_ok_iff.mp hstep
      refine ⟨?_, rfl⟩
      cases Machine.step_effect hm with
      | nothing => exact h
      | sigaction => exact h
    | poll sigmask =>
      split_ifs at hstep with hpc
      · obtain ⟨k, hk, rfl⟩ := bind_pure_ok hstep
        unfold Kernel.installMask at hk
        obtain ⟨_, -, rfl⟩ := bind_pure_ok hk
        refine ⟨?_, rfl⟩
        apply h.same
        dsimp only
        rw [Kernel.updateThread_thread_of_ne _ _ _ _ (hne hpc rfl)]
      · cases hstep
        exact ⟨h, rfl⟩
    | clone u fork x =>
      obtain ⟨m, hm, rfl⟩ := perform_ok_iff.mp hstep
      refine ⟨?_, rfl⟩
      cases Machine.step_effect hm with
      | nothing => exact h
      | clone _ _ _ hk =>
        have hu : t ≠ u := by
          rintro rfl
          exact hrest.2 rfl
        apply h.same
        exact congrArg Thread.signals ((cloneImpl_signals hk).1 t hu)

/-- The end of the system call shields the thread from the signal that has interrupted it. -/
theorem PollInterrupted.shielded {c : Registers} (h : PollInterrupted t signal s)
    (hret : s.step (.other (.sysret c)) = .ok s') :
    Shielded t signal s'.machine.kernel ∧ s'.dispatched = s.dispatched := by
  have hr := h.running
  unfold SignalMachine.step at hret
  simp only [hr, Op.isSignalCall] at hret
  obtain ⟨m, hm, rfl⟩ := perform_ok_iff.mp hret
  refine ⟨?_, rfl⟩
  have hm' : m = { s.machine with
      kernel := (s.machine.kernel.syscallEnd t).setRegisters c, pc := .user } := by
    unfold Machine.step Machine.act at hm
    simp only [h.pc, Pc.inThread, hr] at hm
    exact (Except.ok.inj hm).symm
  subst hm'
  intro _
  obtain ⟨mask, hsaved, hblocks⟩ := h.saved
  have hmask := (syscallEnd_signals (k := s.machine.kernel) (t := t)).2.1
  rw [hsaved] at hmask
  exact (congrArg (Blocks · signal) hmask).mpr hblocks

/-- **Main theorem.** A signal that interrupts a poll and that the saved mask blocks is not
    dispatched before the thread executes its next instruction. -/
theorem never_dispatched {c : Registers} {s1 : SignalMachine} (h : PollInterrupted t signal s)
    (hret : s.step (.other (.sysret c)) = .ok s1)
    (hrun : Run SignalMachine.step (Resting t) s1 s') :
    s'.dispatched.count (t, signal) = s.dispatched.count (t, signal) := by
  obtain ⟨hshielded, hsame⟩ := h.shielded hret
  have hinv : Shielded t signal s'.machine.kernel ∧
      s'.dispatched.count (t, signal) = s1.dispatched.count (t, signal) := by
    apply hrun.invariant
      (P := fun s' => Shielded t signal s'.machine.kernel ∧
        s'.dispatched.count (t, signal) = s1.dispatched.count (t, signal))
    · intro s2 op s3 h2 hrest hstep
      obtain ⟨h3, hcount⟩ := shielded_step h2.1 hrest hstep
      exact ⟨h3, hcount.trans h2.2⟩
    · exact ⟨hshielded, rfl⟩
  rw [hinv.2, hsame]

/-- The init process has a handler for SIGUSR1 and blocks it. It polls with a mask that lets it
    through. -/
def pollOps : List SignalOp :=
  switchOps.map .other ++
    [.other (.syscall {}), .rtSigaction 10 { handler := .function 0x2000#64, restorer := 0x3000#64 },
      .rtSigprocmask .block (getSignalBit 10), .poll 0#64, .other (.sendSignal 1 10)]

/-- The scheduler comes round. -/
def comeRoundOps : List SignalOp := (switchOps ++ switchOps).map .other

/-- What the examples below look at. -/
structure PollView where
  pc : Pc
  running : Option Tid
  entering : Bool
  pending : U64
  mask : U64
  saved : Option U64
  dispatched : List (Tid × Signal)
  deriving DecidableEq

def pollView (s : SignalMachine) : PollView where
  pc := s.machine.pc
  running := s.machine.running
  entering := (s.machine.kernel.thread 1).enteringSignal
  pending := (s.machine.kernel.thread 1).pendingSignals
  mask := (s.machine.kernel.thread 1).signalMask
  saved := (s.machine.kernel.thread 1).pollSavedSignalMask
  dispatched := s.dispatched

/-- The machine when the poll is about to return. -/
theorem poll_interrupted : ∃ s, pollOps.foldlM SignalMachine.step (.booted {} {} initThread) = .ok s ∧
    PollInterrupted 1 10 s ∧ s.dispatched = [] := by
  obtain ⟨s, hs, hv⟩ := exists_ok_of_map (show ((pollOps.foldlM SignalMachine.step
    (.booted {} {} initThread)).map pollView) =
      .ok ⟨.kernel, some 1, false, 0x200#64, 0#64, some 0x200#64, []⟩ by decide +kernel)
  simp only [pollView, PollView.mk.injEq] at hv
  obtain ⟨hpc, hrunning, -, hpending, hmask, hsaved, hdispatched⟩ := hv
  refine ⟨s, hs, ⟨hpc, hrunning, ?_, ?_, ?_⟩, hdispatched⟩
  · rw [hpending]
    decide
  · rw [hmask]
    decide
  · exact ⟨_, hsaved, by decide⟩

/-- The poll returns, and the scheduler comes round. -/
theorem never_dispatched_usr1 : ∃ s s1 s2, PollInterrupted 1 10 s ∧
    s.step (.other (.sysret { gpr := userFrame 0x1002#64 })) = .ok s1 ∧
    Run SignalMachine.step (Resting 1) s1 s2 ∧ s2.machine.pc = .user ∧
    s2.dispatched.count (1, 10) = s.dispatched.count (1, 10) := by
  obtain ⟨s, hs, hpoll, -⟩ := poll_interrupted
  obtain ⟨pc, hreturn, rfl⟩ := exists_ok_of_map (show ((do
      let s ← pollOps.foldlM SignalMachine.step (.booted {} {} initThread)
      let s1 ← s.step (.other (.sysret { gpr := userFrame 0x1002#64 }))
      let s2 ← comeRoundOps.foldlM (guarded SignalMachine.step (Resting 1) .assertion) s1
      return s2.machine.pc).map id) = .ok Pc.user by decide +kernel)
  rw [hs, ok_bind] at hreturn
  obtain ⟨s1, hs1, hreturn⟩ := bind_ok hreturn
  obtain ⟨s2, hs2, hreturn⟩ := bind_ok hreturn
  have hrun := Run.of_guarded hs2
  exact ⟨s, s1, s2, hpoll, hs1, hrun, Except.ok.inj hreturn, never_dispatched hpoll hs1 hrun⟩

/-- The poll returns, the init process executes its next instruction, and SIGUSR1 has not been
    dispatched. -/
theorem poll_loses_signal : ∃ s s1 s2,
    Run SignalMachine.step (fun _ _ => True) (.booted {} {} initThread) s ∧
    PollInterrupted 1 10 s ∧ s.step (.other (.sysret { gpr := userFrame 0x1002#64 })) = .ok s1 ∧
    s1.step (.other (.compute { gpr := userFrame 0x1004#64 })) = .ok s2 ∧
    pollView s1 = ⟨.user, some 1, false, 0x200#64, 0x200#64, none, []⟩ ∧ s2.dispatched = [] := by
  obtain ⟨s, hs, hpoll, -⟩ := poll_interrupted
  obtain ⟨v, hreturn, hv⟩ := exists_ok_of_map (show ((do
      let s ← pollOps.foldlM SignalMachine.step (.booted {} {} initThread)
      let s1 ← s.step (.other (.sysret { gpr := userFrame 0x1002#64 }))
      let s2 ← s1.step (.other (.compute { gpr := userFrame 0x1004#64 }))
      return (pollView s1, s2.dispatched)).map id) =
        .ok (⟨.user, some 1, false, 0x200#64, 0x200#64, none, []⟩, []) by decide +kernel)
  rw [hs, ok_bind] at hreturn
  obtain ⟨s1, hs1, hreturn⟩ := bind_ok hreturn
  obtain ⟨s2, hs2, rfl⟩ := bind_pure_ok hreturn
  obtain ⟨hview, hdispatched⟩ := Prod.mk.inj hv
  have hrun : Run SignalMachine.step (fun _ _ => True) (.booted {} {} initThread) s :=
    Run.start.foldlM (fun _ _ _ => trivial) hs
  exact ⟨s, s1, s2, hrun, hpoll, hs1, hs2, hview, hdispatched⟩

end Shielded

end Fishix.Sched
