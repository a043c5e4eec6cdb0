import Fishix.Sched.Machine

/-!
# Who runs in user mode

There are three ways back to user mode: the end of `scheduler_isr`, the end of a system call, and
the end of `exception_handler` (cpu/interrupts/idt.cpp:77-105). `scheduler_isr` looks at the state
of the thread after it has delivered its signals and goes back to `retry`; a system call that stops
or ends its own thread does not return. `exception_handler` dispatches the signal and returns to the
frame without another look: `Survives` is that the signal neither stops nor kills.

* `userMode_running`: in every run whose exceptions are survived, the thread in user mode is
  RUNNING.
* `faulting_zombie_runs`: a fault with the default action returns to a dead thread.
-/

namespace Fishix.Sched

open Kernel

/-- The signals of the exception neither stop nor kill the thread. -/
def Survives (m : Machine) : Op → Prop
  | .exception vec => ∀ r k, m.running = some r →
      m.kernel.sendSignal r (exceptionSignal vec) = .ok k →
      k.delivery r ≠ .terminate ∧ k.delivery r ≠ .stop
  | _ => True

/-- What holds between the steps: a thread that runs is RUNNING until it yields. -/
structure Live (m : Machine) : Prop where
  running : ∃ r, m.running = some r ∧ (m.pc = .user ∨ m.pc = .kernel → m.kernel.state r = .running)
  picked : ∀ t, m.pc = .picked t → m.running = some t
  unused : ∀ t, m.kernel.used t = false → m.kernel.state t = .zombie

/-- The same thread runs on, and the dead stay dead. -/
structure Keeps (k k' : Kernel) : Prop where
  running : k'.cpu.runningThread = k.cpu.runningThread
  used : k'.used = k.used
  dead : ∀ u, k.state u = .zombie → k'.state u = .zombie

section Keeps

variable {k k' k'' : Kernel} {t r : Tid} {s : Option Signal}

theorem Keeps.trans (h : Keeps k k') (h' : Keeps k' k'') : Keeps k k'' :=
  ⟨h'.running.trans h.running, h'.used.trans h.used, fun u hu => h'.dead u (h.dead u hu)⟩

theorem Keeps.of_state (hc : k'.cpu.runningThread = k.cpu.runningThread) (hu : k'.used = k.used)
    (hs : ∀ u, k.state u ≠ .blocked → k'.state u = k.state u) : Keeps k k' := by
  refine ⟨hc, hu, ?_⟩
  intro u hz
  rw [hs u (by rw [hz]; simp), hz]

theorem Quiet.keeps (h : Quiet k k') : Keeps k k' :=
  .of_state (by rw [h.cpu]) h.used fun _ => h.state_of_ne_blocked

theorem keeps_sendSignal {s : Signal} (h : k.sendSignal t s = .ok k') : Keeps k k' :=
  .of_state (by rw [(sameContexts_sendSignal h).cpu]) (sameContexts_sendSignal h).used
    fun _ => sendSignal_state h

theorem keeps_enqueueThread (h : k.enqueueThread t s = .ok k') : Keeps k k' :=
  .of_state (by rw [(sameContexts_enqueueThread h).cpu]) (sameContexts_enqueueThread h).used
    fun _ => enqueueThread_state h

theorem keeps_dequeueThread (h : k.dequeueThread t s = .ok k') : Keeps k k' := by
  have hsame := sameContexts_dequeueThread h
  obtain ⟨hawake, -⟩ := dequeueThread_cases h
  refine ⟨by rw [hsame.cpu], hsame.used, ?_⟩
  intro u hz
  obtain hst | ⟨rfl, -⟩ := dequeueThread_state h (u := u) (by rw [hz]; simp)
  · rw [hst, hz]
  · rw [hz] at hawake
    simp at hawake

theorem keeps_listensOnly (h : ListensOnly k k') : Keeps k k' :=
  .of_state (by rw [h.cpu]) h.used fun u _ => h.state u

theorem keeps_wait {events : List (Option EventId)} {nonblocking : Bool} {result : WaitResult}
    (h : k.wait t events nonblocking = .ok (result, k')) : Keeps k k' := by
  obtain ⟨-, rfl | ⟨e, rfl⟩⟩ | ⟨-, -, -, -, -, k1, hreg, hdeq⟩ := wait_cases h
  · exact .of_state rfl rfl fun _ _ => rfl
  · exact .of_state rfl rfl fun _ _ => rfl
  · exact (keeps_listensOnly (register_frame hreg)).trans (keeps_dequeueThread hdeq)

theorem keeps_terminateThread (h : k.terminateThread t s = .ok k') : Keeps k k' := by
  have hsame := sameContexts_terminateThread h
  refine ⟨by rw [hsame.cpu], hsame.used, ?_⟩
  intro u hz
  obtain hst | ⟨-, hst⟩ := terminateThread_state h (u := u) (by rw [hz]; simp)
  · rw [hst, hz]
  · exact hst

theorem keeps_terminateProcess {p : Pid} (h : k.terminateProcess p s = .ok k') : Keeps k k' := by
  have hsame := sameContexts_terminateProcess h
  refine ⟨by rw [hsame.cpu], hsame.used, ?_⟩
  intro u hz
  obtain hst | ⟨-, hst⟩ := terminateProcess_state h (u := u) (by rw [hz]; simp)
  · rw [hst, hz]
  · exact hst

theorem keeps_dispatch (h : k.dispatchPendingSignal t = .ok k') : Keeps k k' := by
  obtain ⟨k1, hd, hcases⟩ := dispatch_cases h
  have hkeep : Keeps k1 k' := by
    cases hdel : k.delivery t with
    | nothing | handler =>
      simp only [hdel] at hcases
      subst hcases
      exact ⟨rfl, rfl, fun _ hz => hz⟩
    | terminate =>
      simp only [hdel] at hcases
      obtain ⟨signal, hterm⟩ := hcases
      exact keeps_terminateProcess hterm
    | stop =>
      simp only [hdel] at hcases
      obtain ⟨signal, hstop⟩ := hcases
      exact keeps_dequeueThread hstop
  exact (Keeps.of_state (by rw [hd.cpu]) hd.used fun u _ => hd.state u).trans hkeep

theorem keeps_deliver (h : k.isrDeliver t = .ok k') : Keeps k k' := by
  obtain rfl | ⟨-, -, h⟩ | ⟨f, hf, -, -, hw⟩ := deliver_cases h
  · exact ⟨rfl, rfl, fun _ hz => hz⟩
  · exact keeps_dispatch h
  · have hkeep : Keeps k (k.updateThread t f) :=
      .of_state rfl rfl fun u _ => updateThread_state k t f (hf _) u
    exact hkeep.trans (Wakes.quiet hw).keeps

theorem keeps_isrSave : Keeps k (k.isrSave t) := by
  refine ⟨rfl, rfl, ?_⟩
  intro u hz
  by_cases hu : u = t
  · subst hu
    have hz' : (k.thread u).state = .zombie := hz
    simp [isrSave, hz']
  · rw [isrSave, updateThread_state_of_ne _ _ _ _ hu]
    exact hz

/-- The thread switched to is the running one. -/
theorem pick_running {c : Option Tid} (h : k.isrPick c = .ok (t, k')) :
    k'.cpu.runningThread = some t ∧ k'.used = k.used ∧
      ∀ u, k.state u = .zombie → k'.state u = .zombie := by
  obtain ⟨-, -, -, hcont⟩ := pick_cases h
  have hsame := sameContexts_continueStopped hcont
  refine ⟨by rw [hsame.cpu]; rfl, hsame.used, ?_⟩
  intro u hz
  have hz' : (k.switchTo t).state u = .zombie := hz
  obtain ⟨rfl, -⟩ | ⟨hstop, hw⟩ := continueStopped_cases hcont
  · exact hz'
  · have hut : u ≠ t := by
      rintro rfl
      rw [hz'] at hstop
      cases hstop
    have hready : ((k.switchTo t).updateThread t fun x => { x with state := .ready }).state u =
        .zombie := by
      rw [updateThread_state_of_ne _ _ _ _ hut]
      exact hz'
    rw [(Wakes.quiet hw).state_of_ne_blocked (by rw [hready]; simp), hready]

theorem syscallEnd_state (u : Tid) : (k.syscallEnd t).state u = k.state u := by
  unfold syscallEnd
  simp only
  split_ifs
  · rw [updateThread_state _ _ _ rfl, updateThread_state _ _ _ rfl]
  · rw [updateThread_state _ _ _ rfl]

theorem keeps_syscallEnd : Keeps k (k.syscallEnd t) := by
  refine .of_state ?_ ?_ fun u _ => syscallEnd_state u
  · unfold syscallEnd
    simp only
    split_ifs <;> rfl
  · unfold syscallEnd
    simp only
    split_ifs <;> rfl

end Keeps

namespace Live

variable {m : Machine} {k : Kernel}

theorem onward (h : Live m) (hk : Keeps m.kernel k)
    (hr : ∀ r, m.running = some r → m.kernel.state r = .running → k.state r = .running) :
    Live { m with kernel := k } := by
  obtain ⟨r, hrun, hstate⟩ := h.running
  refine ⟨⟨r, hk.running.trans hrun, fun hpc => hr r hrun (hstate hpc)⟩,
    fun t ht => hk.running.trans (h.picked t ht), ?_⟩
  intro t ht
  exact hk.dead t (h.unused t (by rw [← hk.used]; exact ht))

theorem yields (h : Live m) (hk : Keeps m.kernel k) :
    Live { m with kernel := k, pc := .yielding } := by
  obtain ⟨r, hrun, -⟩ := h.running
  refine ⟨⟨r, hk.running.trans hrun, by simp⟩, by simp, ?_⟩
  intro t ht
  exact hk.dead t (h.unused t (by rw [← hk.used]; exact ht))

/-- The running thread is RUNNING in `k` when a function leaves threads that do not sleep alone. -/
theorem of_state (h : Live m) (hk : Keeps m.kernel k)
    (hs : ∀ u, m.kernel.state u ≠ .blocked → k.state u = m.kernel.state u) :
    Live { m with kernel := k } := by
  refine h.onward hk ?_
  intro r _ hr
  rw [hs r (by rw [hr]; simp), hr]

/-- A change of the running thread's marks. -/
theorem updateThread (h : Live m) {t : Tid} {f : Thread → Thread}
    (hf : ∀ x, (f x).state = x.state) : Live { m with kernel := m.kernel.updateThread t f } := by
  have hs := updateThread_state m.kernel t f (hf _)
  exact h.of_state (.of_state rfl rfl fun u _ => hs u) fun u _ => hs u

theorem step {m' : Machine} {op : Op} (h : Live m) (hsurvives : Survives m op)
    (hstep : m.step op = .ok m') : Live m' := by
  cases Machine.step_effect hstep with
  | nothing => exact h
  | compute pc mode => exact ⟨h.running, h.picked, h.unused⟩
  | syscall pc =>
    obtain ⟨r, hr, hstate⟩ := h.running
    exact ⟨⟨r, hr, fun _ => hstate (.inl pc)⟩, by simp, h.unused⟩
  | @sysret c r pc running =>
    obtain ⟨r', hr', hstate⟩ := h.running
    have hkeep : Keeps m.kernel (m.kernel.syscallEnd r) := keeps_syscallEnd
    refine ⟨⟨r', hkeep.running.trans hr', fun _ => ?_⟩, by simp, ?_⟩
    · show (m.kernel.syscallEnd r).state r' = _
      rw [syscallEnd_state, hstate (.inr pc)]
    · intro t ht
      exact hkeep.dead t (h.unused t (by rw [← hkeep.used]; exact ht))
  | @sigreturn f r k pc running hk =>
    obtain rfl := sigreturn_eq hk
    exact h.updateThread (t := r)
      (f := fun x => { x with exitingSignal := true, signalFrame := f }) fun _ => rfl
  | sigaction => exact ⟨h.running, h.picked, h.unused⟩
  | sigprocmask pc running => exact h.updateThread fun _ => rfl
  | sendSignal pc hk => exact h.of_state (keeps_sendSignal hk) fun _ => sendSignal_state hk
  | trigger pc hk =>
    have hq := Wakes.quiet (wakes_trigger hk)
    exact h.of_state hq.keeps fun _ => hq.state_of_ne_blocked
  | enqueue pc hk => exact h.of_state (keeps_enqueueThread hk) fun _ => enqueueThread_state hk
  | wait pc running hk awake =>
    refine h.of_state (keeps_wait hk) ?_
    intro u _
    obtain ⟨-, rfl | ⟨e, rfl⟩⟩ | ⟨hasleep, -⟩ := wait_cases hk
    · rfl
    · rfl
    · exact absurd hasleep awake
  | sleep pc running hk => exact h.yields (keeps_wait hk)
  | waitEnd pc running hk =>
    have hclear := clearListeners_frame (waitEnd_cases hk).1
    exact h.of_state (keeps_listensOnly hclear) fun u _ => hclear.state u
  | yield pc => exact h.yields (.of_state rfl rfl fun _ _ => rfl)
  | exitGroup pc running hk => exact h.yields (keeps_terminateProcess hk)
  | exit pc running hk => exact h.yields (keeps_terminateThread hk)
  | @dequeue t r s k pc running ne hk =>
    refine h.onward (keeps_dequeueThread hk) ?_
    intro r' hr' hrun
    obtain rfl : r' = r := Option.some.inj (hr'.symm.trans running)
    obtain hst | ⟨rfl, -⟩ := dequeueThread_state hk (u := r') (by rw [hrun]; simp)
    · rw [hst, hrun]
    · exact absurd rfl ne
  | @terminateThread t r s k pc running ne hk =>
    refine h.onward (keeps_terminateThread hk) ?_
    intro r' hr' hrun
    obtain rfl : r' = r := Option.some.inj (hr'.symm.trans running)
    obtain hst | ⟨rfl, -⟩ := terminateThread_state hk (u := r') (by rw [hrun]; simp)
    · rw [hst, hrun]
    · exact absurd rfl ne
  | @terminateProcess p r s k pc running ne hk =>
    refine h.onward (keeps_terminateProcess hk) ?_
    intro r' hr' hrun
    obtain rfl : r' = r := Option.some.inj (hr'.symm.trans running)
    obtain hst | ⟨hm, -⟩ := terminateProcess_state hk (u := r') (by rw [hrun]; simp)
    · rw [hst, hrun]
    · exact absurd hm ne
  | @clone t r fork x k pc running unused hk =>
    obtain ⟨y, l, -, -, -, -, hthread, hused, -, hcpu⟩ := cloneImpl_cases hk
    obtain ⟨r', hr', hstate⟩ := h.running
    have hrun := hstate (.inr pc)
    -- the number was free, so the new thread is not the running one
    have hne : r' ≠ t := by
      rintro rfl
      rw [h.unused r' unused] at hrun
      cases hrun
    have hold : ∀ u, u ≠ t → k.state u = m.kernel.state u := by
      intro u hu
      rw [state, hthread, Function.update_of_ne hu, state]
    refine ⟨⟨r', ?_, fun _ => ?_⟩, ?_, ?_⟩
    · show k.cpu.runningThread = _
      rw [hcpu]
      exact hr'
    · show k.state r' = _
      rw [hold r' hne, hrun]
    · intro u hu
      have hu' : m.pc = .picked u := hu
      rw [pc] at hu'
      cases hu'
    · intro u hu
      have hu' : k.used u = false := hu
      rw [hused] at hu'
      by_cases hut : u = t
      · subst hut
        simp at hu'
      · show k.state u = _
        rw [hold u hut]
        exact h.unused u (by simpa [hut] using hu')
  | @destroy t k pc hk =>
    obtain ⟨hz, k1, hl, rfl⟩ := destroyThread_cases hk
    have hlive : Live { m with kernel := k1 } :=
      h.of_state (keeps_listensOnly hl) fun u _ => hl.state u
    refine ⟨hlive.running, hlive.picked, ?_⟩
    intro u hu
    by_cases hut : u = t
    · rw [hut]
      exact (hl.state t).trans hz
    · have hu' : m.kernel.used u = false := by simpa [hut] using hu
      exact hlive.unused u (by rw [hl.used]; exact hu')
  | @exception vec r k pc running hk =>
    obtain ⟨k1, k2, h1, h2, rfl⟩ := exceptionHandler_cases hk
    obtain ⟨hterm, hstop⟩ := hsurvives r k1 running h1
    have hsave : Keeps k1 (k1.exceptionSave r) :=
      .of_state rfl rfl fun u _ => exceptionSave_state u
    have hkeep : Keeps m.kernel k2 := ((keeps_sendSignal h1).trans hsave).trans (keeps_dispatch h2)
    have hlive : Live { m with kernel := k2 } := by
      refine h.of_state hkeep ?_
      intro u hu
      have hu1 : (k1.exceptionSave r).state u = m.kernel.state u := by
        rw [exceptionSave_state, sendSignal_state h1 hu]
      rw [(dispatch_state h2 (by rw [hu1]; exact hu)).2 (by rw [exceptionSave_delivery]; exact hterm)
        (by rw [exceptionSave_delivery]; exact hstop), hu1]
    exact ⟨hlive.running, hlive.picked, hlive.unused⟩
  | interruptIdle pc running =>
    obtain ⟨r, hr, -⟩ := h.running
    exact ⟨⟨r, hr, by simp⟩, by simp, h.unused⟩
  | interrupt pc running =>
    obtain ⟨r, hr, -⟩ := h.running
    exact ⟨⟨r, hr, by simp⟩, by simp, h.unused⟩
  | @selectFirst t k pc hk =>
    obtain ⟨hr, hused, hdead⟩ := pick_running hk
    refine ⟨⟨t, hr, by simp⟩, ?_, fun u hu => hdead u (h.unused u (by rw [← hused]; exact hu))⟩
    intro u hu
    obtain rfl := Pc.picked.inj hu
    exact hr
  | @select c t k pc hk =>
    obtain ⟨hr, hused, hdead⟩ := pick_running hk
    refine ⟨⟨t, hr, by simp⟩, ?_, ?_⟩
    · intro u hu
      obtain rfl := Pc.picked.inj hu
      exact hr
    · intro u hu
      have hused' : m.kernel.used u = false := by
        have hu' : k.used u = false := hu
        rw [hused] at hu'
        exact hu'
      exact hdead u (keeps_isrSave.dead u (h.unused u hused'))
  | @again t k pc hk =>
    obtain ⟨k1, hdel, ⟨-, -, rfl⟩ | ⟨hf, -, -⟩⟩ := finish_cases hk
    · have hkeep := keeps_deliver hdel
      refine ⟨⟨t, hkeep.running.trans (h.picked t pc), by simp⟩, by simp, ?_⟩
      intro u hu
      exact hkeep.dead u (h.unused u (by rw [← hkeep.used]; exact hu))
    · cases hf
  | @resume t k pc hk =>
    obtain ⟨k1, hdel, ⟨hf, -, -⟩ | ⟨-, hlive, rfl⟩⟩ := finish_cases hk
    · cases hf
    · have hkeep := keeps_deliver hdel
      refine ⟨⟨t, hkeep.running.trans (h.picked t pc), fun _ => isrResume_state_self⟩, ?_, ?_⟩
      · intro u hu
        simp only at hu
        split_ifs at hu
      · intro u hu
        have hz := hkeep.dead u (h.unused u (by rw [← hkeep.used]; exact hu))
        have hut : u ≠ t := by
          rintro rfl
          exact hlive (.inl hz)
        show (k1.isrResume t).state u = _
        rw [isrResume_state_of_ne hut]
        exact hz

end Live

theorem live_booted (idle main init : Thread) : Live (Machine.booted idle main init) := by
  refine ⟨⟨4, rfl, fun _ => rfl⟩, ?_, ?_⟩
  · intro t ht
    cases ht
  · intro t ht
    have hne : t ≠ 1 ∧ t ≠ 3 ∧ t ≠ 4 := by
      simpa [Machine.booted, booted] using ht
    simp [Machine.booted, booted, state, hne]

/-- **Main theorem.** In every run in which the signals of an exception neither stop nor kill its
    thread, the thread in user mode is RUNNING: it is neither ZOMBIE nor STOPPED. -/
theorem userMode_running {idle main init : Thread} {m : Machine}
    (h : Run Machine.step Survives (Machine.booted idle main init) m) (hpc : m.pc = .user) :
    ∃ r, m.running = some r ∧ m.kernel.state r = .running := by
  obtain ⟨r, hr, hstate⟩ := (h.invariant (fun _ _ _ hs hc => hs.step hc)
    (live_booted idle main init)).running
  exact ⟨r, hr, hstate (.inl hpc)⟩

/-- The init process installs a handler for SIGSEGV and faults: it goes on in user mode. -/
theorem userMode_running_handledFault :
    ∃ m, Run Machine.step Survives (Machine.booted {} {} initThread) m ∧ m.pc = .user ∧
      ∃ r, m.running = some r ∧ m.kernel.state r = .running := by
  obtain ⟨m, hm, hpc⟩ := exists_ok_of_map (show
    ((switchOps ++ [.syscall {},
        .sigaction SIGSEGV { handler := .function 0x2000#64, restorer := 0x3000#64 },
        .sysret { gpr := userFrame 0x1000#64 }] ++ [.exception 14] : List Op).foldlM Machine.step
      (Machine.booted {} {} initThread)).map (fun m => m.pc) = .ok .user by decide +kernel)
  rw [List.foldlM_append] at hm
  obtain ⟨m1, h1, hm⟩ := bind_ok hm
  rw [List.foldlM_cons] at hm
  obtain ⟨m2, h2, rfl⟩ := bind_pure_ok hm
  have hread : (m1.running, (m1.kernel.sendSignal 1 SIGSEGV).map (fun k => k.delivery 1)) =
      (some 1, .ok .handler) :=
    map_ok_eq h1 (fun m => (m.running, (m.kernel.sendSignal 1 SIGSEGV).map fun k => k.delivery 1))
      (by decide +kernel)
  obtain ⟨hrunning, hdelivery⟩ := Prod.mk.inj hread
  have hsurvives : Survives m1 (.exception 14) := by
    intro r k hr hk
    obtain rfl := Option.some.inj (hrunning.symm.trans hr)
    have hdel := map_ok_eq hk (fun k => k.delivery 1) hdelivery
    simp [hdel]
  have hrun1 : Run Machine.step Survives (Machine.booted {} {} initThread) m1 :=
    Run.start.foldlM (by simp [switchOps, Survives]) h1
  have hrun := hrun1.step hsurvives h2
  exact ⟨_, hrun, hpc, userMode_running hrun hpc⟩

/-- A child of the init process faults, with no handler for SIGSEGV: its process is terminated,
    and `exception_handler` returns to user mode on behalf of the dead thread. -/
theorem faulting_zombie_runs :
    ∃ m, Run Machine.step AnyStep (Machine.booted {} {} initThread) m ∧ m.pc = .user ∧
      m.running = some 5 ∧ m.kernel.state 5 = .zombie := by
  obtain ⟨m, hm, hread⟩ := exists_ok_of_map (show
    ([switchOps, forkOps, switchOps, [.exception 14]].flatten.foldlM Machine.step
      (Machine.booted {} {} initThread)).map (fun m => (m.pc, m.running, m.kernel.state 5)) =
        .ok (.user, some 5, .zombie) by decide +kernel)
  simp only [Prod.mk.injEq] at hread
  exact ⟨m, Run.start.foldlM (fun _ _ _ => trivial) hm, hread⟩

end Fishix.Sched
