import Fishix.Sched.Machine

/-!
# Whose registers are saved

`scheduler_isr` (sched/sched.cpp:707-782) stores the interrupted frame into `current_thread` at its
label `retry`. When the thread it has switched to is stopped or killed by a signal it goes back to
`retry` with that thread as `current_thread`, and the frame is still the one of the thread that was
interrupted. `Stays` is that this does not happen, unless the two are the same thread.

* `contexts_isolated`: in every run that stays, every store is of what the CPU held when the thread
  was last switched away from, all threads that do not run keep it, and a thread that is resumed
  without a signal gets it back.
* `stopped_child_gets_foreign_frame`: a run that does not.
-/

namespace Fishix.Sched

open Kernel

/-- The thread switched to is not stopped, and if a signal stops or kills it, it is the thread that
    was interrupted. -/
def Stays (m : Machine) : Op → Prop
  | .finish => ∀ t, m.pc = .picked t → m.kernel.state t ≠ .stopped ∧
      ((m.kernel.thread t).gprState.isUser → (m.kernel.thread t).enteringSignal →
        m.kernel.delivery t = .terminate ∨ m.kernel.delivery t = .stop → m.interrupted = some t)
  | _ => True

/-- The CPU holds the general and extended registers of `c`. -/
structure HoldsFrame (k : Kernel) (c : Context) : Prop where
  gpr : k.cpu.regs = c.gpr
  extended : ∀ e, c.extended = some e → k.cpu.extended = e

/-- The CPU is set up to run with the stacks and bases of `c`. -/
structure SetUp (k : Kernel) (c : Context) : Prop where
  userStack : k.cpu.userStack = c.userStack
  kernelStack : k.cpu.kernelStack = c.kernelStack
  fsBase : k.cpu.fsBase = c.fsBase
  gsBase : c.gpr.isUser → k.cpu.kernelGsBase = c.gsBase

/-- `scheduler_isr` has switched to `t`. -/
structure Switched (m : Machine) (t : Tid) : Prop where
  running : m.running = some t
  context : (m.kernel.thread t).context = m.held t
  state : m.kernel.state t ≠ .blocked ∧ m.kernel.state t ≠ .zombie
  frame : ∀ i, m.interrupted = some i → HoldsFrame m.kernel (m.held i)
  setUp : SetUp m.kernel (m.held t)

/-- What holds between the steps. -/
structure Isolated (m : Machine) : Prop where
  stores : ∀ s ∈ m.stores, s.stored = s.held
  away : ∀ t, m.running ≠ some t → (m.kernel.thread t).context = m.held t
  retry : ∀ c, m.pc = .retry c → m.running = c ∧ m.interrupted = c ∧
    ∀ t, c = some t → m.kernel.cpuContext t = m.held t
  picked : ∀ t, m.pc = .picked t → Switched m t

section Contexts

variable {k k' : Kernel} {t u : Tid}

theorem isrSave_context_self : ((k.isrSave t).thread t).context = k.cpuContext t := by
  simp [isrSave, Thread.context, cpuContext]

theorem isrSave_context_of_ne (h : u ≠ t) :
    ((k.isrSave t).thread u).context = (k.thread u).context := by
  rw [isrSave, updateThread_thread_of_ne _ _ _ _ h]

/-- A frame that is held and a CPU that is set up make the whole context of a user thread. -/
theorem cpuContext_eq {c : Context} (hf : HoldsFrame k c) (hs : SetUp k c)
    (hx : (k.thread t).extendedState = c.extended) (hu : c.gpr.isUser) : k.cpuContext t = c := by
  unfold cpuContext
  rw [hf.gpr, hs.gsBase hu, hs.fsBase, hs.userStack, hs.kernelStack, hx]
  cases he : c.extended with
  | none =>
    cases c
    simp_all
  | some e =>
    have := hf.extended e he
    cases c
    simp_all

theorem holdsFrame_of_cpuContext {c : Context} (h : k.cpuContext t = c) : HoldsFrame k c := by
  subst h
  refine ⟨rfl, ?_⟩
  intro e he
  obtain ⟨x, -, hx⟩ := Option.map_eq_some_iff.mp he
  exact hx

theorem setUp_switchTo : SetUp (k.switchTo t) (k.thread t).context := by
  refine ⟨rfl, rfl, rfl, ?_⟩
  intro hu
  have hu' : (k.thread t).gprState.isUser := hu
  simp [switchTo, hu', Thread.context]

theorem SetUp.of_cpu {c : Context} (h : SetUp k c) (hc : k'.cpu = k.cpu) : SetUp k' c := by
  refine ⟨?_, ?_, ?_, ?_⟩
  · rw [hc, h.userStack]
  · rw [hc, h.kernelStack]
  · rw [hc, h.fsBase]
  · rw [hc]
    exact h.gsBase

theorem HoldsFrame.of_cpu {c : Context} (h : HoldsFrame k c) (hr : k'.cpu.regs = k.cpu.regs)
    (hx : k'.cpu.extended = k.cpu.extended) : HoldsFrame k' c := by
  refine ⟨?_, ?_⟩
  · rw [hr, h.gpr]
  · rw [hx]
    exact h.extended

/-- Switching keeps the saved registers and sets the CPU up for the next thread. -/
theorem pick_contexts {c : Option Tid} (h : k.isrPick c = .ok (t, k')) :
    (∀ u, (k'.thread u).context = (k.thread u).context) ∧ k'.cpu = (k.switchTo t).cpu ∧
      k'.state t ≠ .blocked ∧ k'.state t ≠ .zombie := by
  obtain ⟨-, hb, hz, hcont⟩ := pick_cases h
  have hsame := sameContexts_continueStopped hcont
  refine ⟨fun u => hsame.context u, hsame.cpu, ?_⟩
  obtain ⟨rfl, -⟩ | ⟨-, hw⟩ := continueStopped_cases hcont
  · exact ⟨hb, hz⟩
  · have hready : ((k.switchTo t).updateThread t fun x => { x with state := .ready }).state t =
        .ready := updateThread_state_self ..
    rw [(Wakes.quiet hw).state_of_ne_blocked (by rw [hready]; simp), hready]
    simp

/-- Delivering signals does not touch the extended registers unless a handler returns. -/
theorem dispatch_extended (h : k.dispatchPendingSignal t = .ok k') :
    (k'.thread t).extendedState = (k.thread t).extendedState := by
  obtain ⟨k1, hd, hsame⟩ := dispatch_same h
  obtain ⟨s, g, a, m, ht⟩ := hd.thread_self
  have hctx := congrArg Context.extended (hsame.context t)
  have hk1 : (k1.thread t).extendedState = (k.thread t).extendedState := by rw [ht]
  exact hctx.trans hk1

theorem sameContexts_syscallEnd : SameContexts k (k.syscallEnd t) := by
  unfold syscallEnd
  simp only
  split_ifs
  · rw [updateThread_updateThread]
    apply sameContexts_updateThread <;>
      · intro x
        rfl
  · apply sameContexts_updateThread <;>
      · intro x
        rfl

theorem ListensOnly.context (h : ListensOnly k k') (u : Tid) :
    (k'.thread u).context = (k.thread u).context := by
  obtain ⟨v, hv⟩ := h.thread u
  rw [hv]
  rfl

theorem wait_contexts {events : List (Option EventId)} {nonblocking : Bool} {r : WaitResult}
    (h : k.wait t events nonblocking = .ok (r, k')) :
    (∀ u, (k'.thread u).context = (k.thread u).context) ∧ k'.cpu = k.cpu := by
  obtain ⟨-, rfl | ⟨e, rfl⟩⟩ | ⟨-, -, -, -, -, k1, hreg, hdeq⟩ := wait_cases h
  · exact ⟨fun _ => rfl, rfl⟩
  · exact ⟨fun _ => rfl, rfl⟩
  · have hl := register_frame hreg
    have hsame := sameContexts_dequeueThread hdeq
    exact ⟨fun u => (hsame.context u).trans (hl.context u), hsame.cpu.trans hl.cpu⟩

end Contexts

namespace Isolated

variable {m : Machine} {k : Kernel}

section

variable (h : Isolated m) {pc : Pc} (hpc : pc.inThread)

include h hpc

theorem inThread (hr : k.cpu.runningThread = m.kernel.cpu.runningThread)
    (hctx : ∀ t, m.running ≠ some t → (k.thread t).context = (m.kernel.thread t).context) :
    Isolated { m with kernel := k, pc } := by
  refine ⟨h.stores, ?_, ?_, ?_⟩
  · intro t ht
    have ht' : m.running ≠ some t := by
      unfold Machine.running at ht ⊢
      rw [← hr]
      exact ht
    exact (hctx t ht').trans (h.away t ht')
  · rintro c rfl
    cases hpc
  · rintro t rfl
    cases hpc

theorem sameContexts (hk : SameContexts m.kernel k) : Isolated { m with kernel := k, pc } :=
  h.inThread hpc (by rw [hk.cpu]) fun t _ => hk.context t

theorem updateThread {t : Tid} {f : Thread → Thread} (hf : ∀ x, (f x).context = x.context)
    (hv : ∀ x, (f x).listeners = x.listeners) :
    Isolated { m with kernel := m.kernel.updateThread t f, pc } :=
  h.sameContexts hpc (sameContexts_updateThread hf hv)

end

theorem switch {t : Tid} {stores : List Store} {c : Option Tid} (h : Isolated m)
    (hpc : m.pc = .retry c) (hctx : ∀ u, (k.thread u).context = m.held u)
    {k' : Kernel} (hcpu : k.cpu = m.kernel.cpu) (hk : k.isrPick c = .ok (t, k'))
    (hstores : ∀ s ∈ stores, s.stored = s.held) :
    Isolated { m with kernel := k', pc := .picked t, stores } := by
  obtain ⟨hsame, hset, hstate⟩ := pick_contexts hk
  obtain ⟨-, hint, hframe⟩ := h.retry c hpc
  have hall : ∀ u, (k'.thread u).context = m.held u := fun u => (hsame u).trans (hctx u)
  refine ⟨hstores, fun u _ => hall u, by simp, ?_⟩
  intro u hu
  obtain rfl := Pc.picked.inj hu
  refine ⟨?_, hall t, hstate, ?_, ?_⟩
  · show k'.cpu.runningThread = _
    rw [hset]
    rfl
  · intro i hi
    -- the interrupted frame is still there
    have hci : c = some i := hint.symm.trans hi
    have hold := holdsFrame_of_cpuContext (hframe i hci)
    refine hold.of_cpu ?_ ?_
    · rw [hset, ← hcpu]
      rfl
    · rw [hset, ← hcpu]
      rfl
  · have hsetup : SetUp (k.switchTo t) (k.thread t).context := setUp_switchTo
    rw [hctx t] at hsetup
    exact hsetup.of_cpu hset

/-- The thread switched to dies or stops: it is the one that was interrupted, and what the CPU holds
    is still its own. -/
theorem again {t : Tid} (h : Isolated m) (hstays : Stays m .finish) (hpc : m.pc = .picked t)
    (hdel : m.kernel.isrDeliver t = .ok k) (hdead : k.state t = .zombie ∨ k.state t = .stopped) :
    Isolated { m with kernel := k, pc := .retry (some t) } := by
  obtain ⟨hr, hcontext, ⟨hb, hz⟩, hframe, hsetup⟩ := h.picked t hpc
  obtain ⟨hns, hint⟩ := hstays t hpc
  have hchanged : k.state t ≠ m.kernel.state t := by
    intro hsame
    rw [hsame] at hdead
    exact hdead.elim hz hns
  obtain rfl | ⟨hu, he, hdisp⟩ | ⟨f, hf, -, -, hw⟩ := deliver_cases hdel
  · exact absurd rfl hchanged
  · have hfatal : m.kernel.delivery t = .terminate ∨ m.kernel.delivery t = .stop := by
      by_contra hnot
      obtain ⟨hterm, hstop⟩ := not_or.mp hnot
      exact hchanged ((dispatch_state hdisp hb).2 hterm hstop)
    have hi := hint hu he hfatal
    obtain ⟨hctx, -, hcpu⟩ := dispatch_contexts hdisp
    refine ⟨h.stores, ?_, ?_, by simp⟩
    · intro u hu'
      have hut : u ≠ t := by
        rintro rfl
        apply hu'
        show k.cpu.runningThread = _
        rw [hcpu]
        exact hr
      rw [hctx u hut]
      refine h.away u ?_
      rw [hr]
      simpa using Ne.symm hut
    · intro c hc
      obtain rfl := Pc.retry.inj hc
      refine ⟨by show k.cpu.runningThread = _; rw [hcpu]; exact hr, hi, ?_⟩
      intro u hu'
      obtain rfl := Option.some.inj hu'
      refine cpuContext_eq ((hframe t hi).of_cpu (by rw [hcpu]) (by rw [hcpu]))
        (hsetup.of_cpu hcpu) ?_ ?_
      · rw [dispatch_extended hdisp, ← hcontext]
        rfl
      · rw [← hcontext]
        exact hu
  · have hsame : (m.kernel.updateThread t f).state t = m.kernel.state t :=
      updateThread_state _ _ _ (hf _) t
    rw [← hsame] at hb hchanged
    exact absurd ((Wakes.quiet hw).state_of_ne_blocked hb) hchanged

theorem step {m' : Machine} {op : Op} (h : Isolated m) (hstays : Stays m op)
    (hstep : m.step op = .ok m') : Isolated m' := by
  cases Machine.step_effect hstep with
  | nothing => exact h
  | compute pc mode => exact h.inThread pc rfl fun _ _ => rfl
  | syscall pc => exact h.inThread rfl rfl fun _ _ => rfl
  | @sysret c r pc running =>
    have hend : SameContexts m.kernel (m.kernel.syscallEnd r) := sameContexts_syscallEnd
    exact h.inThread rfl (by show (m.kernel.syscallEnd r).cpu.runningThread = _; rw [hend.cpu])
      fun t _ => hend.context t
  | @sigreturn f r k pc running hk =>
    obtain rfl := sigreturn_eq hk
    exact h.updateThread (t := r) (f := fun x => { x with exitingSignal := true, signalFrame := f })
      (by rw [pc]; rfl) (fun _ => rfl) (fun _ => rfl)
  | sigaction pc => exact h.inThread (by rw [pc]; rfl) rfl fun _ _ => rfl
  | @sigprocmask mask r pc running =>
    exact h.updateThread (t := r) (f := fun x => { x with signalMask := mask })
      (by rw [pc]; rfl) (fun _ => rfl) (fun _ => rfl)
  | sendSignal pc hk => exact h.sameContexts pc (sameContexts_sendSignal hk)
  | trigger pc hk => exact h.sameContexts pc (Wakes.quiet (wakes_trigger hk)).sameContexts
  | enqueue pc hk => exact h.sameContexts pc (sameContexts_enqueueThread hk)
  | wait pc running hk awake =>
    obtain ⟨hctx, hcpu⟩ := wait_contexts hk
    exact h.inThread (by rw [pc]; rfl) (by rw [hcpu]) fun u _ => hctx u
  | sleep pc running hk =>
    obtain ⟨hctx, hcpu⟩ := wait_contexts hk
    exact h.inThread rfl (by rw [hcpu]) fun u _ => hctx u
  | waitEnd pc running hk =>
    have hclear := clearListeners_frame (waitEnd_cases hk).1
    exact h.inThread (by rw [pc]; rfl) (by rw [hclear.cpu]) fun u _ => hclear.context u
  | yield pc => exact h.sameContexts rfl (.refl _)
  | exitGroup pc running hk => exact h.sameContexts rfl (sameContexts_terminateProcess hk)
  | exit pc running hk => exact h.sameContexts rfl (sameContexts_terminateThread hk)
  | dequeue pc running ne hk =>
    exact h.sameContexts (by rw [pc]; rfl) (sameContexts_dequeueThread hk)
  | terminateThread pc running ne hk =>
    exact h.sameContexts (by rw [pc]; rfl) (sameContexts_terminateThread hk)
  | terminateProcess pc running ne hk =>
    exact h.sameContexts (by rw [pc]; rfl) (sameContexts_terminateProcess hk)
  | @clone t r fork x k pc running unused hk =>
    obtain ⟨y, l, -, -, -, -, hthread, -, -, hcpu⟩ := cloneImpl_cases hk
    refine ⟨h.stores, ?_, ?_, ?_⟩
    · intro u hu
      have hu' : m.running ≠ some u := by
        unfold Machine.running at hu ⊢
        rw [← hcpu]
        exact hu
      by_cases hut : u = t
      · subst hut
        simp
      · show (k.thread u).context = Function.update m.held t _ u
        rw [hthread, Function.update_of_ne hut, Function.update_of_ne hut]
        exact h.away u hu'
    · intro c hc
      have hc' : m.pc = .retry c := hc
      rw [pc] at hc'
      cases hc'
    · intro u hu
      have hu' : m.pc = .picked u := hu
      rw [pc] at hu'
      cases hu'
  | destroy pc hk =>
    obtain ⟨-, k1, hl, rfl⟩ := destroyThread_cases hk
    exact h.inThread (by rw [pc]; rfl) (by rw [hl.cpu]) fun u _ => hl.context u
  | @exception vec r k pc running hk =>
    obtain ⟨k1, k2, h1, h2, rfl⟩ := exceptionHandler_cases hk
    have hsend := sameContexts_sendSignal h1
    obtain ⟨hctx, -, hcpu⟩ := dispatch_contexts h2
    refine h.inThread (by rw [pc]; rfl) ?_ ?_
    · show k2.cpu.runningThread = _
      rw [hcpu]
      show k1.cpu.runningThread = _
      rw [hsend.cpu]
    · intro t ht
      have htr : t ≠ r := by
        rintro rfl
        exact ht running
      show (k2.thread t).context = _
      rw [hctx t htr, exceptionSave, updateThread_thread_of_ne _ _ _ _ htr,
        hsend.context]
  | interruptIdle pc running =>
    refine ⟨h.stores, h.away, ?_, by simp⟩
    intro c hc
    obtain rfl := Pc.retry.inj hc
    exact ⟨running, rfl, by simp⟩
  | @interrupt r pc running =>
    refine ⟨h.stores, ?_, ?_, by simp⟩
    · intro t ht
      have htr : t ≠ r := by
        rintro rfl
        exact ht running
      show (m.kernel.thread t).context = Function.update m.held r _ t
      rw [Function.update_of_ne htr]
      exact h.away t ht
    · intro c hc
      obtain rfl := Pc.retry.inj hc
      refine ⟨running, rfl, ?_⟩
      intro t ht
      obtain rfl := Option.some.inj ht
      simp [cpuContext]
  | @selectFirst t k pc hk =>
    obtain ⟨hr, -, -⟩ := h.retry none pc
    refine h.switch pc (k := m.kernel) ?_ rfl hk h.stores
    intro u
    exact h.away u (by rw [hr]; simp)
  | @select c t k pc hk =>
    obtain ⟨hr, -, hframe⟩ := h.retry (some c) pc
    have hstored : ((m.kernel.isrSave c).thread c).context = m.held c := by
      rw [isrSave_context_self, hframe c rfl]
    refine h.switch (k := m.kernel.isrSave c) pc ?_ rfl hk ?_
    · intro u
      by_cases huc : u = c
      · rw [huc]
        exact hstored
      · rw [isrSave_context_of_ne huc]
        refine h.away u ?_
        rw [hr]
        simpa using Ne.symm huc
    · intro s hs
      obtain rfl | hs := List.mem_cons.mp hs
      · exact hstored
      · exact h.stores s hs
  | @again t k pc hk =>
    obtain ⟨k1, hdel, ⟨-, hdead, rfl⟩ | ⟨hf, -, -⟩⟩ := finish_cases hk
    · exact h.again hstays pc hdel hdead
    · cases hf
  | @resume t k pc hk =>
    obtain ⟨k1, hdel, ⟨hf, -, -⟩ | ⟨-, -, rfl⟩⟩ := finish_cases hk
    · cases hf
    obtain ⟨hctx, -, hcpu⟩ := deliver_contexts hdel
    obtain ⟨hr, -, -, -, -⟩ := h.picked t pc
    refine h.inThread ?_ ?_ ?_
    · split_ifs <;> rfl
    · show k1.cpu.runningThread = _
      rw [hcpu]
    · intro u hu
      have hut : u ≠ t := by
        rintro rfl
        exact hu hr
      rw [isrResume_thread_of_ne hut, hctx u hut]

end Isolated

theorem isolated_booted (idle main init : Thread) : Isolated (Machine.booted idle main init) := by
  refine ⟨?_, fun _ _ => rfl, ?_, ?_⟩
  · intro s hs
    cases hs
  · intro c hc
    cases hc
  · intro t ht
    cases ht

/-- **Main theorem.** In every run in which no other thread than the interrupted one is stopped or
    killed while `scheduler_isr` switches to it: every store of `scheduler_isr` is of what the CPU
    held when the thread was last switched away from; every thread that does not run keeps just
    that; and a thread that is resumed in user mode with no signal to handle gets it back. -/
theorem contexts_isolated {idle main init : Thread} {m : Machine}
    (h : Run Machine.step Stays (Machine.booted idle main init) m) :
    (∀ s ∈ m.stores, s.stored = s.held) ∧
    (∀ t, m.running ≠ some t ∨ m.pc = .picked t → (m.kernel.thread t).context = m.held t) ∧
    ∀ t m', m.pc = .picked t → m.step .finish = .ok m' → (m.held t).gpr.isUser →
      (m.kernel.thread t).enteringSignal = false → (m.kernel.thread t).exitingSignal = false →
      m'.pc = .user → m'.running = some t ∧ m'.kernel.cpuContext t = m.held t := by
  have hinv : Isolated m :=
    h.invariant (fun _ _ _ hs hc => hs.step hc) (isolated_booted idle main init)
  refine ⟨hinv.stores, ?_, ?_⟩
  · intro t ht
    obtain ht | ht := ht
    · exact hinv.away t ht
    · exact (hinv.picked t ht).context
  · intro t m' hpc hstep huser hentering hexiting hpc'
    obtain ⟨hrunning, hcontext, -, -, hsetup⟩ := hinv.picked t hpc
    cases Machine.step_effect hstep with
    | nothing =>
      rw [hpc] at hpc'
      cases hpc'
    | again pc hk => cases hpc'
    | @resume u k pc hk =>
      obtain rfl := Pc.picked.inj (hpc.symm.trans pc)
      obtain ⟨k1, hdel, ⟨hf, -, -⟩ | ⟨-, -, rfl⟩⟩ := finish_cases hk
      · cases hf
      have hnone : k1 = m.kernel := by
        unfold isrDeliver at hdel
        simp only [hentering, hexiting, Bool.false_eq_true, if_false, ite_self] at hdel
        exact (Except.ok.inj hdel).symm
      subst hnone
      have hsetup' : SetUp (m.kernel.isrResume t) (m.held t) :=
        ⟨hsetup.userStack, hsetup.kernelStack, hsetup.fsBase, hsetup.gsBase⟩
      refine ⟨hrunning, cpuContext_eq ⟨?_, ?_⟩ hsetup' ?_ huser⟩
      · rw [← hcontext]
        simp [isrResume, Thread.context]
      · intro e he
        rw [← hcontext] at he
        have he' : (m.kernel.thread t).extendedState = some e := he
        simp [isrResume, he']
      · rw [← hcontext]
        simp [isrResume, Thread.context]

/-- Two switches from boot: the main kernel thread and the init thread are stored with their own
    registers. -/
theorem contexts_isolated_twoSwitches :
    ∃ m, Run Machine.step Stays (Machine.booted {} {} initThread) m ∧ m.pc = .picked 4 ∧
      m.stores.map Store.thread = [1, 4] ∧ ∀ s ∈ m.stores, s.stored = s.held := by
  obtain ⟨m, hm, hread⟩ := exists_ok_of_map (show
    (([.interrupt, .select] ++ .finish :: [.interrupt, .select] : List Op).foldlM Machine.step
      (Machine.booted {} {} initThread)).map (fun m => (m.pc, m.stores.map Store.thread)) =
        .ok (.picked 4, [1, 4]) by decide +kernel)
  rw [List.foldlM_append] at hm
  obtain ⟨m1, h1, hm⟩ := bind_ok hm
  rw [List.foldlM_cons] at hm
  obtain ⟨m2, h2, hm⟩ := bind_ok hm
  have hread1 : (m1.pc, m1.kernel.state 1, (m1.kernel.thread 1).enteringSignal) =
      (.picked 1, .ready, false) :=
    map_ok_eq h1 (fun m => (m.pc, m.kernel.state 1, (m.kernel.thread 1).enteringSignal))
      (by decide +kernel)
  simp only [Prod.mk.injEq] at hread hread1
  have hstays : Stays m1 .finish := by
    intro t ht
    rw [hread1.1] at ht
    obtain rfl := Pc.picked.inj ht
    refine ⟨by rw [hread1.2.1]; simp, ?_⟩
    intro _ he
    rw [hread1.2.2] at he
    cases he
  have hrun1 : Run Machine.step Stays (Machine.booted {} {} initThread) m1 :=
    Run.start.foldlM (by simp [Stays]) h1
  have hrun := (hrun1.step hstays h2).foldlM (by simp [Stays]) hm
  exact ⟨m, hrun, hread.1, hread.2, (contexts_isolated hrun).1⟩

/-- The child that raises SIGSTOP is stopped when its turn comes after the init thread: the frame of
    the init thread is stored into it. -/
theorem stopped_child_gets_foreign_frame :
    ∃ m, Run Machine.step AnyStep (Machine.booted {} {} initThread) m ∧
      m.kernel.state 5 = .stopped ∧ (∃ s ∈ m.stores, s.thread = 5 ∧ s.stored ≠ s.held) ∧
      (m.held 5).gpr.rip = 0x5002#64 ∧ (m.kernel.thread 5).gprState.rip = 0x1000#64 := by
  obtain ⟨m, hm, hread⟩ := exists_ok_of_map (show
    (childStopped.foldlM Machine.step (Machine.booted {} {} initThread)).map (fun m =>
      (m.kernel.state 5, m.stores.any fun s => s.thread = 5 ∧ s.stored ≠ s.held,
        (m.held 5).gpr.rip, (m.kernel.thread 5).gprState.rip)) =
      .ok (.stopped, true, 0x5002#64, 0x1000#64) by decide +kernel)
  simp only [Prod.mk.injEq, List.any_eq_true, decide_eq_true_eq] at hread
  exact ⟨m, Run.start.foldlM (fun _ _ _ => trivial) hm, hread⟩

end Fishix.Sched
