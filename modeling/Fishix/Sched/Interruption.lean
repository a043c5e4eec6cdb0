import Fishix.Sched.Machine

/-!
# Which signals interrupt a wait

`Event::wait` looks at the signal mask before it sleeps (sched/event.cpp:34), and at
`enqueued_by_signal` when its thread runs again (sched/event.cpp:70). `Thread::send_signal`
(sched/sched.cpp:155-161) wakes a thread and leaves its number there whether the thread masks the
signal or not. `Unmasked` is that no signal comes to a sleeping thread that masks it.

A thread in `Event::wait` is in kernel code: the scheduler switches to it and delivers nothing. What
other threads do to themselves meanwhile, and the signals they get delivered, is `own`; the signals
and events that this sends and triggers are steps of their own.

* `wait_interrupted_pending`: in every run in which the signals are unmasked, a wait is interrupted
  only while an unmasked signal is pending.
* `maskedSignal_interrupts`: a run in which a masked signal interrupts a wait.
-/

namespace Fishix.Sched

/-- The threads, and those that are in `Event::wait` behind `dequeue_thread`. -/
structure Waiting where
  kernel : Kernel
  asleep : Tid → Bool := fun _ => false

namespace Waiting

inductive Op
  | sendSignal (t : Tid) (signal : Signal)
  | trigger (e : EventId) (drop : Bool) (maxToWake : ℤ)
  /-- `Event::wait` of a thread up to its `yield`. -/
  | wait (t : Tid) (events : List (Option EventId)) (nonblocking : Bool)
  /-- The rest of `Event::wait`. -/
  | waitEnd (t : Tid)
  /-- The scheduler switches to the next thread, which is in kernel code. -/
  | schedule (current : Option Tid)
  /-- A thread outside `Event::wait` changes its own record. -/
  | own (t : Tid) (f : Thread → Thread)

/-- A round of `scheduler_isr` (sched/sched.cpp:707-782) that delivers nothing. -/
def schedule (k : Kernel) (current : Option Tid) : Except Panic Kernel := do
  let k := match current with
    | none => k
    | some c => k.isrSave c
  let (t, k) ← k.isrPick current
  return k.isrResume t

/-- One step. What the code does not do at this point does nothing. -/
def step (w : Waiting) : Op → Except Panic Waiting
  | .sendSignal t signal => do
    let k ← w.kernel.sendSignal t signal
    return { w with kernel := k }
  | .trigger e drop n => do
    let (_, k) ← w.kernel.trigger e drop n
    return { w with kernel := k }
  | .wait t events nonblocking =>
    if w.asleep t then .ok w
    else do
      let (result, k) ← w.kernel.wait t events nonblocking
      return ⟨k, if result = .asleep then Function.update w.asleep t true else w.asleep⟩
  | .waitEnd t =>
    if w.asleep t ∧ w.kernel.state t ≠ .blocked then do
      let (_, k) ← w.kernel.waitEnd t
      return ⟨k, Function.update w.asleep t false⟩
    else .ok w
  | .schedule current => do
    let k ← schedule w.kernel current
    return { w with kernel := k }
  | .own t f =>
    if w.asleep t then .ok w else .ok { w with kernel := w.kernel.updateThread t f }

/-- No signal is sent to a sleeping thread that masks it. -/
def Unmasked (w : Waiting) : Op → Prop
  | .sendSignal t signal => w.asleep t → w.kernel.state t = .blocked →
      getSignalBit signal &&& ~~~(w.kernel.thread t).signalMask ≠ 0#64
  | _ => True

/-- Any step. -/
def AnyStep (_ : Waiting) (_ : Op) : Prop := True

end Waiting

/-! ## Reasons to be awake -/

/-- The thread still sleeps, or an event woke it, or it has a pending signal that it does not
    mask. -/
def Kernel.Roused (k : Kernel) (t : Tid) : Prop :=
  k.state t = .blocked ∨ (k.thread t).enqueuedBySignal = none ∨ k.hasPendingSignals t = true

section Roused

variable {k k' : Kernel} {t u : Tid} {e : EventId}

theorem Kernel.Roused.of_thread (h : k.Roused t) (hthread : k'.thread t = k.thread t) :
    k'.Roused t := by
  unfold Kernel.Roused Kernel.state Kernel.hasPendingSignals
  rw [hthread]
  exact h

theorem Kernel.Roused.updateThread_of_ne {f : Thread → Thread} (h : k.Roused t) (hu : t ≠ u) :
    (k.updateThread u f).Roused t :=
  h.of_thread (Kernel.updateThread_thread_of_ne k u t f hu)

/-- Marks change, and a thread that sleeps goes on sleeping. -/
theorem Kernel.Roused.updateThread {f : Thread → Thread} (h : k.Roused t)
    (hstate : k.state u = .blocked → (f (k.thread u)).state = .blocked)
    (hby : ∀ x, (f x).enqueuedBySignal = x.enqueuedBySignal)
    (hpending : ∀ x, (f x).pendingSignals = x.pendingSignals)
    (hmask : ∀ x, (f x).signalMask = x.signalMask) : (k.updateThread u f).Roused t := by
  by_cases hu : t = u
  · subst hu
    obtain hb | hn | hp := h
    · exact .inl (by simpa using hstate hb)
    · exact .inr (.inl (by simpa [hby] using hn))
    · right
      right
      simpa [Kernel.hasPendingSignals, hpending, hmask] using hp
  · exact h.updateThread_of_ne hu

/-- An event wakes without a signal. -/
theorem Kernel.Roused.enqueueThread (h : k.Roused t) (hk : k.enqueueThread u none = .ok k') :
    k'.Roused t := by
  obtain rfl | ⟨-, l, -, rfl⟩ := enqueueThread_cases hk
  · exact h
  by_cases hu : t = u
  · subst hu
    right
    left
    simp
  · exact h.of_thread (Kernel.updateThread_thread_of_ne { k with schedLinks := l } u t _ hu)

theorem roused_triggerLoop {maxToWake : ℤ} :
    ∀ {turns : ℕ} {k k' : Kernel} {pos next : Node} {n n' : ℤ},
      Kernel.triggerLoop e maxToWake turns k pos next n = .ok (n', k') → k.Roused t → k'.Roused t
  | 0, _, _, _, _, _, _, h, _ => by simp [Kernel.triggerLoop] at h
  | turns + 1, k, k', pos, next, n, n', h, hr => by
    unfold Kernel.triggerLoop at h
    cases pos with
    | head e' =>
      simp only at h
      split_ifs at h
      cases h
      exact hr
    | link p =>
      obtain ⟨k1, h1, h⟩ := bind_ok h
      have hmark : (k.updateThread (k.listener p).thread fun x =>
          { x with whichEvent := (k.listener p).which }).Roused t :=
        hr.updateThread id (fun _ => rfl) (fun _ => rfl) (fun _ => rfl)
      have hwake : k1.Roused t := hmark.enqueueThread h1
      split_ifs at h
      · cases h
        exact hwake
      · obtain ⟨next', -, h⟩ := bind_ok h
        exact roused_triggerLoop h hwake

section

variable (h : k.Roused t)

include h

theorem Kernel.Roused.trigger {drop : Bool} {maxToWake n : ℤ}
    (hk : k.trigger e drop maxToWake = .ok (n, k')) : k'.Roused t := by
  unfold Kernel.trigger at hk
  split_ifs at hk
  · cases hk
    exact h
  · cases hk
    exact h.of_thread rfl
  · obtain ⟨pos, -, hk⟩ := bind_ok hk
    obtain ⟨next, -, hk⟩ := bind_ok hk
    exact roused_triggerLoop hk h

theorem Kernel.Roused.triggerAll (hk : k.triggerAll e = .ok k') : k'.Roused t := by
  unfold Kernel.triggerAll at hk
  obtain ⟨⟨n, k1⟩, h1, rfl⟩ := bind_pure_ok hk
  exact h.trigger h1

/-- A signal is a reason when the thread does not mask it, or does not sleep. -/
theorem Kernel.Roused.sendSignal {signal : Signal} (hmask : t = u → k.state t = .blocked →
    getSignalBit signal &&& ~~~(k.thread t).signalMask ≠ 0#64) (hstopped : k.state t ≠ .stopped)
    (hk : k.sendSignal u signal = .ok k') : k'.Roused t := by
  unfold Kernel.sendSignal at hk
  obtain ⟨k1, h1, hk⟩ := bind_ok hk
  refine Kernel.Roused.triggerAll ?_ hk
  by_cases hu : t = u
  · subst hu
    have hstate : (k.updateThread t fun x =>
        { x with pendingSignals := x.pendingSignals ||| getSignalBit signal }).state t = k.state t :=
      Kernel.updateThread_state k t _ rfl t
    -- what was pending still is, and so is the signal
    have hpending : ∀ s : U64, ((k.thread t).pendingSignals = s ∨ getSignalBit signal = s) →
        s &&& ~~~(k.thread t).signalMask ≠ 0#64 →
        ((k.thread t).pendingSignals ||| getSignalBit signal) &&& ~~~(k.thread t).signalMask ≠
          0#64 := by
      intro s hs hne hzero
      rw [BitVec.and_or_distrib_right, BitVec.or_eq_zero_iff] at hzero
      obtain hs | hs := hs
      · exact hne (hs ▸ hzero.1)
      · exact hne (hs ▸ hzero.2)
    obtain rfl | ⟨hwake, l, -, rfl⟩ := enqueueThread_cases h1
    · obtain hb | hn | hp := h
      · exact .inl (hstate.trans hb)
      · exact .inr (.inl (by simpa using hn))
      · right
        right
        have hp' : (k.thread t).pendingSignals &&& ~~~(k.thread t).signalMask ≠ 0#64 := by
          simpa [Kernel.hasPendingSignals] using hp
        simpa [Kernel.hasPendingSignals] using hpending _ (.inl rfl) hp'
    · rw [hstate] at hwake
      have hblocked := hwake.resolve_right fun hc => hstopped hc.1
      right
      right
      simpa [Kernel.hasPendingSignals] using hpending _ (.inr rfl) (hmask rfl hblocked)
  · refine h.of_thread ?_
    rw [← Kernel.updateThread_thread_of_ne k u t (fun x =>
      { x with pendingSignals := x.pendingSignals ||| getSignalBit signal }) hu]
    obtain rfl | ⟨-, l, -, rfl⟩ := enqueueThread_cases h1
    · rfl
    · exact Kernel.updateThread_thread_of_ne _ u t _ hu

theorem roused_continueStopped (hk : k.continueStopped u = .ok k') : k'.Roused t := by
  unfold Kernel.continueStopped at hk
  split_ifs at hk with hc
  · refine Kernel.Roused.triggerAll ?_ hk
    have hready : (k.updateThread u fun x => { x with state := .ready }).Roused t := by
      refine h.updateThread ?_ (fun _ => rfl) (fun _ => rfl) (fun _ => rfl)
      intro hb
      rw [hc.2] at hb
      cases hb
    exact hready.of_thread rfl
  · cases hk
    exact h

/-- A round of the scheduler that delivers nothing. -/
theorem roused_schedule {c : Option Tid} (hk : Waiting.schedule k c = .ok k') : k'.Roused t := by
  unfold Waiting.schedule at hk
  obtain ⟨⟨u, k1⟩, hpick, rfl⟩ := bind_pure_ok hk
  generalize hsave : (match c with
    | none => k
    | some c => k.isrSave c) = k0 at hpick
  have h0 : k0.Roused t := by
    subst hsave
    cases c with
    | none => exact h
    | some c =>
      refine h.updateThread ?_ (fun _ => rfl) (fun _ => rfl) (fun _ => rfl)
      intro hb
      have hb' : (k.thread c).state = .blocked := hb
      simp [hb']
  obtain ⟨-, hawake, -, hcont⟩ := pick_cases hpick
  have hswitch : (k0.switchTo u).Roused t := h0.of_thread rfl
  have h1 : k1.Roused t := roused_continueStopped hswitch hcont
  -- the thread that is resumed does not sleep
  have hawake1 : k1.state u ≠ .blocked := by
    obtain ⟨rfl, -⟩ | ⟨-, hw⟩ := continueStopped_cases hcont
    · exact hawake
    · have hready : ((k0.switchTo u).updateThread u fun x => { x with state := .ready }).state u =
          .ready := by simp
      rw [(Wakes.quiet hw).state_of_ne_blocked (by rw [hready]; simp), hready]
      simp
  have hrun : (k1.updateThread u fun x => { x with state := .running }).Roused t :=
    h1.updateThread (fun hb => absurd hb hawake1) (fun _ => rfl) (fun _ => rfl) (fun _ => rfl)
  exact hrun.of_thread rfl

/-- Registering and clearing listeners leaves the reasons alone. -/
theorem Kernel.Roused.listensOnly (hk : ListensOnly k k') : k'.Roused t := by
  obtain ⟨v, hv⟩ := hk.thread t
  unfold Kernel.Roused Kernel.state Kernel.hasPendingSignals
  rw [hv]
  exact h

end

theorem dequeueThread_asleep (h : k.dequeueThread t none = .ok k') :
    ∃ l, k' = k.setAside l t .blocked := by
  unfold Kernel.dequeueThread at h
  obtain ⟨u, -, h⟩ := bind_ok h
  obtain ⟨k1, hu, h⟩ := bind_ok h
  obtain ⟨l, -, rfl⟩ := unlinkThread_ok_iff.mp hu
  exact ⟨l, (Except.ok.inj h).symm⟩

theorem wait_interrupted {events : List (Option EventId)} {nonblocking : Bool}
    (h : k.wait t events nonblocking = .ok (.interrupted, k')) : k.hasPendingSignals t := by
  unfold Kernel.wait at h
  by_cases hsignal : k.hasPendingSignals t
  · exact hsignal
  rw [if_neg hsignal] at h
  split at h
  · split at h
    · cases h
    · cases h
  · by_cases hblock : nonblocking
    · rw [if_pos hblock] at h
      cases h
    · rw [if_neg hblock] at h
      obtain ⟨u, -, h⟩ := bind_ok h
      obtain ⟨k1, -, h⟩ := bind_ok h
      obtain ⟨k2, -, h⟩ := bind_ok h
      cases h

/-! ## Stopped threads -/

theorem Quiet.unstopped (h : Quiet k k') (ht : k.state t ≠ .stopped) : k'.state t ≠ .stopped := by
  obtain hs | ⟨-, hs⟩ := h.state t
  · rw [hs]
    exact ht
  · rw [hs]
    simp

theorem unstopped_sendSignal {signal : Signal} (ht : k.state t ≠ .stopped)
    (h : k.sendSignal u signal = .ok k') : k'.state t ≠ .stopped := by
  unfold Kernel.sendSignal at h
  obtain ⟨k1, h1, h⟩ := bind_ok h
  have hmark : (k.updateThread u fun x =>
      { x with pendingSignals := x.pendingSignals ||| getSignalBit signal }).state t = k.state t :=
    Kernel.updateThread_state k u _ rfl t
  refine (Wakes.quiet (wakes_triggerAll h)).unstopped ?_
  obtain rfl | ⟨-, l, -, rfl⟩ := enqueueThread_cases h1
  · rw [hmark]
    exact ht
  · by_cases hu : t = u
    · subst hu
      rw [Kernel.updateThread_state_self]
      simp only
      split_ifs
      · simp
      · exact fun hs => ht (hmark.symm.trans hs)
    · rw [Kernel.updateThread_state_of_ne _ _ _ _ hu]
      exact fun hs => ht (hmark.symm.trans hs)

theorem unstopped_schedule {c : Option Tid} (ht : k.state t ≠ .stopped)
    (h : Waiting.schedule k c = .ok k') : k'.state t ≠ .stopped := by
  unfold Waiting.schedule at h
  obtain ⟨⟨u, k1⟩, hpick, rfl⟩ := bind_pure_ok h
  generalize hsave : (match c with
    | none => k
    | some c => k.isrSave c) = k0 at hpick
  have h0 : k0.state t ≠ .stopped := by
    subst hsave
    cases c with
    | none => exact ht
    | some c =>
      show (k.isrSave c).state t ≠ .stopped
      by_cases hc : t = c
      · subst hc
        have ht' : (k.thread t).state ≠ .stopped := ht
        rw [Kernel.isrSave, Kernel.updateThread_state_self]
        simp only
        split_ifs
        · simp
        · exact ht'
      · rw [Kernel.isrSave, Kernel.updateThread_state_of_ne _ _ _ _ hc]
        exact ht
  obtain ⟨-, -, -, hcont⟩ := pick_cases hpick
  by_cases hu : t = u
  · subst hu
    rw [isrResume_state_self]
    simp
  · rw [isrResume_state_of_ne hu]
    obtain ⟨rfl, -⟩ | ⟨-, hw⟩ := continueStopped_cases hcont
    · exact h0
    · refine (Wakes.quiet hw).unstopped ?_
      rw [Kernel.updateThread_state_of_ne _ _ _ _ hu]
      exact h0

end Roused

namespace Waiting

/-- What holds of the threads in `Event::wait`. -/
structure Kept (w : Waiting) : Prop where
  roused : ∀ t, w.asleep t → w.kernel.Roused t
  unstopped : ∀ t, w.asleep t → w.kernel.state t ≠ .stopped

namespace Kept

variable {w : Waiting}

theorem step {w' : Waiting} {op : Op} (h : Kept w) (hunmasked : Unmasked w op)
    (hstep : w.step op = .ok w') : Kept w' := by
  cases op with
  | sendSignal t signal =>
    obtain ⟨k, hk, rfl⟩ := bind_pure_ok hstep
    refine ⟨fun u hu => (h.roused u hu).sendSignal ?_ (h.unstopped u hu) hk,
      fun u hu => unstopped_sendSignal (h.unstopped u hu) hk⟩
    intro hut
    subst hut
    exact hunmasked hu
  | trigger e drop n =>
    obtain ⟨⟨n', k⟩, hk, rfl⟩ := bind_pure_ok hstep
    exact ⟨fun u hu => (h.roused u hu).trigger hk,
      fun u hu => (Wakes.quiet (wakes_trigger hk)).unstopped (h.unstopped u hu)⟩
  | wait t events nonblocking =>
    unfold Waiting.step at hstep
    simp only at hstep
    split_ifs at hstep with hasleep
    · cases hstep
      exact h
    obtain ⟨⟨result, k⟩, hk, rfl⟩ := bind_pure_ok hstep
    obtain ⟨hne, hcases⟩ | ⟨rfl, -, -, -, -, k1, hreg, hdeq⟩ := wait_cases hk
    · simp only [if_neg hne]
      obtain rfl | ⟨e, rfl⟩ := hcases
      · exact ⟨h.roused, h.unstopped⟩
      · exact ⟨fun u hu => (h.roused u hu).of_thread rfl, h.unstopped⟩
    · have hframe := register_frame hreg
      obtain ⟨l, rfl⟩ := dequeueThread_asleep hdeq
      rw [if_pos rfl]
      constructor
      · intro u hu
        by_cases hut : u = t
        · subst hut
          exact .inl setAside_state_self
        · have hu' : w.asleep u := by simpa [Function.update_of_ne hut] using hu
          exact ((h.roused u hu').listensOnly hframe).of_thread (setAside_thread_of_ne hut)
      · intro u hu
        by_cases hut : u = t
        · subst hut
          show (k1.setAside l u .blocked).state u ≠ .stopped
          rw [setAside_state_self]
          simp
        · have hu' : w.asleep u := by simpa [Function.update_of_ne hut] using hu
          show (k1.setAside l t .blocked).state u ≠ .stopped
          rw [setAside_state_of_ne hut, hframe.state]
          exact h.unstopped u hu'
  | waitEnd t =>
    unfold Waiting.step at hstep
    simp only at hstep
    split_ifs at hstep with hasleep
    · obtain ⟨⟨result, k⟩, hk, rfl⟩ := bind_pure_ok hstep
      have hframe := clearListeners_frame (waitEnd_cases hk).1
      have hold : ∀ u, Function.update w.asleep t false u = true → w.asleep u = true := by
        intro u hu
        by_cases hut : u = t
        · subst hut
          simp at hu
        · simpa [Function.update_of_ne hut] using hu
      refine ⟨fun u hu => (h.roused u (hold u hu)).listensOnly hframe, ?_⟩
      intro u hu
      show k.state u ≠ .stopped
      rw [hframe.state]
      exact h.unstopped u (hold u hu)
    · cases hstep
      exact h
  | schedule current =>
    obtain ⟨k, hk, rfl⟩ := bind_pure_ok hstep
    exact ⟨fun u hu => roused_schedule (h.roused u hu) hk,
      fun u hu => unstopped_schedule (h.unstopped u hu) hk⟩
  | own t f =>
    unfold Waiting.step at hstep
    simp only at hstep
    split_ifs at hstep with hasleep
    · cases hstep
      exact h
    · cases hstep
      have hne : ∀ u, w.asleep u = true → u ≠ t := by
        intro u hu hut
        exact hasleep (hut ▸ hu)
      refine ⟨fun u hu => (h.roused u hu).updateThread_of_ne (hne u hu), ?_⟩
      intro u hu
      show (w.kernel.updateThread t f).state u ≠ .stopped
      rw [Kernel.updateThread_state_of_ne _ _ _ _ (hne u hu)]
      exact h.unstopped u hu

end Kept

/-- **Main theorem.** In every run, from any kernel, in which no signal comes to a sleeping thread
    that masks it: a thread whose wait is over was woken by an event or has a pending signal that it
    does not mask, and `Event::wait` returns `-EINTR` only to a thread that has such a signal. -/
theorem wait_interrupted_pending {k0 : Kernel} {w : Waiting}
    (h : Run step Unmasked { kernel := k0 } w) :
    (∀ t, w.asleep t → w.kernel.state t ≠ .blocked →
      (w.kernel.thread t).enqueuedBySignal = none ∨ w.kernel.hasPendingSignals t) ∧
    (∀ t k, w.asleep t → w.kernel.state t ≠ .blocked →
      w.kernel.waitEnd t = .ok (.interrupted, k) → w.kernel.hasPendingSignals t) ∧
    ∀ t events nonblocking k, w.kernel.wait t events nonblocking = .ok (.interrupted, k) →
      w.kernel.hasPendingSignals t := by
  have hkept : Kept w := h.invariant (fun _ _ _ hs hu hstep => hs.step hu hstep)
    ⟨fun _ ht => by simp at ht, fun _ ht => by simp at ht⟩
  have hawake : ∀ t, w.asleep t → w.kernel.state t ≠ .blocked →
      (w.kernel.thread t).enqueuedBySignal = none ∨ w.kernel.hasPendingSignals t :=
    fun t ht hstate => (hkept.roused t ht).resolve_left hstate
  refine ⟨hawake, ?_, ?_⟩
  · intro t k ht hstate hend
    refine (hawake t ht hstate).resolve_left ?_
    obtain ⟨-, hresult⟩ := waitEnd_cases hend
    split_ifs at hresult with hby
    exact hby
  · intro t events nonblocking k hwait
    exact wait_interrupted hwait

/-- The init process masks SIGUSR1. -/
def masking : Waiting :=
  { kernel := .booted {} {} { signalMask := getSignalBit 10 } }

/-- It is switched to, waits for event 7 and is switched away from. -/
def fallAsleep : List Op := [.schedule (some 4), .wait 1 [some 7] false, .schedule (some 1)]

/-- SIGUSR2 comes, which is not masked. -/
theorem wait_interrupted_pending_usr2 :
    ∃ w, Run step Unmasked masking w ∧ w.asleep 1 ∧ w.kernel.state 1 = .running ∧
      ((w.kernel.thread 1).enqueuedBySignal = none ∨ w.kernel.hasPendingSignals 1) := by
  obtain ⟨w, hw, hread⟩ := exists_ok_of_map (show
    ((fallAsleep ++ .sendSignal 1 12 :: [.schedule (some 4)] : List Op).foldlM step masking).map
      (fun w => (w.asleep 1, w.kernel.state 1)) = .ok (true, .running) by decide +kernel)
  obtain ⟨hasleep, hstate⟩ := Prod.mk.inj hread
  rw [List.foldlM_append] at hw
  obtain ⟨w1, h1, hw⟩ := bind_ok hw
  rw [List.foldlM_cons] at hw
  obtain ⟨w2, h2, hw⟩ := bind_ok hw
  have hmask : (w1.kernel.thread 1).signalMask = getSignalBit 10 :=
    map_ok_eq h1 (fun w => (w.kernel.thread 1).signalMask) (by decide +kernel)
  have hunmasked : Unmasked w1 (.sendSignal 1 12) := by
    intro _ _
    rw [hmask]
    decide
  have hrun1 : Run step Unmasked masking w1 :=
    Run.start.foldlM (by simp [fallAsleep, Unmasked]) h1
  have hrun := (hrun1.step hunmasked h2).foldlM (by simp [Unmasked]) hw
  refine ⟨w, hrun, hasleep, hstate, ?_⟩
  exact (wait_interrupted_pending hrun).1 1 hasleep (by rw [hstate]; simp)

/-- SIGUSR1 comes, which is masked, and the wait returns `-EINTR`. -/
theorem maskedSignal_interrupts :
    ∃ w k, Run step AnyStep masking w ∧ w.asleep 1 ∧
      w.kernel.waitEnd 1 = .ok (.interrupted, k) ∧ ¬w.kernel.hasPendingSignals 1 := by
  obtain ⟨w, hw, hread⟩ := exists_ok_of_map (show
    ((fallAsleep ++ [.sendSignal 1 10, .schedule (some 4)] : List Op).foldlM step masking).map
      (fun w => (w.asleep 1, (w.kernel.waitEnd 1).map (fun x => x.1),
        w.kernel.hasPendingSignals 1)) = .ok (true, .ok .interrupted, false) by decide +kernel)
  simp only [Prod.mk.injEq] at hread
  obtain ⟨hasleep, hend, hpending⟩ := hread
  obtain ⟨⟨result, k⟩, hk, hresult⟩ := exists_ok_of_map hend
  have hresult' : result = .interrupted := hresult
  subst hresult'
  exact ⟨w, k, Run.start.foldlM (fun _ _ _ => trivial) hw, hasleep, hk, by simp [hpending]⟩

end Waiting

end Fishix.Sched
