import Fishix.Common.TimeSpec
import Fishix.Mem.Basic

/-!
# Timers

Model of `sched/time.cpp` lines 16-75 and 122-136: armed timers, what `update_time` does to each of
them, and `nanosleep`. A timer counts how often it triggered its event and called its callback; the
kernel has no such counts. The only callback sends `SIGALRM` to a process (sched/time.cpp:186-189)
and touches no timer.

`remaining` loses a nanosecond with every second that is borrowed (`TimeSpec.short_sub`), so a
timer may fire early and never fires late. `InGap` is when it does.

* `updateTime_timer`: every armed timer is counted down once in an update.
* `run_counting`: what a timer that has been armed once does from then on.
* `oneShot_exact`: when it fires at the right update, and what an interrupted sleep reports.
* `early_by_one`: a second and a half that are over after one nanosecond less.
-/

namespace Fishix.Sched

abbrev TimerId := ℕ

/-- `Timer` (sched/time.hpp:10-27), with the events triggered and the callbacks made so far. A
    callback is the process it signals. -/
structure Timer where
  remaining : TimeSpec := {}
  interval : TimeSpec := {}
  callback : Option ℕ := none
  fired : Bool := false
  triggered : ℕ := 0
  called : ℕ := 0

/-- The timers, `armed_timers_list`, the list of every thread, and the clocks
    (sched/time.cpp:10-14, sched/sched.hpp:41). -/
structure Timers where
  timer : TimerId → Timer := fun _ => {}
  armed : List TimerId := []
  threadTimers : ℕ → List TimerId := fun _ => []
  monotonicClock : TimeSpec := {}
  realtimeClock : TimeSpec := {}

/-- The time after which a timer fires is over. -/
def Timer.expires (x : Timer) (elapsed : TimeSpec) : Bool :=
  !x.fired && (x.remaining.sub elapsed).isZero && x.interval.isZero

/-- One turn of the loop of `update_time` on the timer itself (sched/time.cpp:59-73). -/
def Timer.update (x : Timer) (elapsed : TimeSpec) : Timer :=
  if x.fired then x
  else
    let x := { x with remaining := x.remaining.sub elapsed }
    if x.remaining.isZero then
      let x := if x.interval.isZero then { x with fired := true, triggered := x.triggered + 1 }
        else { x with remaining := x.interval }
      if x.callback.isSome then { x with called := x.called + 1 } else x
    else x

namespace Timers

/-- `Timer::arm` by the thread `c` (sched/time.cpp:16-27). -/
def arm (s : Timers) (c : ℕ) (t : TimerId) (time : TimeSpec) (callback : Option ℕ) : Timers :=
  let x := s.timer t
  { s with
    timer := Function.update s.timer t { x with
      remaining := time
      fired := false
      callback := if callback.isSome then callback else x.callback }
    threadTimers := Function.update s.threadTimers c (s.threadTimers c ++ [t])
    armed := s.armed ++ [t] }

/-- `Timer::disarm` (sched/time.cpp:29-42). -/
def disarm (s : Timers) (t : TimerId) : Timers :=
  { s with
    timer := Function.update s.timer t { s.timer t with
      remaining := {}, interval := {}, callback := none }
    armed := s.armed.erase t
    threadTimers := fun c => (s.threadTimers c).erase t }

/-- The end of `Thread::~Thread` (sched/sched.cpp:116-118). -/
def disarmAll (s : Timers) (c : ℕ) : Timers := (s.threadTimers c).foldl disarm s

/-- One turn of the loop of `update_time` (sched/time.cpp:58-74). -/
def updateOne (elapsed : TimeSpec) (s : Timers) (t : TimerId) : Timers :=
  { s with
    timer := Function.update s.timer t ((s.timer t).update elapsed)
    armed := if (s.timer t).expires elapsed then s.armed.erase t else s.armed }

/-- `update_time` (sched/time.cpp:51-75). The loop reads the next timer before it removes one. -/
def updateTime (s : Timers) (elapsed : TimeSpec) : Timers :=
  let s := { s with
    monotonicClock := s.monotonicClock.add elapsed
    realtimeClock := s.realtimeClock.add elapsed }
  s.armed.foldl (updateOne elapsed) s

end Timers

inductive TimerOp where
  /-- A thread sets `interval` and arms the timer: `setitimer_impl` sets it to what it is given
      (sched/time.cpp:185), the others leave the zero of a new timer. -/
  | arm (c : ℕ) (t : TimerId) (interval time : TimeSpec) (callback : Option ℕ)
  | disarm (t : TimerId)
  /-- A thread is destroyed. -/
  | destroy (c : ℕ)
  | update (elapsed : TimeSpec)

namespace Timers

def step (s : Timers) : TimerOp → Timers
  | .arm c t interval time callback =>
    arm { s with timer := Function.update s.timer t { s.timer t with interval } } c t time callback
  | .disarm t => s.disarm t
  | .destroy c => s.disarmAll c
  | .update elapsed => s.updateTime elapsed

def run (s : Timers) (ops : List TimerOp) : Timers := ops.foldl step s

/-- Timers are armed when they are in no list (their callers make them for one call or disarm them
    first), and time does not go back. -/
def Allows (s : Timers) : TimerOp → Prop
  | .arm _ t _ _ _ => t ∉ s.armed ∧ ∀ c, t ∉ s.threadTimers c
  | .disarm _ => True
  | .destroy _ => True
  | .update elapsed => elapsed.Normal

/-- Every step of the run is allowed in the state before it. -/
def AllowsAll (s : Timers) : List TimerOp → Prop
  | [] => True
  | o :: ops => s.Allows o ∧ (s.step o).AllowsAll ops

/-- `init_time` (sched/time.cpp:44-49). -/
def booted (epoch : ℤ) : Timers := { realtimeClock := { seconds := epoch } }

end Timers

/-- How `clock_nanosleep_impl` returns. -/
inductive SleepResult where
  | interrupted
  | done
deriving DecidableEq

/-- The end of `clock_nanosleep_impl` (sched/time.cpp:129-135): the return value, and what is
    stored behind `remaining` if that is not null. -/
def Timers.nanosleepEnd (s : Timers) (t : TimerId) (interrupted wantsRemaining : Bool) :
    Except Mem.Panic ((SleepResult × Option TimeSpec) × Timers) :=
  let s := s.disarm t
  let remaining := if wantsRemaining then some (s.timer t).remaining else none
  if interrupted then .ok ((.interrupted, remaining), s)
  else do
    Mem.assert (s.timer t).fired
    .ok ((.done, remaining), s)

/-- The intervals of the updates of a run. -/
def elapsed : List TimerOp → List TimeSpec
  | [] => []
  | .update i :: ops => i :: elapsed ops
  | _ :: ops => elapsed ops

/-- The step is none on the timer `t` of the thread `c`. -/
def TimerOp.Spares (t : TimerId) (c : ℕ) : TimerOp → Prop
  | .arm _ t' _ _ _ => t' ≠ t
  | .disarm t' => t' ≠ t
  | .destroy c' => c' ≠ c
  | .update _ => True

/-- What the timer `x₁`, just armed, has become where its time is up or not: it has fired, its event
    has been triggered and its callback called once, or none of these. -/
structure Shows (x₁ x : Timer) (due : Prop) [Decidable due] : Prop where
  fired : x.fired = decide due
  triggered : x.triggered = x₁.triggered + if due then 1 else 0
  called : x.called = x₁.called + if due ∧ x₁.callback.isSome then 1 else 0

/-- The time elapsed is less than `d`, but by no more nanoseconds than there are whole seconds of
    `d` left that have to be borrowed. -/
def InGap (d : TimeSpec) (ts : List TimeSpec) : Prop :=
  TimeSpec.total ts < d.ns ∧ d.ns ≤ TimeSpec.total ts + (d.seconds - TimeSpec.wholeSeconds ts)

/-! ## One update -/

section Update

variable {s : Timers} {t u : TimerId} {i : TimeSpec} {l : List TimerId}

theorem updateOne_timer_of_ne (h : t ≠ u) : (s.updateOne i u).timer t = s.timer t :=
  Function.update_of_ne h ..

/-- A loop over timers counts each of them down once. -/
theorem updateOne_foldl_timer (hl : l.Nodup) :
    (l.foldl (Timers.updateOne i) s).timer t =
      if t ∈ l then (s.timer t).update i else s.timer t := by
  induction l generalizing s with
  | nil => simp
  | cons u l ih =>
    obtain ⟨hu, hl⟩ := List.nodup_cons.mp hl
    rw [List.foldl_cons, ih hl]
    by_cases htu : t = u
    · subst htu
      rw [if_neg hu, if_pos List.mem_cons_self]
      exact Function.update_self ..
    · rw [updateOne_timer_of_ne htu]
      simp [htu]

theorem updateOne_foldl_nodup (hs : s.armed.Nodup) :
    (l.foldl (Timers.updateOne i) s).armed.Nodup := by
  induction l generalizing s with
  | nil => exact hs
  | cons u l ih =>
    apply ih
    unfold Timers.updateOne
    simp only
    split_ifs
    · exact hs.erase u
    · exact hs

theorem updateOne_foldl_armed (ht : t ∈ s.armed) (hl : l.Nodup)
    (hfires : t ∈ l → (s.timer t).expires i = false) :
    t ∈ (l.foldl (Timers.updateOne i) s).armed := by
  induction l generalizing s with
  | nil => exact ht
  | cons u l ih =>
    obtain ⟨hu, hnodup⟩ := List.nodup_cons.mp hl
    rw [List.foldl_cons]
    by_cases htu : t = u
    · subst htu
      have hstays : (s.updateOne i t).armed = s.armed := by
        unfold Timers.updateOne
        rw [hfires List.mem_cons_self]
        rfl
      exact ih (by rw [hstays]; exact ht) hnodup fun h => absurd h hu
    · have hstays : t ∈ (s.updateOne i u).armed := by
        unfold Timers.updateOne
        simp only
        split_ifs
        · exact (List.mem_erase_of_ne htu).mpr ht
        · exact ht
      refine ih hstays hnodup fun h => ?_
      rw [updateOne_timer_of_ne htu]
      exact hfires (List.mem_cons_of_mem u h)

theorem updateOne_foldl_threadTimers :
    (l.foldl (Timers.updateOne i) s).threadTimers = s.threadTimers := by
  induction l generalizing s with
  | nil => rfl
  | cons u l ih => exact ih

end Update

/-- Every armed timer is counted down once in an update, and no other timer. -/
theorem updateTime_timer {s : Timers} (hs : s.armed.Nodup) (i : TimeSpec) (t : TimerId) :
    (s.updateTime i).timer t = if t ∈ s.armed then (s.timer t).update i else s.timer t :=
  updateOne_foldl_timer hs

/-! ## Runs -/

/-- No timer is twice in the list. -/
theorem step_nodup {s : Timers} (hs : s.armed.Nodup) {o : TimerOp} (ho : s.Allows o) :
    (s.step o).armed.Nodup := by
  have hdisarm : ∀ (l : List TimerId) (s : Timers), s.armed.Nodup →
      (l.foldl Timers.disarm s).armed.Nodup := by
    intro l
    induction l with
    | nil => exact fun _ hs => hs
    | cons t l ih => exact fun s hs => ih _ (hs.erase t)
  cases o with
  | arm c t interval time callback =>
    show (s.armed ++ [t]).Nodup
    rw [List.nodup_append]
    refine ⟨hs, List.nodup_singleton t, ?_⟩
    intro u hu u' hu' h
    rw [List.mem_singleton] at hu'
    rw [h, hu'] at hu
    exact ho.1 hu
  | disarm t => exact hs.erase t
  | destroy c => exact hdisarm _ s hs
  | update i => exact updateOne_foldl_nodup hs

theorem run_nodup {s : Timers} (hs : s.armed.Nodup) {ops : List TimerOp} (hops : s.AllowsAll ops) :
    (s.run ops).armed.Nodup := by
  induction ops generalizing s with
  | nil => exact hs
  | cons o ops ih => exact ih (step_nodup hs hops.1) hops.2

/-- The timer `t` of the thread `c`, armed for `d` as `x₁`, when times of `w` in all, every second
    short, have elapsed: it has `d.short - w` left, or it has fired. -/
structure Counting (x₁ : Timer) (d : TimeSpec) (c : ℕ) (t : TimerId) (w : ℤ) (s : Timers) : Prop where
  nodup : s.armed.Nodup
  elsewhere : ∀ c', c' ≠ c → t ∉ s.threadTimers c'
  waiting : w < d.short → t ∈ s.armed ∧ ∃ r : TimeSpec, r.Normal ∧ r.short = d.short - w ∧
    s.timer t = { x₁ with remaining := r }
  due : d.short ≤ w → Shows x₁ (s.timer t) True

section Counting

variable {x₁ : Timer} {d : TimeSpec} {c : ℕ} {t : TimerId} {w : ℤ} {s : Timers}

/-- What a step on other timers keeps. -/
theorem Counting.frame {s' : Timers} (h : Counting x₁ d c t w s) (hnodup : s'.armed.Nodup)
    (htimer : s'.timer t = s.timer t) (harmed : t ∈ s.armed → t ∈ s'.armed)
    (helsewhere : ∀ c', c' ≠ c → t ∉ s'.threadTimers c') : Counting x₁ d c t w s' where
  nodup := hnodup
  elsewhere := helsewhere
  waiting := by
    intro hw
    obtain ⟨harm, hr⟩ := h.waiting hw
    rw [htimer]
    exact ⟨harmed harm, hr⟩
  due := by
    intro hw
    rw [htimer]
    exact h.due hw

theorem Counting.disarm {u : TimerId} (h : Counting x₁ d c t w s) (hu : u ≠ t) :
    Counting x₁ d c t w (s.disarm u) := by
  refine h.frame (h.nodup.erase u) (Function.update_of_ne hu.symm ..) ?_ ?_
  · exact fun ht => (List.mem_erase_of_ne hu.symm).mpr ht
  · exact fun c' hc' ht => h.elsewhere c' hc' (List.mem_of_mem_erase ht)

theorem Counting.disarmAll {c' : ℕ} (h : Counting x₁ d c t w s) (hc : c' ≠ c) :
    Counting x₁ d c t w (s.disarmAll c') := by
  have hfold : ∀ (l : List TimerId) (s : Timers), t ∉ l → Counting x₁ d c t w s →
      Counting x₁ d c t w (l.foldl Timers.disarm s) := by
    intro l
    induction l with
    | nil => exact fun _ _ h => h
    | cons u l ih =>
      intro s ht h
      rw [List.mem_cons, not_or] at ht
      exact ih _ ht.2 (h.disarm (Ne.symm ht.1))
  exact hfold _ s (h.elsewhere c' hc) h

theorem Timer.update_of_fired {x : Timer} (i : TimeSpec) (h : x.fired = true) : x.update i = x := by
  unfold Timer.update
  rw [if_pos h]

theorem Timer.update_eq {x : Timer} {r i : TimeSpec} (hfired : x.fired = false)
    (hinterval : x.interval = {}) (hr : r.Normal) (hi : i.Normal) :
    (i.short < r.short → ({ x with remaining := r } : Timer).update i =
      { x with remaining := r.sub i } ∧ ({ x with remaining := r } : Timer).expires i = false) ∧
    (r.short ≤ i.short → Shows x (({ x with remaining := r } : Timer).update i) True) := by
  have hleft := TimeSpec.normal_sub hr hi
  have hshort := TimeSpec.short_sub hr hi
  have hzero := TimeSpec.isZero_iff hleft
  constructor
  · intro hlt
    have hsome : (r.sub i).isZero = false := by
      rw [Bool.eq_false_iff, ne_eq, hzero]
      omega
    simp [Timer.update, Timer.expires, hfired, hsome]
  · intro hle
    have hnone : (r.sub i).isZero = true := by
      rw [hzero]
      omega
    have hone : ({} : TimeSpec).isZero = true := rfl
    unfold Timer.update
    simp only [hfired, hnone, hinterval, hone, Bool.false_eq_true, if_false, if_true]
    by_cases hcall : x.callback.isSome = true
    · rw [if_pos hcall]
      exact ⟨rfl, rfl, by simp [hcall]⟩
    · rw [if_neg hcall]
      exact ⟨rfl, rfl, by simp [hcall]⟩

theorem Counting.update {i : TimeSpec} (hfired : x₁.fired = false) (hinterval : x₁.interval = {})
    (h : Counting x₁ d c t w s) (hi : i.Normal) :
    Counting x₁ d c t (w + i.short) (s.updateTime i) := by
  have hpos := hi.short_nonneg
  refine ⟨updateOne_foldl_nodup h.nodup, ?_, ?_, ?_⟩
  · intro c' hc'
    unfold Timers.updateTime
    rw [updateOne_foldl_threadTimers]
    exact h.elsewhere c' hc'
  · intro hw
    obtain ⟨harmed, r, hr, hshort, htimer⟩ := h.waiting (by omega)
    obtain ⟨hkept, hstays⟩ := (Timer.update_eq hfired hinterval hr hi).1 (by omega)
    refine ⟨?_, r.sub i, TimeSpec.normal_sub hr hi, ?_, ?_⟩
    · unfold Timers.updateTime
      refine updateOne_foldl_armed harmed h.nodup fun _ => ?_
      show (s.timer t).expires i = false
      rw [htimer]
      exact hstays
    · rw [TimeSpec.short_sub hr hi]
      omega
    · rw [updateTime_timer h.nodup, if_pos harmed, htimer]
      exact hkept
  · intro hw
    rw [updateTime_timer h.nodup]
    by_cases hbefore : w < d.short
    · obtain ⟨harmed, r, hr, hshort, htimer⟩ := h.waiting hbefore
      rw [if_pos harmed, htimer]
      exact (Timer.update_eq hfired hinterval hr hi).2 (by omega)
    · have hshows := h.due (by omega)
      have hold : (s.timer t).fired = true := by simpa using hshows.fired
      rw [Timer.update_of_fired i hold, ite_self]
      exact hshows

theorem Counting.step {o : TimerOp} (hfired : x₁.fired = false) (hinterval : x₁.interval = {})
    (h : Counting x₁ d c t w s) (ho : s.Allows o) (hspares : o.Spares t c) :
    Counting x₁ d c t (w + TimeSpec.totalShort (elapsed [o])) (s.step o) := by
  cases o with
  | arm c' u interval time callback =>
    have hu : t ≠ u := Ne.symm hspares
    rw [show elapsed [.arm c' u interval time callback] = [] from rfl, TimeSpec.totalShort_nil,
      add_zero]
    refine h.frame (step_nodup h.nodup ho) ?_ ?_ ?_
    · show Function.update (Function.update s.timer u _) u _ t = s.timer t
      rw [Function.update_of_ne hu, Function.update_of_ne hu]
    · exact fun ht => List.mem_append_left _ ht
    · intro c'' hc'' ht
      have ht' : t ∈ Function.update s.threadTimers c' (s.threadTimers c' ++ [u]) c'' := ht
      by_cases hcc : c'' = c'
      · subst hcc
        rw [Function.update_self, List.mem_append, List.mem_singleton] at ht'
        exact ht'.elim (h.elsewhere c'' hc'') hu
      · rw [Function.update_of_ne hcc] at ht'
        exact h.elsewhere c'' hc'' ht'
  | disarm u =>
    rw [show elapsed [.disarm u] = [] from rfl, TimeSpec.totalShort_nil, add_zero]
    exact h.disarm hspares
  | destroy c' =>
    rw [show elapsed [.destroy c'] = [] from rfl, TimeSpec.totalShort_nil, add_zero]
    exact h.disarmAll hspares
  | update i =>
    rw [show elapsed [.update i] = [i] from rfl, TimeSpec.totalShort_cons, TimeSpec.totalShort_nil,
      add_zero]
    exact h.update hfired hinterval ho

end Counting

theorem elapsed_append (ops ops' : List TimerOp) :
    elapsed (ops ++ ops') = elapsed ops ++ elapsed ops' := by
  induction ops with
  | nil => rfl
  | cons o ops ih =>
    cases o
    case update i => exact congrArg (i :: ·) ih
    all_goals exact ih

theorem elapsed_normal {s : Timers} {ops : List TimerOp} (hops : s.AllowsAll ops) :
    ∀ i ∈ elapsed ops, i.Normal := by
  induction ops generalizing s with
  | nil => simp [elapsed]
  | cons o ops ih =>
    obtain ⟨ho, hops⟩ := hops
    cases o
    case update i =>
      intro j hj
      rcases List.mem_cons.mp hj with rfl | hj
      · exact ho
      · exact ih hops j hj
    all_goals exact ih hops

theorem Timers.AllowsAll.take {s : Timers} {ops : List TimerOp} (hops : s.AllowsAll ops) (n : ℕ) :
    s.AllowsAll (ops.take n) := by
  induction ops generalizing s n with
  | nil => simpa using hops
  | cons o ops ih =>
    cases n with
    | zero => trivial
    | succ n => exact ⟨hops.1, ih hops.2 n⟩

section

variable {d : TimeSpec} {c : ℕ} {t : TimerId} {s : Timers}

theorem run_counting {x₁ : Timer} {w : ℤ} {ops : List TimerOp} (hfired : x₁.fired = false)
    (hinterval : x₁.interval = {}) (h : Counting x₁ d c t w s) (hops : s.AllowsAll ops)
    (hspares : ∀ o ∈ ops, o.Spares t c) :
    Counting x₁ d c t (w + TimeSpec.totalShort (elapsed ops)) (s.run ops) := by
  induction ops generalizing s w with
  | nil =>
    rw [show elapsed [] = [] from rfl, TimeSpec.totalShort_nil, add_zero]
    exact h
  | cons o ops ih =>
    have hstep := h.step hfired hinterval hops.1 (hspares o List.mem_cons_self)
    have hrun := ih hstep hops.2 fun o' ho' => hspares o' (List.mem_cons_of_mem o ho')
    have hsum : TimeSpec.totalShort (elapsed (o :: ops)) =
        TimeSpec.totalShort (elapsed [o]) + TimeSpec.totalShort (elapsed ops) := by
      rw [show o :: ops = [o] ++ ops from rfl, elapsed_append]
      simp [TimeSpec.totalShort]
    rw [hsum, ← add_assoc]
    exact hrun

theorem counting_armed (hs : s.armed.Nodup) {callback : Option ℕ}
    (harm : s.Allows (.arm c t {} d callback)) (hd : d.Normal) (hpos : 0 < d.ns) :
    Counting ((s.step (.arm c t {} d callback)).timer t) d c t 0 (s.step (.arm c t {} d callback)) where
  nodup := step_nodup hs harm
  elsewhere := by
    intro c' hc' ht
    have ht' : t ∈ Function.update s.threadTimers c (s.threadTimers c ++ [t]) c' := ht
    rw [Function.update_of_ne hc'] at ht'
    exact harm.2 c' ht'
  waiting := by
    intro _
    refine ⟨List.mem_append_right _ List.mem_cons_self, d, hd, by omega, ?_⟩
    simp [Timers.step, Timers.arm]
  due := by
    intro hle
    have hns := TimeSpec.ns_eq d
    have := hd.seconds
    have := hd.nanoseconds
    simp only [TimeSpec.short, TimeSpec.ns] at hle hpos
    omega

theorem shows_iff {x₁ : Timer} {w : ℤ} (hfired : x₁.fired = false) (h : Counting x₁ d c t w s)
    (p : Prop) [Decidable p] : Shows x₁ (s.timer t) p ↔ (d.short ≤ w ↔ p) := by
  have hstate : Shows x₁ (s.timer t) (d.short ≤ w) := by
    by_cases hle : d.short ≤ w
    · have htrue := h.due hle
      exact ⟨by simpa [hle] using htrue.fired, by simpa [hle] using htrue.triggered,
        by simpa [hle] using htrue.called⟩
    · obtain ⟨-, r, -, -, htimer⟩ := h.waiting (by omega)
      rw [htimer]
      exact ⟨by simp [hle, hfired], by simp [hle], by simp [hle]⟩
  constructor
  · intro hp
    have := hstate.fired.symm.trans hp.fired
    simpa using this
  · intro hiff
    have hcong : decide (d.short ≤ w) = decide p := decide_eq_decide.mpr hiff
    refine ⟨hstate.fired.trans hcong, ?_, ?_⟩
    · rw [hstate.triggered]
      simp [hiff]
    · rw [hstate.called]
      simp [hiff]

end

/-- Times below a second are never in the gap: nothing has to be borrowed. -/
theorem not_inGap_of_seconds {d : TimeSpec} (hd : d.seconds = 0) {ts : List TimeSpec}
    (hts : ∀ i ∈ ts, i.Normal) : ¬InGap d ts := by
  have hwhole : 0 ≤ TimeSpec.wholeSeconds ts := by
    apply List.sum_nonneg
    intro x hx
    obtain ⟨i, hi, rfl⟩ := List.mem_map.mp hx
    exact (hts i hi).seconds
  rintro ⟨hlt, hgap⟩
  omega

open Timers

/-- **Main theorem.** After any allowed sequence of arms, disarms and updates, let a thread arm a
    timer without an interval for `d`, and let anything be done to other timers from then on. The
    timer fires, triggers its event and calls its callback once, at the first update by which `d`
    has elapsed, exactly when no update ends in the gap below `d`. A `nanosleep` that is interrupted
    reports what is left of `d` only where nothing is left. -/
theorem oneShot_exact {epoch : ℤ} {before ops : List TimerOp} {c : ℕ} {t : TimerId} {d : TimeSpec}
    {callback : Option ℕ} (hbefore : (booted epoch).AllowsAll before)
    (harm : ((booted epoch).run before).Allows (.arm c t {} d callback)) (hd : d.Normal)
    (hpos : 0 < d.ns)
    (hops : (((booted epoch).run before).step (.arm c t {} d callback)).AllowsAll ops)
    (hspares : ∀ o ∈ ops, o.Spares t c) :
    let s₁ := ((booted epoch).run before).step (.arm c t {} d callback)
    ((∀ n, Shows (s₁.timer t) ((s₁.run (ops.take n)).timer t)
        (d.ns ≤ TimeSpec.total (elapsed (ops.take n)))) ↔
      ∀ n, ¬InGap d (elapsed (ops.take n))) ∧
    ∃ r s', (s₁.run ops).nanosleepEnd t true true = .ok ((.interrupted, some r), s') ∧
      (r.ns = d.ns - TimeSpec.total (elapsed ops) ↔ TimeSpec.total (elapsed ops) = d.ns) := by
  intro s₁
  have hcounting := counting_armed (run_nodup List.nodup_nil hbefore) harm hd hpos
  have hfired : (s₁.timer t).fired = false := by simp [s₁, Timers.step, Timers.arm]
  have hinterval : (s₁.timer t).interval = {} := by simp [s₁, Timers.step, Timers.arm]
  refine ⟨forall_congr' fun n => ?_, ?_⟩
  · have hrun := run_counting hfired hinterval hcounting (hops.take n)
      fun o ho => hspares o (List.mem_of_mem_take ho)
    have hnever := TimeSpec.short_le_of_ns_le hd (elapsed_normal (hops.take n))
    have htotal := TimeSpec.total_eq (elapsed (ops.take n))
    have hns := TimeSpec.ns_eq d
    rw [zero_add] at hrun
    rw [shows_iff hfired hrun]
    unfold InGap
    constructor
    · rintro hiff ⟨hlt, hgap⟩
      have := hiff.mp (by omega)
      omega
    · intro hgap
      refine ⟨fun hle => ?_, hnever⟩
      by_contra hlt
      exact hgap ⟨by omega, by omega⟩
  · refine ⟨{}, (s₁.run ops).disarm t, ?_, ?_⟩
    · simp [Timers.nanosleepEnd, Timers.disarm]
    · rw [show ({} : TimeSpec).ns = 0 from rfl]
      omega

/-- A timer of 20 ms beside one that repeats, with an update every 10 ms. -/
def twoTimers : List TimerOp :=
  [.update { nanoseconds := 10000000 }, .destroy 7, .update { nanoseconds := 10000000 },
    .disarm 3, .update { nanoseconds := 10000000 }]

/-- The two timers, the second one just armed. -/
def twoArmed : Timers :=
  ((booted 0).run [.arm 5 3 { seconds := 1 } { seconds := 1 } (some 5)]).step
    (.arm 5 4 {} { nanoseconds := 20000000 } none)

theorem oneShot_exact_twoTimers : twoArmed.AllowsAll twoTimers ∧
    ∀ n, Shows (twoArmed.timer 4) ((twoArmed.run (twoTimers.take n)).timer 4)
      (20000000 ≤ TimeSpec.total (elapsed (twoTimers.take n))) := by
  have hms : ({ nanoseconds := 10000000 } : TimeSpec).Normal := ⟨by decide, by decide, by decide⟩
  have hops : twoArmed.AllowsAll twoTimers := ⟨hms, trivial, hms, trivial, hms, trivial⟩
  have hbefore : (booted 0).AllowsAll [.arm 5 3 { seconds := 1 } { seconds := 1 } (some 5)] :=
    ⟨⟨List.not_mem_nil, fun _ => List.not_mem_nil⟩, trivial⟩
  have harm : ((booted 0).run [.arm 5 3 { seconds := 1 } { seconds := 1 } (some 5)]).Allows
      (.arm 5 4 {} { nanoseconds := 20000000 } none) := by
    refine ⟨by decide, fun c => ?_⟩
    by_cases hc : c = 5
    · subst hc
      decide
    · simp [Timers.run, Timers.step, arm, booted, hc]
  have hspares : ∀ o ∈ twoTimers, o.Spares 4 5 := by
    simp [twoTimers, TimerOp.Spares]
  exact ⟨hops, (oneShot_exact hbefore harm ⟨by decide, by decide, by decide⟩ (by decide) hops
    hspares).1.mpr fun n => not_inGap_of_seconds rfl (elapsed_normal (hops.take n))⟩

/-- A second and a nanosecond are over after two updates of half a second, and a sleep of a second
    that is interrupted at once reports nothing to be left. -/
theorem early_by_one :
    (let s := (booted 0).run [.arm 5 4 {} { seconds := 1, nanoseconds := 1 } none,
      .update { nanoseconds := 500000000 }, .update { nanoseconds := 500000000 }]
    (s.timer 4).fired = true ∧ s.monotonicClock.ns < 1000000001) ∧
    (((booted 0).run [.arm 5 4 {} { seconds := 1 } none]).nanosleepEnd 4 true true).map (·.1) =
      .ok (.interrupted, some {}) := by
  decide +kernel

end Fishix.Sched
