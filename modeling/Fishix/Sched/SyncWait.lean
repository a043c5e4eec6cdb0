import Fishix.Sched.Basic

/-!
# Waiting for a coroutine

Model of `klib::sync` with `SyncWaitTask`, `Awaitable`, `RootAwaitable` and `RequestCallback`
(klib/async.hpp), and of `Event::wait` and `trigger` (sched/event.cpp:30-108) on the event of a
call, which has one listener at most.

`sync` starts the task, waits for its event and returns the result of the task, whatever `wait`
returns. A `RequestCallback` keeps its `data` when it is invoked.

* `sync_barrier_iff`: at every return of `sync`, exactly when the awaitable is complete, its result
  is the one returned, and nothing refers to what is destroyed.
* `sync_returns_early`: a signal comes before the result, and a callback that stays.
-/

namespace Fishix.Sched

open Function (update update_self update_of_ne)

/-- A coroutine as the awaitables that it makes and awaits. `await` is a `co_await` of another
    coroutine, and a `RootAwaitable` is known by a number. -/
inductive Coroutine (R : Type)
  | coReturn (result : R)
  | request (callback : ℕ) (k : ℕ → Coroutine R)
  | ready (result : R) (k : ℕ → Coroutine R)
  | awaitRoot (a : ℕ) (k : R → Coroutine R)
  | await (child : Coroutine R) (k : R → Coroutine R)

/-- `RootAwaitable` (klib/async.hpp:112-173). `handle` is the coroutine that awaits it, and `owner`
    the call of `sync` in whose frames it is. -/
structure RootAwaitable (R : Type) where
  callback : Option ℕ
  result : Option R := none
  handle : Option ℕ := none
  owner : ℕ

/-- All `RootAwaitable`s. -/
abbrev RootTable (R : Type) := ℕ → Option (RootAwaitable R)

/-! ## What an awaitable means -/

section Meaning

variable {R : Type}

/-- With the results of the table the coroutine completes with `r`. -/
inductive Completes (root : RootTable R) : Coroutine R → R → Prop
  | coReturn (r : R) : Completes root (.coReturn r) r
  | request {callback a : ℕ} {k : ℕ → Coroutine R} {x : RootAwaitable R} {r : R}
      (made : root a = some x) (source : x.callback = some callback)
      (rest : Completes root (k a) r) : Completes root (.request callback k) r
  | ready {y : R} {a : ℕ} {k : ℕ → Coroutine R} {x : RootAwaitable R} {r : R}
      (made : root a = some x) (result : x.result = some y)
      (rest : Completes root (k a) r) : Completes root (.ready y k) r
  | awaitRoot {a : ℕ} {y : R} {k : R → Coroutine R} {x : RootAwaitable R} {r : R}
      (made : root a = some x) (result : x.result = some y)
      (rest : Completes root (k y) r) : Completes root (.awaitRoot a k) r
  | await {child : Coroutine R} {y : R} {k : R → Coroutine R} {r : R}
      (first : Completes root child y) (rest : Completes root (k y) r) :
      Completes root (.await child k) r

/-- The same for a coroutine and those that await it, the innermost first. -/
def CompletesChain (root : RootTable R) : Coroutine R → List (R → Coroutine R) → R → Prop
  | current, [], r => Completes root current r
  | current, k :: frames, r =>
    ∃ y, Completes root current y ∧ CompletesChain root (k y) frames r

/-- Awaitables are made and get their results, and keep them. -/
def Extends (root root' : RootTable R) : Prop :=
  ∀ a x, root a = some x → ∃ x', root' a = some x' ∧ x'.callback = x.callback ∧
    ∀ y, x.result = some y → x'.result = some y

variable {root root' root'' : RootTable R} {current current' : Coroutine R}
  {frames : List (R → Coroutine R)} {r : R}

theorem Extends.refl (root : RootTable R) : Extends root root :=
  fun _ x hx => ⟨x, hx, rfl, fun _ hy => hy⟩

theorem Extends.trans (h : Extends root root') (h' : Extends root' root'') :
    Extends root root'' := by
  intro a x hx
  obtain ⟨x', hx', hcallback, hresult⟩ := h a x hx
  obtain ⟨x'', hx'', hcallback', hresult'⟩ := h' a x' hx'
  exact ⟨x'', hx'', hcallback'.trans hcallback, fun y hy => hresult' y (hresult y hy)⟩

/-- A new awaitable. -/
theorem Extends.update_new {a : ℕ} (x : RootAwaitable R) (hnew : root a = none) :
    Extends root (update root a (some x)) := by
  intro b y hy
  have hb : b ≠ a := by
    rintro rfl
    rw [hnew] at hy
    cases hy
  exact ⟨y, by rw [update_of_ne hb, hy], rfl, fun _ h => h⟩

theorem Extends.update_old {a : ℕ} {x x' : RootAwaitable R} (hx : root a = some x)
    (hcallback : x'.callback = x.callback)
    (hresult : ∀ y, x.result = some y → x'.result = some y) :
    Extends root (update root a (some x')) := by
  intro b y hy
  by_cases hb : b = a
  · subst hb
    obtain rfl : x = y := Option.some.inj (hx.symm.trans hy)
    exact ⟨x', by simp, hcallback, hresult⟩
  · exact ⟨y, by rw [update_of_ne hb, hy], rfl, fun _ h => h⟩

/-- What the innermost coroutine becomes may be replaced under those that await it. -/
theorem CompletesChain.imp_current (h : CompletesChain root current' frames r)
    (himp : ∀ y, Completes root current' y → Completes root current y) :
    CompletesChain root current frames r := by
  cases frames with
  | nil => exact himp r h
  | cons k frames =>
    obtain ⟨y, hy, hrest⟩ := h
    exact ⟨y, himp y hy, hrest⟩

end Meaning

/-! ## Calls of `sync` -/

/-- Where the coroutines of a call stand: `task.start` runs them, the innermost is suspended at a
    `RootAwaitable`, its callback has resumed them, or the task is at its `CompletionNotifier`. -/
inductive CoroutineState
  | started | suspended | resumed | done
  deriving DecidableEq

/-- Where the caller stands: up to `event.wait()`, asleep in it, or behind the end of `sync`. -/
inductive SyncPhase
  | starting | asleep | returned
  deriving DecidableEq

/-- One call of `sync`: its coroutines, `promise().result` of the task, `pending` of the event, and
    what it has returned. -/
structure SyncCall (R : Type) where
  thread : Tid
  awaitable : Coroutine R
  current : Coroutine R
  frames : List (R → Coroutine R) := []
  coroutine : CoroutineState := .started
  promise : Option R := none
  pending : ℕ := 0
  phase : SyncPhase := .starting
  result : Option R := none

/-- All calls with the awaitables and the callbacks. `requests` are the callbacks that have been set
    with the calls that did it, the last one first, and `calls` for each thread the calls that it is
    in, the innermost first. -/
structure SyncWorld (R : Type) where
  call : ℕ → Option (SyncCall R) := fun _ => none
  root : RootTable R := fun _ => none
  callback : ℕ → Option ℕ := fun _ => none
  requests : List (ℕ × ℕ) := []
  calls : Tid → List ℕ := fun _ => []
  blocked : Tid → Bool := fun _ => false
  pendingSignals : Tid → U64 := fun _ => 0#64
  signalMask : Tid → U64 := fun _ => 0#64
  enqueuedBySignal : Tid → Option Signal := fun _ => none

inductive SyncFault
  /-- The step is not one that can be taken. -/
  | impossible
  /-- A frame is used that has been destroyed. -/
  | destroyed
  /-- A callback is invoked again for an awaitable that has its result. -/
  | again
  deriving DecidableEq

inductive SyncOp (R : Type)
  /-- `thread` calls `sync`, the call number `i`. -/
  | call (thread : Tid) (i : ℕ) (awaitable : Coroutine R)
  /-- The coroutines of the call `i` go on to their next await. An awaitable that this makes is
      number `a`. -/
  | advance (i a : ℕ)
  /-- `event.wait()` up to its `yield`. -/
  | wait (i : ℕ)
  /-- The rest of `event.wait()`. -/
  | waitEnd (i : ℕ)
  /-- `RequestCallback::invoke`. -/
  | invoke (callback : ℕ) (result : R)
  | sendSignal (thread : Tid) (signal : Signal)
  /-- What a thread that does not sleep does to its own signals. -/
  | setSignals (thread : Tid) (pendingSignals signalMask : U64)

namespace SyncWorld

variable {R : Type}

def setCall (w : SyncWorld R) (i : ℕ) (c : SyncCall R) : SyncWorld R :=
  { w with call := update w.call i (some c) }

/-- What `enqueue_thread` (sched/sched.cpp:642-652) does to a thread that sleeps. -/
def enqueueThread (w : SyncWorld R) (thread : Tid) (bySignal : Option Signal) : SyncWorld R :=
  if w.blocked thread then
    { w with
      blocked := update w.blocked thread false
      enqueuedBySignal := update w.enqueuedBySignal thread bySignal }
  else w

/-- The task stores the result, and its `CompletionNotifier` triggers the event
    (klib/async.hpp:183-185, 209-212). -/
def complete (w : SyncWorld R) (i : ℕ) (c : SyncCall R) (r : R) : SyncWorld R :=
  let c := { c with coroutine := .done, promise := some r }
  if c.phase = .asleep then (w.setCall i c).enqueueThread c.thread none
  else w.setCall i { c with pending := c.pending + 1 }

/-- A new `RootAwaitable` of the call `i`, in the variable of which the coroutine goes on. -/
def makeRoot (w : SyncWorld R) (i a : ℕ) (c : SyncCall R) (x : RootAwaitable R)
    (k : ℕ → Coroutine R) : Except SyncFault (SyncWorld R) :=
  if (w.root a).isSome then .error .impossible
  else .ok { w.setCall i { c with current := k a } with root := update w.root a (some x) }

/-- One await or return of the coroutines. The end of a coroutine resumes the one that awaits it
    (klib/async.hpp:14-16, 49-52). -/
def advance (w : SyncWorld R) (i a : ℕ) (c : SyncCall R) : Except SyncFault (SyncWorld R) :=
  match c.current with
  | .coReturn r =>
    match c.frames with
    | k :: frames => .ok (w.setCall i { c with current := k r, frames })
    | [] => .ok (w.complete i c r)
  | .await child k => .ok (w.setCall i { c with current := child, frames := k :: c.frames })
  | .request p k => do
    let w ← w.makeRoot i a c { callback := some p, owner := i } k
    return { w with
      callback := update w.callback p (some a)
      requests := (p, i) :: w.requests }
  | .ready r k => w.makeRoot i a c { callback := none, result := some r, owner := i } k
  | .awaitRoot b k =>
    match w.root b with
    | none => .error .impossible
    | some x =>
      if x.owner ≠ i then .error .impossible
      else
        match x.result with
        | some r => .ok (w.setCall i { c with current := k r })
        | none => .ok { w.setCall i { c with coroutine := .suspended } with
            root := update w.root b (some { x with handle := some i }) }

/-- `sync` ends (klib/async.hpp:269-271). -/
def finish (w : SyncWorld R) (i : ℕ) (c : SyncCall R) : SyncWorld R :=
  { w.setCall i { c with phase := .returned, result := c.promise } with
    calls := update w.calls c.thread (w.calls c.thread).tail }

/-- `Thread::has_pending_signals`. -/
def hasPendingSignals (w : SyncWorld R) (thread : Tid) : Bool :=
  decide (w.pendingSignals thread &&& ~~~w.signalMask thread ≠ 0#64)

/-- `event.wait()` up to its `yield` (sched/event.cpp:34-64). -/
def wait (w : SyncWorld R) (i : ℕ) (c : SyncCall R) : SyncWorld R :=
  if w.hasPendingSignals c.thread then w.finish i c
  else if 0 < c.pending then w.finish i { c with pending := c.pending - 1 }
  else { w.setCall i { c with phase := .asleep } with
    blocked := update w.blocked c.thread true }

/-- `callback_handler` (klib/async.hpp:118-124). -/
def callbackHandler (w : SyncWorld R) (a : ℕ) (r : R) : Except SyncFault (SyncWorld R) :=
  match w.root a with
  | none => .error .impossible
  | some x =>
    match w.call x.owner with
    | none => .error .impossible
    | some c =>
      if c.phase = .returned then .error .destroyed
      else if x.result.isSome then .error .again
      else
        let w := { w with root := update w.root a (some { x with result := some r }) }
        match x.handle with
        | none => .ok w
        | some _ => .ok (w.setCall x.owner { c with coroutine := .resumed })

/-- The thread is not asleep in a call. -/
def awake (w : SyncWorld R) (thread : Tid) : Bool :=
  match w.calls thread with
  | [] => true
  | i :: _ =>
    match w.call i with
    | none => true
    | some c => decide (c.phase ≠ .asleep)

/-- One step. -/
def step (w : SyncWorld R) : SyncOp R → Except SyncFault (SyncWorld R)
  | .call thread i awaitable =>
    if (w.call i).isSome ∨ w.awake thread = false then .error .impossible
    else .ok { w.setCall i { thread, awaitable, current := awaitable } with
      calls := update w.calls thread (i :: w.calls thread) }
  | .advance i a =>
    match w.call i with
    | none => .error .impossible
    | some c =>
      if c.phase = .returned then .error .destroyed
      else if c.coroutine = .started ∧ (w.calls c.thread).head? = some i ∨
          c.coroutine = .resumed then
        w.advance i a c
      else .error .impossible
  | .wait i =>
    match w.call i with
    | none => .error .impossible
    | some c =>
      if c.phase = .starting ∧ c.coroutine ≠ .started ∧ (w.calls c.thread).head? = some i then
        .ok (w.wait i c)
      else .error .impossible
  | .waitEnd i =>
    match w.call i with
    | none => .error .impossible
    | some c =>
      if c.phase = .asleep ∧ w.blocked c.thread = false then .ok (w.finish i c)
      else .error .impossible
  | .invoke p r =>
    match w.callback p with
    | none => .ok w
    | some a => w.callbackHandler a r
  | .sendSignal thread signal =>
    .ok (enqueueThread { w with
      pendingSignals := update w.pendingSignals thread
        (w.pendingSignals thread ||| getSignalBit signal) } thread (some signal))
  | .setSignals thread pendingSignals signalMask =>
    if w.blocked thread then .error .impossible
    else .ok { w with
      pendingSignals := update w.pendingSignals thread pendingSignals
      signalMask := update w.signalMask thread signalMask }

/-! ## What `sync` is to be -/

/-- A callback, or a coroutine of others, refers to what the call has made. -/
def Refers (w : SyncWorld R) (i : ℕ) : Prop :=
  (∃ p a x, w.callback p = some a ∧ w.root a = some x ∧ x.owner = i) ∨
    ∃ a x, w.root a = some x ∧ x.owner ≠ i ∧ x.handle = some i

/-- `sync` has returned behind the end of its awaitable and with its result, and what is destroyed
    is not referred to. -/
structure Barrier (w : SyncWorld R) (i : ℕ) (c : SyncCall R) : Prop where
  completed : c.coroutine = .done
  result : ∃ r, c.result = some r ∧ Completes w.root c.awaitable r
  unreferenced : ¬w.Refers i

/-- The call by which a callback has been set last. -/
def lastRequest (w : SyncWorld R) (p : ℕ) : Option ℕ :=
  (w.requests.find? fun q => q.1 = p).map Prod.snd

/-- `wait` reports a signal: one is pending as it begins, or one has woken the thread. -/
def interrupted (w : SyncWorld R) (c : SyncCall R) : Bool :=
  match c.phase with
  | .starting => w.hasPendingSignals c.thread
  | .asleep => (w.enqueuedBySignal c.thread).isSome
  | .returned => false

/-- A call that `wait` leaves on account of a signal is done by then, and every callback that it has
    set has been set by another call since. -/
def Undisturbed (w : SyncWorld R) (i : ℕ) : Prop :=
  (∀ c ∈ w.call i, w.interrupted c = true → c.coroutine = .done) ∧
    ∀ q ∈ w.requests, q.2 = i → w.lastRequest q.1 ≠ some i

/-! ## The invariant -/

/-- What the coroutines still do leads to a result of the awaitable. A task that is done has stored
    it, and the event is pending only then. -/
structure CallSound (root : RootTable R) (c : SyncCall R) : Prop where
  meaning : c.coroutine ≠ .done → ∀ root', Extends root root' → ∀ r,
    CompletesChain root' c.current c.frames r → Completes root' c.awaitable r
  promised : c.coroutine = .done → ∃ r, c.promise = some r ∧
    ∀ root', Extends root root' → Completes root' c.awaitable r
  signalled : 0 < c.pending → c.coroutine = .done

/-- A caller in `wait` sleeps, or has been woken by a signal or by the end of its task. -/
def Rests (w : SyncWorld R) (i : ℕ) (c : SyncCall R) : Prop :=
  c.phase = .asleep → (w.calls c.thread).head? = some i ∧
    (w.blocked c.thread = true ∨ (w.enqueuedBySignal c.thread).isSome = true ∨
      c.coroutine = .done)

/-- The coroutines of the call `i` are suspended at the awaitable `a`. -/
def SuspendedAt (w : SyncWorld R) (i a : ℕ) : Prop :=
  ∃ c k, w.call i = some c ∧ c.coroutine = .suspended ∧ c.current = .awaitRoot a k

/-- `made` and `unset` are what `requests` says of the callbacks. -/
structure Sound (w : SyncWorld R) : Prop where
  call : ∀ i c, w.call i = some c → CallSound w.root c
  rests : ∀ i c, w.call i = some c → w.Rests i c
  handle : ∀ a x i, w.root a = some x → x.handle = some i → x.owner = i
  waiting : ∀ a x i, w.root a = some x → x.handle = some i → x.result = none → w.SuspendedAt i a
  made : ∀ p a, w.callback p = some a → ∃ x, w.root a = some x ∧ w.lastRequest p = some x.owner
  unset : ∀ p, w.callback p = none → w.lastRequest p = none

variable {w w' : SyncWorld R} {root root' : RootTable R} {i a : ℕ} {c d : SyncCall R} {r : R}

theorem CallSound.extends (h : CallSound root c) (hextends : Extends root root') :
    CallSound root' c where
  meaning := fun hdone root'' h' r hr => h.meaning hdone root'' (hextends.trans h') r hr
  promised := fun hdone => by
    obtain ⟨r, hr, hcompletes⟩ := h.promised hdone
    exact ⟨r, hr, fun root'' h' => hcompletes root'' (hextends.trans h')⟩
  signalled := h.signalled

/-- The coroutines go on, to something that means the same. -/
theorem CallSound.advance (h : CallSound root c) (hextends : Extends root root')
    (hrun : c.coroutine ≠ .done) (hrun' : d.coroutine ≠ .done) (hpending : d.pending = c.pending)
    (hawaitable : d.awaitable = c.awaitable)
    (hmeaning : ∀ root'', Extends root' root'' → ∀ r,
      CompletesChain root'' d.current d.frames r → CompletesChain root'' c.current c.frames r) :
    CallSound root' d where
  meaning := fun _ root'' h' r hr => by
    rw [hawaitable]
    exact h.meaning hrun root'' (hextends.trans h') r (hmeaning root'' h' r hr)
  promised := fun hdone => absurd hdone hrun'
  signalled := fun hpos => absurd (h.signalled (hpending ▸ hpos)) hrun

section

variable (h : w.Sound)

include h

theorem Sound.unawaited (hc : w.call i = some c) (hrun : c.coroutine ≠ .suspended) :
    ∀ b x, w.root b = some x → x.handle = some i → x.result ≠ none := by
  intro b x hx hhandle hresult
  obtain ⟨d, k, hd, hsuspended, -⟩ := h.waiting b x i hx hhandle hresult
  obtain rfl : c = d := Option.some.inj (hc.symm.trans hd)
  exact hrun hsuspended

/-- One call changes. Its coroutines stay where they are, or are awaited nowhere. -/
theorem Sound.of_call (hcall : w'.call = update w.call i (some d))
    (hsound : CallSound w.root d) (hrests : w'.Rests i d)
    (hothers : ∀ j e, j ≠ i → w.call j = some e → w.Rests j e → w'.Rests j e) (hkeep : (∃ c, w.call
    i = some c ∧ d.coroutine = c.coroutine ∧ d.current = c.current) ∨ ∀ b x, w.root b = some x →
    x.handle = some i → x.result ≠ none) (hroot : w'.root = w.root)
    (hcallback : w'.callback = w.callback) (hrequests : w'.requests = w.requests) : w'.Sound := by
  have hlast : ∀ p, w'.lastRequest p = w.lastRequest p := fun p => by
    unfold lastRequest
    rw [hrequests]
  refine ⟨fun j e hd => ?_, fun j e hd => ?_, ?_, fun b x j hx hhandle hresult => ?_,
    fun p a hp => ?_, fun p hp => ?_⟩
  · rw [hroot]
    rw [hcall] at hd
    by_cases hj : j = i
    · subst hj
      obtain rfl : d = e := by simpa using hd
      exact hsound
    · rw [update_of_ne hj] at hd
      exact h.call j e hd
  · rw [hcall] at hd
    by_cases hj : j = i
    · subst hj
      obtain rfl : d = e := by simpa using hd
      exact hrests
    · rw [update_of_ne hj] at hd
      exact hothers j e hj hd (h.rests j e hd)
  · rw [hroot]
    exact h.handle
  · rw [hroot] at hx
    obtain ⟨e, k, he, hsuspended, hcurrent⟩ := h.waiting b x j hx hhandle hresult
    by_cases hj : j = i
    · subst hj
      obtain ⟨c, hc, hcoroutine, hsame⟩ | hnone := hkeep
      · obtain rfl : c = e := Option.some.inj (hc.symm.trans he)
        exact ⟨d, k, by rw [hcall]; simp, hcoroutine.trans hsuspended, hsame.trans hcurrent⟩
      · exact absurd hresult (hnone b x hx hhandle)
    · exact ⟨e, k, by rw [hcall, update_of_ne hj, he], hsuspended, hcurrent⟩
  · rw [hcallback] at hp
    rw [hroot, hlast]
    exact h.made p a hp
  · rw [hcallback] at hp
    rw [hlast, h.unset p hp]

/-- One call changes, and nothing else does. -/
theorem Sound.setCall (hsound : CallSound w.root d) (hrests : w.Rests i d)
    (hnone : ∀ b x, w.root b = some x → x.handle = some i → x.result ≠ none) :
    (w.setCall i d).Sound :=
  h.of_call rfl hsound hrests (fun _ _ _ _ hd => hd) (.inr hnone) rfl rfl rfl

theorem Sound.addRoot {x : RootAwaitable R} (hhandle : x.handle = none) (hnew : w.root a = none) :
    Sound { w with root := update w.root a (some x) } := by
  have hold : ∀ b y, w.root b = some y → update w.root a (some x) b = some y := by
    intro b y hb
    have hba : b ≠ a := by
      rintro rfl
      rw [hnew] at hb
      cases hb
    rw [update_of_ne hba, hb]
  have hback : ∀ b y j, update w.root a (some x) b = some y → y.handle = some j →
      w.root b = some y := by
    intro b y j hb hj
    by_cases hba : b = a
    · subst hba
      obtain rfl : x = y := by simpa using hb
      rw [hhandle] at hj
      cases hj
    · rwa [update_of_ne hba] at hb
  refine ⟨fun j c hc => (h.call j c hc).extends (.update_new x hnew), h.rests,
    fun b y j hb hj => h.handle b y j (hback b y j hb hj) hj,
    fun b y j hb hj hy => h.waiting b y j (hback b y j hb hj) hj hy, fun p b hp => ?_, h.unset⟩
  obtain ⟨y, hy, hlast⟩ := h.made p b hp
  exact ⟨y, hold b y hy, hlast⟩

/-- A new awaitable, which the coroutine means to make. -/
theorem Sound.makeRoot (hc : w.call i = some c)
    (hrun : c.coroutine = .started ∨ c.coroutine = .resumed) {x : RootAwaitable R}
    {k : ℕ → Coroutine R} (hhandle : x.handle = none) (hmeaning : ∀ (root : RootTable R) x' y, root
    a = some x' → x'.callback = x.callback → (∀ z, x.result = some z → x'.result = some z) →
    Completes root (k a) y → Completes root c.current y) (hmake : w.makeRoot i a c x k = .ok w') :
    w'.Sound ∧ w'.root a = some x := by
  unfold SyncWorld.makeRoot at hmake
  split_ifs at hmake with hnew
  have hadd := h.addRoot (x := x) (a := a) hhandle (by simpa using hnew)
  rw [← Except.ok.inj hmake]
  refine ⟨hadd.setCall ?_ (h.rests i c hc) (hadd.unawaited hc ?_), by simp⟩
  · refine (hadd.call i c hc).advance (.refl _) ?_ ?_ rfl rfl fun root'' h' r hr => ?_
    · rcases hrun with hrun | hrun <;> simp [hrun]
    · rcases hrun with hrun | hrun <;> simp [hrun]
    · refine hr.imp_current fun y hy => ?_
      obtain ⟨x', hx', hcallback, hresult⟩ := h' a x (by simp)
      exact hmeaning root'' x' y hx' hcallback hresult hy
  · rcases hrun with hrun | hrun <;> simp [hrun]

theorem Sound.updateRoot {x y : RootAwaitable R} (hx : w.root a = some x)
    (hcallback : y.callback = x.callback) (howner : y.owner = x.owner)
    (hresult : ∀ z, x.result = some z → y.result = some z)
    (hhandle : ∀ j, y.handle = some j → y.owner = j ∧ (y.result = none → w.SuspendedAt j a)) :
    Sound { w with root := update w.root a (some y) } := by
  have hextends : Extends w.root (update w.root a (some y)) :=
    .update_old hx hcallback hresult
  refine ⟨fun j c hc => (h.call j c hc).extends hextends, h.rests, fun b z j hb hj => ?_,
    fun b z j hb hj hz => ?_, fun p b hp => ?_, h.unset⟩
  · by_cases hba : b = a
    · subst hba
      obtain rfl : y = z := by simpa using hb
      exact (hhandle j hj).1
    · exact h.handle b z j (by simpa [hba] using hb) hj
  · by_cases hba : b = a
    · subst hba
      obtain rfl : y = z := by simpa using hb
      exact (hhandle j hj).2 hz
    · exact h.waiting b z j (by simpa [hba] using hb) hj hz
  · obtain ⟨z, hz, hlast⟩ := h.made p b hp
    by_cases hba : b = a
    · subst hba
      obtain rfl : x = z := Option.some.inj (hx.symm.trans hz)
      exact ⟨y, by simp, by rw [howner]; exact hlast⟩
    · exact ⟨z, by simp [hba, hz], hlast⟩

theorem Sound.setCallback {p : ℕ} {x : RootAwaitable R} (hx : w.root a = some x) :
    Sound { w with
      callback := update w.callback p (some a)
      requests := (p, x.owner) :: w.requests } := by
  refine ⟨h.call, h.rests, h.handle, h.waiting, fun q b hq => ?_, fun q hq => ?_⟩
  · by_cases hqp : q = p
    · subst hqp
      obtain rfl : a = b := by simpa using hq
      exact ⟨x, hx, by simp [lastRequest]⟩
    · obtain ⟨y, hy, hlast⟩ := h.made q b (by simpa [hqp] using hq)
      refine ⟨y, hy, ?_⟩
      simpa [lastRequest, Ne.symm hqp] using hlast
  · by_cases hqp : q = p
    · simp [hqp] at hq
    · simpa [lastRequest, Ne.symm hqp] using h.unset q (by simpa [hqp] using hq)

/-- A thread is woken by a signal, or when the call that it sleeps in is done. -/
theorem Sound.enqueueThread {thread : Tid} {bySignal : Option Signal} (hdone : bySignal.isSome =
    true ∨ ∀ i c, w.call i = some c → c.phase = .asleep → c.thread = thread → c.coroutine = .done) :
    (w.enqueueThread thread bySignal).Sound := by
  unfold SyncWorld.enqueueThread
  split_ifs
  · refine ⟨h.call, fun i c hc hasleep => ?_, h.handle, h.waiting, h.made, h.unset⟩
    obtain ⟨hhead, hwoken⟩ := h.rests i c hc hasleep
    refine ⟨hhead, ?_⟩
    by_cases ht : c.thread = thread
    · obtain hsignal | hdone := hdone
      · exact .inr (.inl (by simp [ht, hsignal]))
      · exact .inr (.inr (hdone i c hc hasleep ht))
    · simpa [ht] using hwoken
  · exact h

/-- The task of a call ends. -/
theorem Sound.complete (hc : w.call i = some c)
    (hrun : c.coroutine = .started ∨ c.coroutine = .resumed) (hcurrent : c.current = .coReturn r)
    (hframes : c.frames = []) : (w.complete i c r).Sound := by
  have hsound : ∀ n, CallSound w.root
      { c with coroutine := .done, promise := some r, pending := n } := by
    refine fun n => ⟨fun hdone => absurd rfl hdone, fun _ => ⟨r, rfl, fun root' h' => ?_⟩,
      fun _ => rfl⟩
    refine (h.call i c hc).meaning (by rcases hrun with hrun | hrun <;> simp [hrun]) root' h' r ?_
    rw [hcurrent, hframes]
    exact .coReturn r
  have hnone := h.unawaited hc (by rcases hrun with hrun | hrun <;> simp [hrun])
  unfold SyncWorld.complete
  dsimp only
  split_ifs with hasleep
  · have hwake := h.setCall (d := { c with coroutine := .done, promise := some r })
      (hsound c.pending) (fun hphase => ⟨(h.rests i c hc hphase).1, .inr (.inr rfl)⟩) hnone
    refine hwake.enqueueThread (.inr fun j e hd hphase ht => ?_)
    -- of the calls of a thread one alone is asleep
    have hj := (hwake.rests j e hd hphase).1
    rw [ht] at hj
    obtain rfl : i = j := Option.some.inj ((h.rests i c hc hasleep).1.symm.trans hj)
    have hd : update w.call i (some { c with coroutine := .done, promise := some r }) i =
      some e := hd
    rw [update_self] at hd
    rw [← Option.some.inj hd]
  · exact h.setCall (hsound (c.pending + 1)) (fun hphase => absurd hphase hasleep) hnone

theorem Sound.advance (hc : w.call i = some c)
    (hrun : c.coroutine = .started ∨ c.coroutine = .resumed) (hadvance : w.advance i a c = .ok w') :
    w'.Sound := by
  have hundone : c.coroutine ≠ .done := by
    rcases hrun with hrun | hrun <;> simp [hrun]
  have hnone := h.unawaited hc (by rcases hrun with hrun | hrun <;> simp [hrun])
  unfold SyncWorld.advance at hadvance
  cases hcurrent : c.current with
  | coReturn r =>
    rw [hcurrent] at hadvance
    dsimp only at hadvance
    cases hframes : c.frames with
    | nil =>
      rw [hframes] at hadvance
      rw [← Except.ok.inj hadvance]
      exact h.complete hc hrun hcurrent hframes
    | cons k frames =>
      rw [hframes] at hadvance
      rw [← Except.ok.inj hadvance]
      refine h.setCall ((h.call i c hc).advance (.refl _) hundone hundone rfl rfl ?_)
        (h.rests i c hc) hnone
      intro root'' _ r' hr
      rw [hcurrent, hframes]
      exact ⟨r, .coReturn r, hr⟩
  | await child k =>
    rw [hcurrent] at hadvance
    rw [← Except.ok.inj hadvance]
    refine h.setCall ((h.call i c hc).advance (.refl _) hundone hundone rfl rfl ?_)
      (h.rests i c hc) hnone
    intro root'' _ r' hr
    obtain ⟨y, hy, hrest⟩ := hr
    exact hrest.imp_current fun z hz => hcurrent ▸ .await hy hz
  | request p k =>
    rw [hcurrent] at hadvance
    obtain ⟨w1, h1, hadvance⟩ := bind_ok hadvance
    rw [← Except.ok.inj hadvance]
    obtain ⟨hsound, hroot⟩ := h.makeRoot hc hrun rfl
      (fun root x' y hx' hp _ hy => hcurrent ▸ .request hx' hp hy) h1
    exact hsound.setCallback hroot
  | ready y k =>
    rw [hcurrent] at hadvance
    exact (h.makeRoot hc hrun rfl
      (fun root x' z hx' _ hy hz => hcurrent ▸ .ready hx' (hy y rfl) hz) hadvance).1
  | awaitRoot b k =>
    rw [hcurrent] at hadvance
    dsimp only at hadvance
    cases hb : w.root b with
    | none =>
      rw [hb] at hadvance
      cases hadvance
    | some x =>
      rw [hb] at hadvance
      dsimp only at hadvance
      split_ifs at hadvance with howner
      have howner : x.owner = i := not_not.mp howner
      cases hresult : x.result with
      | some y =>
        rw [hresult] at hadvance
        rw [← Except.ok.inj hadvance]
        refine h.setCall ((h.call i c hc).advance (.refl _) hundone hundone rfl rfl ?_)
          (h.rests i c hc) hnone
        intro root'' h' r' hr
        obtain ⟨x', hx', -, hkeep⟩ := h' b x hb
        exact hr.imp_current fun z hz => hcurrent ▸ .awaitRoot hx' (hkeep y hresult) hz
      | none =>
        rw [hresult] at hadvance
        rw [← Except.ok.inj hadvance]
        have hsuspend : (w.setCall i { c with coroutine := .suspended }).Sound := by
          refine h.setCall ?_ (fun hasleep => ?_) hnone
          · exact (h.call i c hc).advance (.refl _) hundone (by simp) rfl rfl fun _ _ _ hr => hr
          · obtain ⟨hhead, hwoken⟩ := h.rests i c hc hasleep
            refine ⟨hhead, hwoken.imp_right fun hwoken => .inl ?_⟩
            exact hwoken.resolve_right hundone
        have hroot := hsuspend.updateRoot (y := { x with handle := some i }) hb rfl rfl
          (fun _ hz => hz) fun j hj => by
            obtain rfl : i = j := Option.some.inj hj
            exact ⟨howner, fun _ => ⟨{ c with coroutine := .suspended }, k,
              update_self .., rfl, hcurrent⟩⟩
        rw [hcurrent, hresult] at hroot
        exact hroot

/-- `sync` of a call ends, which is the innermost of its thread. -/
theorem Sound.finish (hsound : CallSound w.root c)
    (hkeep : ∃ b, w.call i = some b ∧ c.coroutine = b.coroutine ∧ c.current = b.current)
    (hhead : (w.calls c.thread).head? = some i) : (w.finish i c).Sound := by
  refine h.of_call (d := { c with phase := .returned, result := c.promise }) rfl
    ⟨hsound.meaning, hsound.promised, hsound.signalled⟩ ?_ ?_ (.inl hkeep) rfl rfl rfl
  · intro hphase
    cases hphase
  · intro j e hj hd hrests hasleep
    obtain ⟨hjhead, hwoken⟩ := hrests hasleep
    have ht : e.thread ≠ c.thread := by
      intro ht
      rw [ht, hhead] at hjhead
      exact hj (Option.some.inj hjhead).symm
    refine ⟨?_, hwoken⟩
    simpa [SyncWorld.finish, ht] using hjhead

theorem Sound.wait (hc : w.call i = some c) (hhead : (w.calls c.thread).head? = some i) :
    (w.wait i c).Sound := by
  have hsound := h.call i c hc
  unfold SyncWorld.wait
  split_ifs with hsignal hpending
  · exact h.finish hsound ⟨c, hc, rfl, rfl⟩ hhead
  · exact h.finish (c := { c with pending := c.pending - 1 })
      ⟨hsound.meaning, hsound.promised, fun _ => hsound.signalled hpending⟩ ⟨c, hc, rfl, rfl⟩ hhead
  · refine h.of_call (d := { c with phase := .asleep }) rfl
      ⟨hsound.meaning, hsound.promised, hsound.signalled⟩ ?_ ?_ (.inl ⟨c, hc, rfl, rfl⟩) rfl rfl rfl
    · exact fun _ => ⟨hhead, .inl (by simp)⟩
    · intro j e _ _ hrests hasleep
      obtain ⟨hjhead, hwoken⟩ := hrests hasleep
      refine ⟨hjhead, hwoken.imp_left fun hblocked => ?_⟩
      by_cases ht : e.thread = c.thread <;> simp [ht, hblocked]

theorem Sound.callbackHandler (hinvoke : w.callbackHandler a r = .ok w') : w'.Sound := by
  unfold SyncWorld.callbackHandler at hinvoke
  cases hx : w.root a with
  | none =>
    rw [hx] at hinvoke
    cases hinvoke
  | some x =>
    rw [hx] at hinvoke
    dsimp only at hinvoke
    cases hc : w.call x.owner with
    | none =>
      rw [hc] at hinvoke
      cases hinvoke
    | some c =>
      rw [hc] at hinvoke
      dsimp only at hinvoke
      split_ifs at hinvoke with hphase hresult
      have hroot := h.updateRoot (y := { x with result := some r }) hx rfl rfl
        (fun z hz => by simp [hz] at hresult)
        fun j hj => ⟨h.handle a x j hx hj, fun hno => by cases hno⟩
      cases hhandle : x.handle with
      | none =>
        rw [hhandle] at hinvoke hroot
        rw [← Except.ok.inj hinvoke]
        exact hroot
      | some j =>
        have howner := h.handle a x j hx hhandle
        obtain ⟨e, k, he, hsuspended, hcurrent⟩ :=
          h.waiting a x j hx hhandle (by simpa using hresult)
        obtain rfl : c = e := Option.some.inj (hc.symm.trans (howner ▸ he))
        have hundone : c.coroutine ≠ .done := by simp [hsuspended]
        have hmoved := hroot.setCall (i := x.owner) (d := { c with coroutine := .resumed })
          ((hroot.call _ c hc).advance (.refl _) hundone (by simp) rfl rfl fun _ _ _ hr => hr)
          (fun hasleep => ?_) fun b y hy hyhandle hyresult => ?_
        · rw [hhandle] at hinvoke hmoved
          rw [← Except.ok.inj hinvoke]
          exact hmoved
        · obtain ⟨hhead, hwoken⟩ := h.rests _ c hc hasleep
          refine ⟨hhead, hwoken.imp_right fun hwoken => .inl ?_⟩
          exact hwoken.resolve_right hundone
        · -- the coroutines were suspended at this awaitable and no other
          obtain ⟨e, k', he, -, hcurrent'⟩ := hroot.waiting b y _ hy hyhandle hyresult
          obtain rfl : c = e := Option.some.inj (hc.symm.trans he)
          obtain ⟨rfl, -⟩ := Coroutine.awaitRoot.inj (hcurrent.symm.trans hcurrent')
          have hy : update w.root a (some { x with result := some r }) a = some y := hy
          rw [update_self] at hy
          rw [← Option.some.inj hy] at hyresult
          cases hyresult

theorem Sound.step {o : SyncOp R} (hstep : w.step o = .ok w') : w'.Sound := by
  cases o with
  | call thread i awaitable =>
    simp only [SyncWorld.step] at hstep
    split_ifs at hstep with hfree
    rw [← Except.ok.inj hstep]
    push Not at hfree
    obtain ⟨hnew, hawake⟩ := hfree
    have hnone : w.call i = none := by simpa using hnew
    refine h.of_call (d := { thread, awaitable, current := awaitable }) rfl ?_ ?_ ?_ (.inr ?_) rfl
      rfl rfl
    · exact ⟨fun _ _ _ _ hr => hr, (fun hdone => by cases hdone),
        fun hpos => absurd hpos (Nat.lt_irrefl 0)⟩
    · intro hasleep
      cases hasleep
    · intro j e hj he hrests hasleep
      obtain ⟨hhead, hwoken⟩ := hrests hasleep
      refine ⟨?_, hwoken⟩
      -- the thread of a call that sleeps does not call
      have ht : e.thread ≠ thread := by
        rintro rfl
        unfold SyncWorld.awake at hawake
        cases hcalls : w.calls e.thread with
        | nil =>
          rw [hcalls] at hhead
          cases hhead
        | cons b rest =>
          rw [hcalls] at hhead hawake
          obtain rfl : b = j := by simpa using hhead
          simp [he, hasleep] at hawake
      simpa [ht] using hhead
    · intro b x hx hhandle hresult
      obtain ⟨e, -, he, -⟩ := h.waiting b x i hx hhandle hresult
      rw [hnone] at he
      cases he
  | advance i a =>
    simp only [SyncWorld.step] at hstep
    cases hc : w.call i with
    | none =>
      rw [hc] at hstep
      cases hstep
    | some c =>
      rw [hc] at hstep
      dsimp only at hstep
      split_ifs at hstep with hphase hrun
      exact h.advance hc (hrun.imp_left And.left) hstep
  | wait i =>
    simp only [SyncWorld.step] at hstep
    cases hc : w.call i with
    | none =>
      rw [hc] at hstep
      cases hstep
    | some c =>
      rw [hc] at hstep
      dsimp only at hstep
      split_ifs at hstep with hready
      rw [← Except.ok.inj hstep]
      exact h.wait hc hready.2.2
  | waitEnd i =>
    simp only [SyncWorld.step] at hstep
    cases hc : w.call i with
    | none =>
      rw [hc] at hstep
      cases hstep
    | some c =>
      rw [hc] at hstep
      dsimp only at hstep
      split_ifs at hstep with hready
      rw [← Except.ok.inj hstep]
      exact h.finish (h.call i c hc) ⟨c, hc, rfl, rfl⟩ (h.rests i c hc hready.1).1
  | invoke p r =>
    simp only [SyncWorld.step] at hstep
    split at hstep
    · rw [← Except.ok.inj hstep]
      exact h
    · exact h.callbackHandler hstep
  | sendSignal thread signal =>
    rw [← Except.ok.inj hstep]
    refine Sound.enqueueThread ?_ (.inl rfl)
    exact ⟨h.call, h.rests, h.handle, h.waiting, h.made, h.unset⟩
  | setSignals thread pendingSignals signalMask =>
    simp only [SyncWorld.step] at hstep
    split_ifs at hstep
    rw [← Except.ok.inj hstep]
    exact ⟨h.call, h.rests, h.handle, h.waiting, h.made, h.unset⟩

end

theorem sound_start : Sound ({} : SyncWorld R) where
  call := fun _ _ h => by cases h
  rests := fun _ _ h => by cases h
  handle := fun _ _ _ h => by cases h
  waiting := fun _ _ _ h => by cases h
  made := fun _ _ h => by cases h
  unset := fun _ _ => rfl

/-- Any step. -/
def AnyStep (_ : SyncWorld R) (_ : SyncOp R) : Prop := True

theorem sound_of_run (h : Run step AnyStep {} w) : w.Sound :=
  h.invariant (fun _ _ _ h1 _ hstep => h1.step hstep) sound_start

/-! ## Returns -/

/-- The callers stand where they stood. -/
def SamePhases (w w' : SyncWorld R) : Prop :=
  ∀ i d, w'.call i = some d → ∃ c, w.call i = some c ∧ c.phase = d.phase

theorem SamePhases.of_update (hc : w.call i = some c)
    (hcall : w'.call = update w.call i (some d)) (hphase : c.phase = d.phase) :
    w.SamePhases w' := by
  intro j e he
  rw [hcall] at he
  by_cases hj : j = i
  · subst hj
    obtain rfl : d = e := by simpa using he
    exact ⟨c, hc, hphase⟩
  · exact ⟨e, by rwa [update_of_ne hj] at he, rfl⟩

theorem samePhases_enqueueThread {thread : Tid} {bySignal : Option Signal} (h : w.SamePhases w') :
    w.SamePhases (w'.enqueueThread thread bySignal) := by
  unfold enqueueThread
  split_ifs <;> exact h

theorem samePhases_makeRoot {x : RootAwaitable R} {k : ℕ → Coroutine R} (hc : w.call i = some c)
    (hmake : w.makeRoot i a c x k = .ok w') : w.SamePhases w' := by
  unfold makeRoot at hmake
  split_ifs at hmake
  rw [← Except.ok.inj hmake]
  exact .of_update hc rfl rfl

theorem samePhases_advance (hc : w.call i = some c) (hadvance : w.advance i a c = .ok w') :
    w.SamePhases w' := by
  unfold SyncWorld.advance at hadvance
  split at hadvance
  · split at hadvance
    · rw [← Except.ok.inj hadvance]
      exact .of_update hc rfl rfl
    · rw [← Except.ok.inj hadvance]
      unfold SyncWorld.complete
      dsimp only
      split_ifs
      · exact samePhases_enqueueThread (.of_update hc rfl rfl)
      · exact .of_update hc rfl rfl
  · rw [← Except.ok.inj hadvance]
    exact .of_update hc rfl rfl
  · obtain ⟨w1, h1, hadvance⟩ := bind_ok hadvance
    rw [← Except.ok.inj hadvance]
    have hmake := samePhases_makeRoot hc h1
    exact hmake
  · exact samePhases_makeRoot hc hadvance
  · split at hadvance
    · cases hadvance
    · split_ifs at hadvance
      split at hadvance <;> rw [← Except.ok.inj hadvance] <;> exact .of_update hc rfl rfl

theorem samePhases_callbackHandler (hinvoke : w.callbackHandler a r = .ok w') :
    w.SamePhases w' := by
  unfold SyncWorld.callbackHandler at hinvoke
  split at hinvoke
  · cases hinvoke
  · split at hinvoke
    · cases hinvoke
    · rename_i hc
      split_ifs at hinvoke
      dsimp only at hinvoke
      split at hinvoke
      · rw [← Except.ok.inj hinvoke]
        exact fun j e he => ⟨e, he, rfl⟩
      · rw [← Except.ok.inj hinvoke]
        exact .of_update hc rfl rfl

/-- `sync` returns: as `wait` begins, when a signal is pending or the event is, or as it ends. -/
theorem return_cases {o : SyncOp R} (hstep : w.step o = .ok w') (hd : w'.call i = some d)
    (hreturned : d.phase = .returned)
    (hbefore : ∀ c, w.call i = some c → c.phase ≠ .returned) :
    ∃ c, w.call i = some c ∧ d.coroutine = c.coroutine ∧ d.result = c.promise ∧
      d.awaitable = c.awaitable ∧ w'.root = w.root ∧ w'.callback = w.callback ∧
      (c.phase = .starting ∧ (w.hasPendingSignals c.thread = true ∨ 0 < c.pending) ∨
        c.phase = .asleep ∧ w.blocked c.thread = false) := by
  have hsame : ¬w.SamePhases w' := by
    intro hsame
    obtain ⟨c, hc, hphase⟩ := hsame i d hd
    exact hbefore c hc (hphase.trans hreturned)
  -- the call that returns is the one that waits
  have hfinish : ∀ j c b, w.call j = some b → (w.finish j c).call i = some d →
      i = j ∧ d = { c with phase := .returned, result := c.promise } := by
    intro j c b hb hcall
    by_cases hj : i = j
    · subst hj
      have hcall : update w.call i (some _) i = some d := hcall
      rw [update_self] at hcall
      exact ⟨rfl, (Option.some.inj hcall).symm⟩
    · have hcall : update w.call j (some _) i = some d := hcall
      rw [update_of_ne hj] at hcall
      exact absurd hreturned (hbefore d hcall)
  cases o with
  | call thread j awaitable =>
    simp only [SyncWorld.step] at hstep
    split_ifs at hstep
    rw [← Except.ok.inj hstep] at hd
    have hd : update w.call j (some _) i = some d := hd
    by_cases hj : i = j
    · subst hj
      rw [update_self] at hd
      rw [← Option.some.inj hd] at hreturned
      cases hreturned
    · rw [update_of_ne hj] at hd
      exact absurd hreturned (hbefore d hd)
  | advance j a =>
    simp only [SyncWorld.step] at hstep
    split at hstep
    · cases hstep
    · rename_i hc
      split_ifs at hstep
      exact absurd (samePhases_advance hc hstep) hsame
  | wait j =>
    simp only [SyncWorld.step] at hstep
    split at hstep
    · cases hstep
    · rename_i c hc
      split_ifs at hstep with hready
      have hw := Except.ok.inj hstep
      unfold SyncWorld.wait at hw
      split_ifs at hw with hsignal hpending
      · subst hw
        obtain ⟨rfl, rfl⟩ := hfinish j c c hc hd
        exact ⟨c, hc, rfl, rfl, rfl, rfl, rfl, .inl ⟨hready.1, .inl hsignal⟩⟩
      · subst hw
        obtain ⟨rfl, rfl⟩ := hfinish j _ c hc hd
        exact ⟨c, hc, rfl, rfl, rfl, rfl, rfl, .inl ⟨hready.1, .inr hpending⟩⟩
      · subst hw
        have hd : update w.call j (some _) i = some d := hd
        by_cases hj : i = j
        · subst hj
          rw [update_self] at hd
          rw [← Option.some.inj hd] at hreturned
          cases hreturned
        · rw [update_of_ne hj] at hd
          exact absurd hreturned (hbefore d hd)
  | waitEnd j =>
    simp only [SyncWorld.step] at hstep
    split at hstep
    · cases hstep
    · rename_i c hc
      split_ifs at hstep with hready
      rw [← Except.ok.inj hstep] at hd ⊢
      obtain ⟨rfl, rfl⟩ := hfinish j c c hc hd
      exact ⟨c, hc, rfl, rfl, rfl, rfl, rfl, .inr hready⟩
  | invoke p r =>
    simp only [SyncWorld.step] at hstep
    split at hstep
    · rw [← Except.ok.inj hstep] at hsame
      exact absurd (fun j e he => ⟨e, he, rfl⟩) hsame
    · exact absurd (samePhases_callbackHandler hstep) hsame
  | sendSignal thread signal =>
    rw [← Except.ok.inj hstep] at hsame
    refine absurd (samePhases_enqueueThread ?_) hsame
    exact fun j e he => ⟨e, he, rfl⟩
  | setSignals thread pendingSignals signalMask =>
    simp only [SyncWorld.step] at hstep
    split_ifs at hstep
    rw [← Except.ok.inj hstep] at hsame
    exact absurd (fun j e he => ⟨e, he, rfl⟩) hsame

/-- What is destroyed is referred to exactly by the callbacks that the call has set last. -/
theorem Sound.refers_iff (h : w.Sound) : w.Refers i ↔ ∃ q ∈ w.requests, q.2 = i ∧
    w.lastRequest q.1 = some i := by
  constructor
  · rintro (⟨p, a, x, hp, hx, rfl⟩ | ⟨a, x, hx, hne, hhandle⟩)
    · obtain ⟨y, hy, hlast⟩ := h.made p a hp
      obtain rfl : x = y := Option.some.inj (hx.symm.trans hy)
      obtain ⟨q, hq, hqowner⟩ := Option.map_eq_some_iff.mp hlast
      have hqp : q.1 = p := by simpa using List.find?_some hq
      exact ⟨q, List.mem_of_find?_eq_some hq, hqowner, by rw [hqp, hlast]⟩
    · exact absurd (h.handle a x i hx hhandle) hne
  · rintro ⟨q, -, -, hlast⟩
    cases hp : w.callback q.1 with
    | none =>
      rw [h.unset q.1 hp] at hlast
      cases hlast
    | some a =>
      obtain ⟨x, hx, hlastx⟩ := h.made q.1 a hp
      exact .inl ⟨q.1, a, x, hp, hx, Option.some.inj (hlastx.symm.trans hlast)⟩

/-- **Main theorem.** Every return of `sync`, in every run: the awaitable is complete, its result is
    returned and nothing refers to what is destroyed, exactly if no signal has ended `wait` before
    the result came and every callback that the call has set has been set by another one since. -/
theorem sync_barrier_iff {o : SyncOp R} (h : Run step AnyStep {} w) (hstep : w.step o = .ok w')
    (hd : w'.call i = some d) (hreturned : d.phase = .returned)
    (hbefore : ∀ c, w.call i = some c → c.phase ≠ .returned) :
    w'.Barrier i d ↔ w.Undisturbed i := by
  have hsound := sound_of_run h
  obtain ⟨c, hc, hcoroutine, hresult, hawaitable, hroot, hcallback, hwait⟩ :=
    return_cases hstep hd hreturned hbefore
  have hrefers : w'.Refers i ↔ w.Refers i := by
    unfold Refers
    rw [hroot, hcallback]
  constructor
  · intro hbarrier
    refine ⟨fun b hb _ => ?_, fun q hq hqi hlast => ?_⟩
    · obtain rfl : c = b := Option.some.inj (hc.symm.trans hb)
      rw [← hcoroutine]
      exact hbarrier.completed
    · exact hbarrier.unreferenced (hrefers.mpr (hsound.refers_iff.mpr ⟨q, hq, hqi, hlast⟩))
  · rintro ⟨hsignal, hset⟩
    have hdone : c.coroutine = .done := by
      obtain ⟨hphase, hpending | hpending⟩ | ⟨hphase, hblocked⟩ := hwait
      · exact hsignal c hc (by simpa [interrupted, hphase] using hpending)
      · exact (hsound.call i c hc).signalled hpending
      · obtain hblocked' | hwoken | hdone := (hsound.rests i c hc hphase).2
        · rw [hblocked] at hblocked'
          cases hblocked'
        · exact hsignal c hc (by simpa [interrupted, hphase] using hwoken)
        · exact hdone
    obtain ⟨r, hr, hcompletes⟩ := (hsound.call i c hc).promised hdone
    refine ⟨hcoroutine.trans hdone, ⟨r, hresult.trans hr, ?_⟩, fun hw => ?_⟩
    · rw [hroot, hawaitable]
      exact hcompletes w.root (.refl _)
    · obtain ⟨q, hq, hqi, hlast⟩ := hsound.refers_iff.mp (hrefers.mp hw)
      exact hset q hq hqi hlast

instance (w : SyncWorld R) (i : ℕ) : Decidable (w.Undisturbed i) :=
  inferInstanceAs (Decidable (_ ∧ _))

/-- What is read off a call. -/
structure Glance (R : Type) where
  phase : SyncPhase
  coroutine : CoroutineState
  result : Option R
  deriving DecidableEq

def glance (w : SyncWorld R) (i : ℕ) : Option (Glance R) :=
  (w.call i).map fun c => ⟨c.phase, c.coroutine, c.result⟩

theorem glance_eq {g : Glance R} (h : w.glance i = some g) :
    ∃ c, w.call i = some c ∧ c.phase = g.phase ∧ c.coroutine = g.coroutine ∧
      c.result = g.result := by
  obtain ⟨c, hc, rfl⟩ := Option.map_eq_some_iff.mp h
  exact ⟨c, hc, rfl, rfl, rfl⟩

/-- A call that sleeps has not returned. -/
theorem unreturned {g : Glance R} (h : w.glance i = some g) (hg : g.phase = .asleep) :
    ∀ c, w.call i = some c → c.phase ≠ .returned := by
  intro c hc hreturned
  obtain ⟨b, hb, hphase, -⟩ := glance_eq h
  obtain rfl : b = c := Option.some.inj (hb.symm.trans hc)
  rw [hg, hreturned] at hphase
  cases hphase

/-- The call 0 reads a block, and its caller sleeps. -/
def blockRead : List (SyncOp ℕ) :=
  [.call 1 0 (.request 3 fun a => .awaitRoot a .coReturn), .advance 0 7, .advance 0 7, .wait 0]

/-- What the return of the call 0 is like after these steps. -/
theorem return_after {l : List (SyncOp ℕ)} {b : Bool} {g g' : Glance ℕ}
    (hl : (l.foldlM step ({} : SyncWorld ℕ)).map (fun w => (decide (w.Undisturbed 0), w.glance 0,
      (w.step (.waitEnd 0)).toOption.bind fun w' => w'.glance 0)) = .ok (b, some g, some g'))
    (hg : g.phase = .asleep) (hg' : g'.phase = .returned) :
    ∃ (w w' : SyncWorld ℕ) (d : SyncCall ℕ), Run step AnyStep {} w ∧
      w.step (.waitEnd 0) = .ok w' ∧ w'.call 0 = some d ∧ d.phase = .returned ∧
      d.coroutine = g'.coroutine ∧ d.result = g'.result ∧
      (∀ c, w.call 0 = some c → c.phase ≠ .returned) ∧ (w.Undisturbed 0 ↔ b = true) := by
  obtain ⟨w, hrun, hread⟩ := exists_ok_of_map hl
  simp only [Prod.mk.injEq] at hread
  obtain ⟨hundisturbed, hbefore, hafter⟩ := hread
  obtain ⟨w', hw', hafter⟩ := Option.bind_eq_some_iff.mp hafter
  obtain ⟨d, hd, hphase, hcoroutine, hresult⟩ := glance_eq hafter
  refine ⟨w, w', d, Run.start.foldlM (fun _ _ _ => trivial) hrun, ?_, hd, hphase.trans hg',
    hcoroutine, hresult, unreturned hbefore hg, by rw [← hundisturbed, decide_eq_true_iff]⟩
  cases hstep : w.step (.waitEnd 0) with
  | error e =>
    rw [hstep] at hw'
    cases hw'
  | ok w1 =>
    rw [hstep] at hw'
    rw [Option.some.inj hw']

/-- A block is read, and its request is used again before the caller goes on. -/
theorem sync_barrier_iff_done : ∃ (w w' : SyncWorld ℕ) (d : SyncCall ℕ),
    w.step (.waitEnd 0) = .ok w' ∧ w'.call 0 = some d ∧ d.result = some 512 ∧ w'.Barrier 0 d := by
  obtain ⟨w, w', d, hrun, hstep, hd, hphase, -, hresult, hbefore, hundisturbed⟩ := return_after
    (show ((blockRead ++ [.invoke 3 512, .advance 0 7, .advance 0 7,
      .call 2 1 (.request 3 fun a => .awaitRoot a .coReturn), .advance 1 8] :
        List (SyncOp ℕ)).foldlM step {}).map _ = .ok (true, some ⟨.asleep, .done, none⟩,
          some ⟨.returned, .done, some 512⟩) by decide +kernel) rfl rfl
  exact ⟨w, w', d, hstep, hd, hresult,
    (sync_barrier_iff hrun hstep hd hphase hbefore).mpr (hundisturbed.mpr rfl)⟩

/-- A signal that the thread masks comes first: `sync` returns nothing, and the block is still being
    read. Without a signal the callback of the block stays behind. -/
theorem sync_returns_early :
    (∃ (w w' : SyncWorld ℕ) (d : SyncCall ℕ), Run step AnyStep {} w ∧
      w.step (.waitEnd 0) = .ok w' ∧ w'.call 0 = some d ∧ d.phase = .returned ∧
      d.coroutine = .suspended ∧ d.result = none ∧ ¬w'.Barrier 0 d) ∧
    ∃ (w : SyncWorld ℕ) (d : SyncCall ℕ), (blockRead ++ [.invoke 3 512, .advance 0 7,
      .advance 0 7, .waitEnd 0] : List (SyncOp ℕ)).foldlM step {} = .ok w ∧ w.call 0 = some d ∧ d.phase = .returned ∧
      d.coroutine = .done ∧ d.result = some 512 ∧ w.Refers 0 ∧ ¬w.Barrier 0 d := by
  constructor
  · obtain ⟨w, w', d, hrun, hstep, hd, hphase, hcoroutine, hresult, -⟩ := return_after
      (show ((.setSignals 1 0#64 (getSignalBit 10) :: blockRead ++ [.sendSignal 1 10] :
        List (SyncOp ℕ)).foldlM step {}).map _ = .ok (false, some ⟨.asleep, .suspended, none⟩,
          some ⟨.returned, .suspended, none⟩) by decide +kernel) rfl rfl
    refine ⟨w, w', d, hrun, hstep, hd, hphase, hcoroutine, hresult, fun hbarrier => ?_⟩
    have hdone := hcoroutine.symm.trans hbarrier.completed
    cases hdone
  · obtain ⟨w, hrun, hread⟩ := exists_ok_of_map
      (f := fun w : SyncWorld ℕ => (w.glance 0, w.callback 3, (w.root 7).map RootAwaitable.owner))
      (show ((blockRead ++ [.invoke 3 512, .advance 0 7, .advance 0 7, .waitEnd 0] :
        List (SyncOp ℕ)).foldlM step {}).map _ =
          .ok (some ⟨.returned, .done, some 512⟩, some 7, some 0) by decide +kernel)
    simp only [Prod.mk.injEq] at hread
    obtain ⟨hglance, hcallback, howner⟩ := hread
    obtain ⟨d, hd, hphase, hcoroutine, hresult⟩ := glance_eq hglance
    obtain ⟨x, hx, hx0⟩ := Option.map_eq_some_iff.mp howner
    have hrefers : w.Refers 0 := .inl ⟨3, 7, x, hcallback, hx, hx0⟩
    exact ⟨w, d, hrun, hd, hphase, hcoroutine, hresult, hrefers, fun h => h.unreferenced hrefers⟩

end SyncWorld

end Fishix.Sched
