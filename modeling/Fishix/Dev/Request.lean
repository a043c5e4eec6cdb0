import Mathlib.Logic.Function.Iterate

/-!
# Requests and their completion

Model of `RequestCallback` and `RootAwaitable` (klib/async.hpp:96-173) as
`BlockDevice::read_write_block` and `NetDevice::send_packet` use them (dev/virtio.cpp:209-251,
339-366), and of what an interrupt does about a completed request (lines 181-187, 387-391). The
interrupt comes between any two steps of the coroutine.

`read_write_block` makes its awaitable before it submits the request, and returns it by a move:
the constructor reads `has_result` of the old one before it registers the new one. `send_packet`
makes its awaitable when the request is submitted. `await_suspend` stores the handle without another
look at the result. In these gaps an invocation is lost.

* `good_step_iff`: when a step leaves every completion with its coroutine.
* `completions_kept_iff`: the runs in which no completion is lost.
-/

namespace Fishix.Dev

open Function (update update_self update_of_ne)

/-- A `RequestCallback`: of a `BlockDevice::Request`, or one of `tx_callbacks`. -/
inductive Slot
  | block (request : ℕ)
  | transmit (desc : ℕ)
  deriving DecidableEq

/-- The `RootAwaitable`s of a request: the one that `read_write_block` makes, and the one that is
    awaited. -/
inductive Which
  | original
  | awaited
  deriving DecidableEq

/-- Where the coroutine of a request is. -/
inductive RequestPlace (R : Type)
  | idle
  /-- The `Request` or the descriptor is allocated. -/
  | allocated
  /-- `read_write_block` has made its awaitable. -/
  | made
  /-- The descriptor is submitted. -/
  | submitted
  /-- In the move constructor, with what `has_result` and `result` were. -/
  | copying (result : Option R)
  /-- The awaitable is registered and not asked. -/
  | held
  /-- `await_ready` has returned false. -/
  | unready
  /-- `await_suspend` has stored the handle. -/
  | suspended
  /-- `await_resume` has returned. -/
  | finished (result : R)

abbrev RequestId := ℕ

/-- A request with the results in its two awaitables, and the one that the device completed it
    with. -/
structure Request (R : Type) where
  slot : Slot := .block 0
  place : RequestPlace R := .idle
  original : Option R := none
  awaited : Option R := none
  completed : Option R := none

/-- The requests, the callbacks, and who has them. `astray` is set when the completion of a request
    calls into the awaitable of another. -/
structure Requests (R : Type) where
  request : RequestId → Request R := fun _ => {}
  callback : Slot → Option (RequestId × Which) := fun _ => none
  owner : Slot → Option RequestId := fun _ => none
  astray : Bool := false

inductive RequestOp (R : Type)
  /-- A request is begun with a free slot. -/
  | start (r : RequestId) (slot : Slot)
  /-- Its coroutine goes on. -/
  | run (r : RequestId)
  /-- The interrupt of its completion. -/
  | complete (r : RequestId) (result : R)

variable {R : Type}

/-- The device knows of it. -/
def RequestPlace.Submitted : RequestPlace R → Prop
  | .idle | .allocated | .made => False
  | _ => True

instance : DecidablePred (RequestPlace.Submitted : RequestPlace R → Prop) := fun p =>
  match p with
  | .idle | .allocated | .made => isFalse id
  | .submitted | .copying _ | .held | .unready | .suspended | .finished _ => isTrue trivial

/-- The next step of the coroutine of a request. -/
def Request.next (x : Request R) : Request R :=
  match x.place with
  | .allocated =>
    match x.slot with
    | .block _ => { x with place := .made, original := none }
    | .transmit _ => { x with place := .submitted }
  | .made => { x with place := .submitted }
  | .submitted =>
    match x.slot with
    | .block _ => { x with place := .copying x.original }
    | .transmit _ => { x with place := .held, awaited := none }
  | .copying result => { x with place := .held, awaited := result }
  | .held =>
    match x.awaited with
    | some result => { x with place := .finished result }
    | none => { x with place := .unready }
  | .unready => { x with place := .suspended }
  | .idle | .suspended | .finished _ => x

/-- The awaitable that this step registers: a constructor does, and so does the move constructor
    unless it saw a result. -/
def Request.registers (x : Request R) : Option Which :=
  match x.place, x.slot with
  | .allocated, .block _ => some .original
  | .submitted, .transmit _ | .copying none, _ => some .awaited
  | _, _ => none

/-- `callback_handler` (klib/async.hpp:119-125) on an awaitable of a request. -/
def Request.callbackHandler (x : Request R) (which : Which) (result : R) :
    Request R :=
  match which, x.place with
  | .original, _ => { x with original := some result }
  | .awaited, .suspended => { x with awaited := some result, place := .finished result }
  | .awaited, _ => { x with awaited := some result }

namespace Requests

variable (s : Requests R) (r : RequestId)

def modify (f : Request R → Request R) : Requests R :=
  { s with request := update s.request r (f (s.request r)) }

/-- `callback->set_callback(this, &callback_handler)`. -/
def setCallback (which : Which) : Requests R :=
  { s with callback := update s.callback (s.request r).slot (some (r, which)) }

/-- `alloc_request` and `alloc_descriptor`, or the latter. -/
def start (slot : Slot) : Requests R :=
  match (s.request r).place, s.owner slot with
  | .idle, none =>
    { s.modify r fun _ => { slot, place := .allocated } with
      owner := update s.owner slot (some r) }
  | _, _ => s

/-- The coroutine goes on. -/
def run : Requests R :=
  match (s.request r).registers with
  | some which => (s.modify r Request.next).setCallback r which
  | none => s.modify r Request.next

/-- `invoke` of the callback of a request. -/
def invoke (result : R) : Requests R :=
  match s.callback (s.request r).slot with
  | none => s
  | some (r', which) =>
    let s := s.modify r' fun x => x.callbackHandler which result
    if r' = r then s else { s with astray := true }

/-- The interrupt: `invoke`, then `free_request` or `free_descriptor`. The device completes what was
    submitted to it, and once. -/
def complete (result : R) : Requests R :=
  if (s.request r).place.Submitted ∧ (s.request r).completed.isNone then
    let s := (s.invoke r result).modify r fun x => { x with completed := some result }
    { s with owner := update s.owner (s.request r).slot none }
  else s

def step : RequestOp R → Requests R
  | .start r slot => s.start r slot
  | .run r => s.run r
  | .complete r result => s.complete r result

end Requests

/-! ## What completions are to be -/

/-- The coroutine is in the move constructor without a result, between `await_ready` and
    `await_suspend`, or before the awaitable of its packet is made. -/
def Request.InGap (x : Request R) : Prop :=
  match x.place, x.slot with
  | .copying none, _ | .unready, _ | .submitted, .transmit _ => True
  | _, _ => False

namespace Requests

/-- Every request that is completed has its result within reach of its coroutine, which has to do
    nothing but go on. It obtains no other result, and no completion goes astray. -/
structure Good (s : Requests R) : Prop where
  obtains : ∀ r v, (s.request r).completed = some v →
    ∃ k, (((fun s => s.run r)^[k] s).request r).place = .finished v
  only : ∀ r v, (s.request r).place = .finished v → (s.request r).completed = some v
  astray : s.astray = false

/-- Every state of the run is good. -/
def Completes (s : Requests R) : List (RequestOp R) → Prop
  | [] => s.Good
  | o :: ops => s.Good ∧ (s.step o).Completes ops

/-- No completion comes in a gap. -/
def Allows (s : Requests R) : RequestOp R → Prop
  | .complete r _ => ¬(s.request r).InGap
  | _ => True

def AllowsAll (s : Requests R) : List (RequestOp R) → Prop
  | [] => True
  | o :: ops => s.Allows o ∧ (s.step o).AllowsAll ops

/-! ## One step -/

end Requests

/-- The result that the coroutine is going to find. -/
def Request.available (x : Request R) : Option R :=
  match x.place, x.slot with
  | .idle, _ | .allocated, _ | .submitted, .transmit _ | .unready, _ | .suspended, _ => none
  | .made, _ | .submitted, .block _ => x.original
  | .copying result, _ => result
  | .held, _ => x.awaited
  | .finished result, _ => some result

/-- The awaitable that is registered with the callback. -/
def Request.registered (x : Request R) : Option Which :=
  match x.place, x.slot with
  | .idle, _ | .allocated, _ | .submitted, .transmit _ | .finished _, _ => none
  | .made, _ | .submitted, .block _ | .copying _, _ => some .original
  | .held, _ | .unready, _ | .suspended, _ => some .awaited

namespace Requests

theorem Request.next_slot (x : Request R) : x.next.slot = x.slot := by
  obtain ⟨slot, place, original, awaited, completed⟩ := x
  cases place with
  | allocated | submitted => cases slot <;> rfl
  | held => cases awaited <;> rfl
  | _ => rfl

theorem Request.next_completed (x : Request R) : x.next.completed = x.completed := by
  obtain ⟨slot, place, original, awaited, completed⟩ := x
  cases place with
  | allocated | submitted => cases slot <;> rfl
  | held => cases awaited <;> rfl
  | _ => rfl

/-- The awaitable that is registered in a step has no result, and the completion has not come. -/
theorem Request.next_registers {x : Request R} {w : Which} (hregisters : x.registers = some w)
    (hresult : x.available = x.completed) (hearly : ¬x.place.Submitted → x.completed = none) :
    x.completed = none ∧ x.next.available = none ∧ x.next.registered = some w := by
  obtain ⟨slot, place, original, awaited, completed⟩ := x
  cases place with
  | allocated =>
    cases slot with
    | block _ => exact ⟨hearly id, rfl, hregisters⟩
    | transmit _ => cases hregisters
  | submitted =>
    cases slot with
    | block _ => cases hregisters
    | transmit _ => exact ⟨hresult.symm, rfl, hregisters⟩
  | copying result =>
    cases result with
    | none => exact ⟨hresult.symm, rfl, hregisters⟩
    | some _ => cases hregisters
  | _ => cases hregisters

/-- A step that registers nothing leaves the result and the registration. -/
theorem Request.next_keeps {x : Request R} (hregisters : x.registers = none)
    (hplace : x.place ≠ .idle) (hresult : x.available = x.completed)
    (hearly : ¬x.place.Submitted → x.completed = none) :
    x.next.available = x.available ∧ x.next.place.Submitted ∧
      ∀ w, x.completed = none → x.next.registered = some w → x.registered = some w := by
  obtain ⟨slot, place, original, awaited, completed⟩ := x
  cases place with
  | idle => exact absurd rfl hplace
  | allocated =>
    cases slot with
    | block _ => cases hregisters
    | transmit _ => exact ⟨rfl, trivial, fun _ _ => id⟩
  | made =>
    cases slot with
    | block _ => exact ⟨rfl, trivial, fun _ _ => id⟩
    | transmit _ => exact ⟨(hresult.trans (hearly id)).symm, trivial, fun _ _ => nofun⟩
  | submitted =>
    cases slot with
    | block _ => exact ⟨rfl, trivial, fun _ _ => id⟩
    | transmit _ => cases hregisters
  | copying result =>
    cases result with
    | none => cases hregisters
    | some v => exact ⟨rfl, trivial, fun _ hnone => nomatch hresult.trans hnone⟩
  | held =>
    cases awaited with
    | some v => exact ⟨rfl, trivial, fun _ _ => nofun⟩
    | none => exact ⟨rfl, trivial, fun _ _ => id⟩
  | _ => exact ⟨rfl, trivial, fun _ _ => id⟩

/-- What holds of a request throughout the runs in which no completion is lost. -/
structure SoundAt (s : Requests R) (r : RequestId) : Prop where
  result : (s.request r).available = (s.request r).completed
  early : ¬(s.request r).place.Submitted → (s.request r).completed = none
  owned : (s.request r).place ≠ .idle → (s.request r).completed = none →
    s.owner (s.request r).slot = some r
  registered : ∀ w, (s.request r).completed = none → (s.request r).registered = some w →
    s.callback (s.request r).slot = some (r, w)

structure Sound (s : Requests R) : Prop where
  request : ∀ r, s.SoundAt r
  astray : s.astray = false

variable {s s' : Requests R} {r : RequestId} {x : Request R} {o : RequestOp R} {result : R}
  {w : Which}

theorem sound_start : Sound ({} : Requests R) where
  request _ := ⟨rfl, fun _ => rfl, fun hplace => absurd rfl hplace, fun _ _ => nofun⟩
  astray := rfl

/-- A request changes, and nothing that another one is registered or entered with. -/
theorem Sound.change (h : s.Sound) (hrequest : s'.request = update s.request r x)
    (hother : ∀ r' ≠ r, (s.request r').place ≠ .idle → (s.request r').completed = none →
      s'.owner (s.request r').slot = s.owner (s.request r').slot ∧
        s'.callback (s.request r').slot = s.callback (s.request r').slot)
    (hastray : s'.astray = false) (hself : s'.SoundAt r) : s'.Sound where
  request r' := by
    by_cases hr : r' = r
    · rw [hr]
      exact hself
    have hsame : s'.request r' = s.request r' := by rw [hrequest, update_of_ne hr]
    have hr' := h.request r'
    refine ⟨?_, ?_, ?_, ?_⟩ <;> rw [hsame]
    · exact hr'.result
    · exact hr'.early
    · intro hplace hnone
      rw [(hother r' hr hplace hnone).1]
      exact hr'.owned hplace hnone
    · intro w hnone hw
      have hplace : (s.request r').place ≠ .idle := by
        intro hidle
        rw [Request.registered, hidle] at hw
        cases hw
      rw [(hother r' hr hplace hnone).2]
      exact hr'.registered w hnone hw
  astray := hastray

/-- Two requests that are not completed do not share a slot. -/
theorem Sound.slot_ne (h : s.Sound) {r' : RequestId} (hr : r' ≠ r)
    (howner : s.owner x.slot = some r) (hplace : (s.request r').place ≠ .idle)
    (hnone : (s.request r').completed = none) : (s.request r').slot ≠ x.slot := by
  intro hslot
  have howned := (h.request r').owned hplace hnone
  rw [hslot, howner] at howned
  exact hr (Option.some.inj howned).symm

/-- The coroutine goes on, with the registration as it is. -/
theorem Sound.goto (h : s.Sound) (f : Request R → Request R)
    (hslot : (f (s.request r)).slot = (s.request r).slot)
    (hcompleted : (f (s.request r)).completed = (s.request r).completed)
    (hplace : (s.request r).place ≠ .idle)
    (hresult : (f (s.request r)).available = (s.request r).available)
    (hsubmitted : (f (s.request r)).place.Submitted)
    (hregistered : ∀ w, (s.request r).completed = none → (f (s.request r)).registered = some w →
      (s.request r).registered = some w) : (s.modify r f).Sound := by
  have hr := h.request r
  have hself : (s.modify r f).request r = f (s.request r) := update_self r _ s.request
  refine h.change rfl (fun _ _ _ _ => ⟨rfl, rfl⟩) h.astray ⟨?_, ?_, ?_, ?_⟩ <;> rw [hself]
  · rw [hresult, hcompleted, hr.result]
  · exact fun hnot => absurd hsubmitted hnot
  · rw [hslot, hcompleted]
    exact fun _ hnone => hr.owned hplace hnone
  · rw [hslot, hcompleted]
    exact fun w hnone hw => hr.registered w hnone (hregistered w hnone hw)

/-- The coroutine makes or moves an awaitable. -/
theorem Sound.register (h : s.Sound) (f : Request R → Request R)
    (hslot : (f (s.request r)).slot = (s.request r).slot)
    (hcompleted : (f (s.request r)).completed = (s.request r).completed)
    (hplace : (s.request r).place ≠ .idle) (hnone : (s.request r).completed = none)
    (hresult : (f (s.request r)).available = none)
    (hregistered : (f (s.request r)).registered = some w) :
    ((s.modify r f).setCallback r w).Sound := by
  have hr := h.request r
  have hself : (s.modify r f).request r = f (s.request r) := update_self r _ s.request
  have hself' : ((s.modify r f).setCallback r w).request r = f (s.request r) := hself
  have howner := hr.owned hplace hnone
  refine h.change rfl (fun r' hr' hplace' hnone' => ⟨rfl, ?_⟩) h.astray ⟨?_, ?_, ?_, ?_⟩
  · show update s.callback ((s.modify r f).request r).slot (some (r, w)) _ = _
    rw [hself, hslot, update_of_ne (h.slot_ne hr' howner hplace' hnone')]
  · rw [hself', hresult, hcompleted, hnone]
  · rw [hself', hcompleted]
    exact fun _ => hnone
  · rw [hself', hslot]
    exact fun _ _ => howner
  · rw [hself']
    intro w' _ hw'
    show update s.callback ((s.modify r f).request r).slot (some (r, w)) _ = _
    rw [hself, update_self]
    rw [hregistered] at hw'
    rw [Option.some.inj hw']

theorem request_run : (s.run r).request = update s.request r (s.request r).next := by
  unfold Requests.run
  cases (s.request r).registers <;> rfl

/-- The coroutine goes on. -/
theorem Sound.run (h : s.Sound) : (s.run r).Sound := by
  have hr := h.request r
  by_cases hidle : (s.request r).place = .idle
  · have hnext : (s.request r).next = s.request r := by
      unfold Request.next
      rw [hidle]
    have hregisters : (s.request r).registers = none := by
      unfold Request.registers
      rw [hidle]
    unfold Requests.run modify
    rw [hregisters, hnext]
    simpa only [Function.update_eq_self] using h
  unfold Requests.run
  cases hregisters : (s.request r).registers with
  | some w =>
    obtain ⟨hnone, havailable, hregistered⟩ :=
      Request.next_registers hregisters hr.result hr.early
    exact h.register _ (Request.next_slot _) (Request.next_completed _) hidle hnone havailable
      hregistered
  | none =>
    obtain ⟨havailable, hsubmitted, hregistered⟩ :=
      Request.next_keeps hregisters hidle hr.result hr.early
    exact h.goto _ (Request.next_slot _) (Request.next_completed _) hidle havailable hsubmitted
      hregistered

/-- A request is begun. -/
theorem Sound.start (h : s.Sound) (slot : Slot) : (s.start r slot).Sound := by
  unfold Requests.start
  split
  · rename_i hplace howner
    refine h.change rfl (fun r' hr hplace' hnone => ⟨?_, rfl⟩) h.astray ?_
    · have howned := (h.request r').owned hplace' hnone
      show update s.owner slot (some r) _ = _
      rw [update_of_ne]
      intro hslot
      rw [hslot, howner] at howned
      cases howned
    · have hself : update s.request r { slot, place := .allocated } r =
          { slot, place := .allocated } := update_self _ _ _
      refine ⟨?_, ?_, ?_, ?_⟩ <;> simp only [modify, hself]
      · trivial
      · exact fun _ => trivial
      · exact fun _ _ => update_self _ _ _
      · exact fun _ _ => nofun
  · exact h

/-- A completion that comes to a registered awaitable. -/
theorem Sound.complete_eq (h : s.Sound) (hsubmitted : (s.request r).place.Submitted)
    (hnone : (s.request r).completed = none) (hw : (s.request r).registered = some w) :
    s.complete r result = { s with
      request := update s.request r
        { (s.request r).callbackHandler w result with completed := some result }
      owner := update s.owner (s.request r).slot none } := by
  have hcallback := (h.request r).registered w hnone hw
  have hslot : ((s.request r).callbackHandler w result).slot = (s.request r).slot := by
    unfold Request.callbackHandler
    split <;> rfl
  unfold Requests.complete invoke
  rw [hcallback, if_pos ⟨hsubmitted, by rw [hnone]; rfl⟩]
  simp only [if_true, modify, update_self, Function.update_idem, hslot]

theorem submitted_callbackHandler (hsubmitted : x.place.Submitted) :
    (x.callbackHandler w result).place.Submitted := by
  unfold Request.callbackHandler
  split
  · exact hsubmitted
  · trivial
  · exact hsubmitted

theorem Sound.complete (h : s.Sound) (hsubmitted : (s.request r).place.Submitted)
    (hnone : (s.request r).completed = none) (hw : (s.request r).registered = some w)
    (hresult : ((s.request r).callbackHandler w result).available = some result) :
    (s.complete r result).Sound := by
  have hplace : (s.request r).place ≠ .idle := by
    intro hidle
    rw [hidle] at hsubmitted
    exact hsubmitted
  have howner := (h.request r).owned hplace hnone
  rw [h.complete_eq hsubmitted hnone hw]
  refine h.change rfl (fun r' hr' hplace' hnone' => ⟨?_, rfl⟩) h.astray ?_
  · exact update_of_ne (h.slot_ne hr' howner hplace' hnone') _ _
  · refine ⟨?_, ?_, ?_, ?_⟩ <;> simp only [update_self]
    · exact hresult
    · exact fun hnot => absurd (submitted_callbackHandler hsubmitted) hnot
    · exact fun _ => nofun
    · exact fun _ => nofun

end Requests

/-! ## What the coroutine finds -/

/-- The request will not find a result, if nothing invokes its callback. -/
def Request.Stuck (x : Request R) : Prop :=
  match x.place, x.slot with
  | .copying none, _ | .unready, _ | .suspended, _ | .submitted, .transmit _ => True
  | .held, _ => x.awaited = none
  | _, _ => False

/-- A request that is stuck stays so. -/
theorem Request.Stuck.next {x : Request R} (h : x.Stuck) : x.next.Stuck := by
  obtain ⟨slot, place, original, awaited, completed⟩ := x
  cases place with
  | copying result =>
    cases result with
    | none => rfl
    | some _ => exact h.elim
  | unready | suspended => trivial
  | submitted =>
    cases slot with
    | block _ => exact h.elim
    | transmit _ => rfl
  | held =>
    cases awaited with
    | none => trivial
    | some _ => cases h
  | _ => exact h.elim

namespace Requests

variable {s : Requests R} {r : RequestId} {o : RequestOp R} {result : R} {w : Which}

theorem iterate_run (k : ℕ) :
    ((fun s => s.run r)^[k] s).request r = Request.next^[k] (s.request r) := by
  induction k generalizing s with
  | zero => rfl
  | succ k ih =>
    rw [Function.iterate_succ_apply, Function.iterate_succ_apply, ih, request_run,
      update_self]

/-- A request that is stuck does not obtain its result. -/
theorem stuck_not_finished {x : Request R} (h : x.Stuck) (k : ℕ) :
    (Request.next^[k] x).place ≠ .finished result := by
  have hstuck : (Request.next^[k] x).Stuck := by
    induction k generalizing x with
    | zero => exact h
    | succ k ih => exact ih h.next
  intro hplace
  unfold Request.Stuck at hstuck
  rw [hplace] at hstuck
  exact hstuck

theorem finds_available {x : Request R} (hplace : x.place.Submitted)
    (h : x.available = some result) : ∃ k, (Request.next^[k] x).place = .finished result := by
  obtain ⟨slot, place, original, awaited, completed⟩ := x
  cases place with
  | submitted =>
    cases slot with
    | block _ =>
      cases h
      exact ⟨3, rfl⟩
    | transmit _ => cases h
  | copying seen =>
    cases h
    exact ⟨2, rfl⟩
  | held =>
    cases h
    exact ⟨1, rfl⟩
  | finished v =>
    cases h
    exact ⟨0, rfl⟩
  | unready | suspended | idle | allocated => cases h
  | made => exact hplace.elim

theorem Sound.good (h : s.Sound) : s.Good where
  obtains r v hv := by
    have hr := h.request r
    have hplace : (s.request r).place.Submitted := by
      by_contra hnot
      rw [hr.early hnot] at hv
      cases hv
    obtain ⟨k, hk⟩ := finds_available hplace (hr.result.trans hv)
    exact ⟨k, by rw [iterate_run, hk]⟩
  only r v hv := by
    rw [← (h.request r).result, Request.available, hv]
  astray := h.astray

theorem in_gap_submitted {x : Request R} (h : x.InGap) :
    x.place.Submitted ∧ x.available = none := by
  obtain ⟨slot, place, original, awaited, completed⟩ := x
  cases place with
  | copying seen =>
    cases seen with
    | none => exact ⟨trivial, rfl⟩
    | some _ => exact h.elim
  | submitted =>
    cases slot with
    | block _ => exact h.elim
    | transmit _ => exact ⟨trivial, rfl⟩
  | unready => exact ⟨trivial, rfl⟩
  | _ => exact h.elim

/-- A request that is completed and stuck has lost its completion. -/
theorem not_good_of_stuck (r : RequestId) (result : R)
    (hcompleted : (s.request r).completed = some result)
    (hstuck : (s.request r).Stuck) : ¬s.Good := by
  intro hgood
  obtain ⟨k, hk⟩ := hgood.obtains r result hcompleted
  rw [iterate_run] at hk
  exact stuck_not_finished hstuck k hk

/-- Before the awaitable of a packet is made, its completion is lost or goes to an earlier
    packet. -/
theorem early_not_good {desc : ℕ} (hplace : (s.request r).place = .submitted)
    (hslot : (s.request r).slot = .transmit desc) (hnone : (s.request r).completed = none) :
    ¬(s.complete r result).Good := by
  have hsubmitted : (s.request r).place.Submitted := by
    rw [hplace]
    trivial
  unfold Requests.complete
  rw [if_pos ⟨hsubmitted, by rw [hnone]; rfl⟩]
  unfold invoke
  cases hcallback : s.callback (s.request r).slot with
  | none =>
    apply not_good_of_stuck r result
    · simp only [modify, update_self]
    · simp only [modify, update_self, Request.Stuck, hplace, hslot]
  | some c =>
    obtain ⟨r', w⟩ := c
    by_cases hr : r' = r
    · subst hr
      have hcb : ((s.request r').callbackHandler w result).place = .submitted ∧
          ((s.request r').callbackHandler w result).slot = .transmit desc := by
        unfold Request.callbackHandler
        rw [hplace]
        cases w <;> exact ⟨rfl, hslot⟩
      apply not_good_of_stuck r' result
      · simp only [if_true, modify, update_self]
      · simp only [if_true, modify, update_self, Request.Stuck, hcb.1, hcb.2]
    · intro hgood
      have hastray := hgood.astray
      simp only [hr, if_false, modify] at hastray
      cases hastray

/-- A completion that is registered, but comes where the result is not looked at again, is lost. -/
theorem Sound.late_not_good (h : s.Sound) (hsubmitted : (s.request r).place.Submitted)
    (hnone : (s.request r).completed = none) (hw : (s.request r).registered = some w)
    (hstuck : ((s.request r).callbackHandler w result).Stuck) :
    ¬(s.complete r result).Good := by
  rw [h.complete_eq hsubmitted hnone hw]
  apply not_good_of_stuck r result
  · simp only [update_self]
  · simp only [update_self]
    exact hstuck

theorem Sound.complete_iff (h : s.Sound) :
    ((s.complete r result).Good ↔ s.Allows (.complete r result)) ∧
      (s.Allows (.complete r result) → (s.complete r result).Sound) := by
  have hr := h.request r
  have hresult := hr.result
  have hgood : s.Allows (.complete r result) → (s.complete r result).Sound →
      ((s.complete r result).Good ↔ s.Allows (.complete r result)) ∧
        (s.Allows (.complete r result) → (s.complete r result).Sound) :=
    fun hallows hsound => ⟨iff_of_true hsound.good hallows, fun _ => hsound⟩
  have hlost : ¬s.Allows (.complete r result) → ¬(s.complete r result).Good →
      ((s.complete r result).Good ↔ s.Allows (.complete r result)) ∧
        (s.Allows (.complete r result) → (s.complete r result).Sound) :=
    fun hnot hlost => ⟨iff_of_false hlost hnot, fun hallows => absurd hallows hnot⟩
  by_cases hdevice : ¬((s.request r).place.Submitted ∧ (s.request r).completed.isNone)
  · -- the device does not complete it
    have hallows : s.Allows (.complete r result) := by
      intro hgap
      obtain ⟨hsubmitted, hnone⟩ := in_gap_submitted hgap
      rw [hresult] at hnone
      exact hdevice ⟨hsubmitted, by rw [hnone]; rfl⟩
    have hsame : s.complete r result = s := if_neg hdevice
    exact hgood hallows (hsame.symm ▸ h)
  obtain ⟨hsubmitted, hnone⟩ := not_not.mp hdevice
  rw [Option.isNone_iff_eq_none] at hnone
  cases hplace : (s.request r).place with
  | idle | allocated | made =>
    rw [hplace] at hsubmitted
    exact hsubmitted.elim
  | submitted =>
    cases hslot : (s.request r).slot with
    | block _ =>
      have hsound : (s.complete r result).Sound := by
        apply h.complete (w := .original) hsubmitted hnone
        · simp only [Request.registered, hplace, hslot]
        · simp only [Request.callbackHandler, Request.available, hplace, hslot]
      exact hgood (by simp only [Allows, Request.InGap, hplace, hslot, not_false_eq_true]) hsound
    | transmit _ =>
      exact hlost (not_not.mpr (by simp only [Request.InGap, hplace, hslot]))
        (early_not_good hplace hslot hnone)
  | copying seen =>
    rw [Request.available, hplace, hnone] at hresult
    cases hresult
    refine hlost (not_not.mpr (by simp only [Request.InGap, hplace])) ?_
    apply h.late_not_good (w := .original) hsubmitted hnone
    · simp only [Request.registered, hplace]
    · simp only [Request.callbackHandler, Request.Stuck, hplace]
  | held =>
    have hsound : (s.complete r result).Sound := by
      apply h.complete (w := .awaited) hsubmitted hnone
      · simp only [Request.registered, hplace]
      · simp only [Request.callbackHandler, Request.available, hplace]
    exact hgood (by simp only [Allows, Request.InGap, hplace, not_false_eq_true]) hsound
  | unready =>
    refine hlost (not_not.mpr (by simp only [Request.InGap, hplace])) ?_
    apply h.late_not_good (w := .awaited) hsubmitted hnone
    · simp only [Request.registered, hplace]
    · simp only [Request.callbackHandler, Request.Stuck, hplace]
  | suspended =>
    have hsound : (s.complete r result).Sound := by
      apply h.complete (w := .awaited) hsubmitted hnone
      · simp only [Request.registered, hplace]
      · simp only [Request.callbackHandler, Request.available, hplace]
    exact hgood (by simp only [Allows, Request.InGap, hplace, not_false_eq_true]) hsound
  | finished v =>
    rw [Request.available, hplace, hnone] at hresult
    cases hresult

/-- When a step leaves every completion with its coroutine. -/
theorem Sound.good_step_iff (h : s.Sound) :
    ((s.step o).Good ↔ s.Allows o) ∧ (s.Allows o → (s.step o).Sound) := by
  cases o with
  | start r slot => exact ⟨iff_of_true (h.start slot).good trivial, fun _ => h.start slot⟩
  | run r => exact ⟨iff_of_true h.run.good trivial, fun _ => h.run⟩
  | complete r result => exact h.complete_iff

theorem Sound.completes_iff (h : s.Sound) {ops : List (RequestOp R)} :
    s.Completes ops ↔ s.AllowsAll ops := by
  induction ops generalizing s with
  | nil => exact iff_of_true h.good trivial
  | cons o ops ih =>
    obtain ⟨hiff, hsound⟩ := h.good_step_iff (o := o)
    constructor
    · rintro ⟨-, hrest⟩
      have hgood : (s.step o).Good := by
        cases ops with
        | nil => exact hrest
        | cons _ _ => exact hrest.1
      have hallows := hiff.mp hgood
      exact ⟨hallows, (ih (hsound hallows)).mp hrest⟩
    · rintro ⟨hallows, hrest⟩
      exact ⟨h.good, (ih (hsound hallows)).mpr hrest⟩

end Requests

/-- **Main theorem.** In a run no completion is lost or goes astray, exactly if none comes while the
    coroutine of its request is in a gap. -/
theorem completions_kept_iff (ops : List (RequestOp R)) :
    Requests.Completes {} ops ↔ Requests.AllowsAll {} ops := Requests.sound_start.completes_iff

/-- A packet is sent before its awaitable is made. -/
def earlyPacket : List (RequestOp ℕ) :=
  [.start 0 (.transmit 5), .run 0, .complete 0 0, .run 0, .run 0, .run 0]

/-- Its coroutine is suspended for good. -/
theorem earlyPacket_suspended :
    ((earlyPacket.foldl Requests.step {}).request 0).place = .suspended ∧
      ¬Requests.Completes {} earlyPacket := by
  refine ⟨rfl, ?_⟩
  rintro ⟨-, -, -, -, -, -, hgood⟩
  exact absurd hgood (Requests.not_good_of_stuck 0 0 rfl trivial)

end Fishix.Dev
