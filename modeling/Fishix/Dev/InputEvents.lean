import Fishix.Common.RingOverwrite

/-!
# Input events and their listeners

Model of `InputDevice::push_event`, `flush_events` and `InputListener::read`
(dev/input/input.cpp:53-100). The device collects the events of a batch and hands the whole batch to
each of its listeners; one that has too little room for it loses what it holds, and gets a marker in
front. A callback of a listener reads from it like anybody else; `remove_listener` ends a stream.

A batch of 127 events and the `SYN_REPORT` leave no place for the marker, and the `SYN_REPORT` is
lost. Besides, the marker comes in the middle of a batch that the reader has begun, and twice where
it has read the first marker alone.

* `Delivers`: the batches and markers of a stream without losses that are not marked.
* `InputListener.Sound.deliver`: what a listener gets of a batch.
* `batches_whole`: the runs in which every stream is one of whole batches.
-/

namespace Fishix.Dev.Input

open RingBuffer (Stores)

abbrev U16 := BitVec 16
abbrev U32 := BitVec 32
abbrev I64 := BitVec 64

/-! ## Model -/

def EV_SYN : U16 := 0#16
def SYN_REPORT : U16 := 0#16
def SYN_DROPPED : U16 := 3#16

/-- `struct timeval`. -/
structure Timeval where
  sec : I64
  usec : I64
  deriving DecidableEq

/-- `InputEvent` (dev/input/input.hpp:11-16). -/
structure InputEvent where
  time : Timeval
  type : U16
  code : U16
  value : U32
  deriving DecidableEq

/-- The capacity of the buffers. -/
def capacity : ℕ := 128

/-- The marker that `flush_events` writes where events have been lost. -/
def droppedEvent (now : Timeval) : InputEvent := ⟨now, EV_SYN, SYN_DROPPED, 0#32⟩

/-- `InputListener` (dev/input/input.hpp:21-30). -/
structure InputListener where
  eventBuffer : RingBuffer InputEvent capacity
  /-- What has been read from it. -/
  taken : List InputEvent := []
  /-- The number of batches before it was created. -/
  joined : ℕ
  /-- What it has been given at a time and has not lost, the events read included. -/
  items : List (List InputEvent) := []

/-- `InputDevice` (dev/input/input.hpp:32-63), with its clock as an argument of the functions. -/
structure InputDevice where
  eventBuffer : RingBuffer InputEvent capacity
  listeners : List InputListener := []
  /-- The events pushed since the last flush. -/
  pushed : List InputEvent := []
  /-- The batches: the events between two flushes and a `SYN_REPORT`. -/
  batches : List (List InputEvent) := []

/-- The items that end within the first `n` events. -/
def wholeItems : List (List InputEvent) → (n : ℕ) → List (List InputEvent)
  | [], _ => []
  | item :: rest, n => if item.length ≤ n then item :: wholeItems rest (n - item.length) else []

namespace InputListener

/-- There is too little room for `n` events. -/
def Overflows (l : InputListener) (n : ℕ) : Prop := l.eventBuffer.freeCount.toNat < n

instance (l : InputListener) (n : ℕ) : Decidable (l.Overflows n) :=
  inferInstanceAs (Decidable (_ < _))

/-- `InputListener::read` (lines 53-60) without the wait: `none` if there is nothing to be read. -/
def read (l : InputListener) (count : ℕ) : Option (List InputEvent) × InputListener :=
  if l.eventBuffer.isEmpty then (none, l)
  else
    let (events, eventBuffer) := l.eventBuffer.read count
    (some events, { l with eventBuffer, taken := l.taken ++ events })

/-- The body of the loop over the listeners (lines 84-97); `events` is what has been read from the
    buffer of the device, for the batch `batch`. -/
def deliver (l : InputListener) (now : Timeval) (events batch : List InputEvent) : InputListener :=
  if l.Overflows events.length then
    let eventBuffer := (l.eventBuffer.truncate l.eventBuffer.dataCount.toNat).2
    let eventBuffer := (eventBuffer.write [droppedEvent now]).2
    { l with
      eventBuffer := (eventBuffer.write events).2
      items := wholeItems l.items l.taken.length ++ [droppedEvent now :: batch] }
  else
    { l with
      eventBuffer := (l.eventBuffer.write events).2
      items := if batch = [] then l.items else l.items ++ [batch] }

/-- What has been read from it are whole items. -/
def AtBoundary (l : InputListener) : Prop := (wholeItems l.items l.taken.length).flatten = l.taken

instance (l : InputListener) : Decidable l.AtBoundary := inferInstanceAs (Decidable (_ = _))

end InputListener

namespace InputDevice

/-- `push_event` (lines 69-76). -/
def pushEvent (d : InputDevice) (now : Timeval) (type code : U16) (value : U32) : InputDevice :=
  let inputEvent := ⟨now, type, code, value⟩
  { d with
    eventBuffer := (d.eventBuffer.writeTruncate [inputEvent]).2
    pushed := d.pushed ++ [inputEvent] }

/-- `flush_events` (lines 78-100). -/
def flushEvents (d : InputDevice) (now : Timeval) (listenerNow : ℕ → Timeval) : InputDevice :=
  let d := if d.eventBuffer.isEmpty then d else d.pushEvent now EV_SYN SYN_REPORT 0#32
  let events := d.eventBuffer.read capacity
  { eventBuffer := events.2
    listeners := d.listeners.mapIdx fun i l => l.deliver (listenerNow i) events.1 d.pushed
    pushed := []
    batches := if d.pushed = [] then d.batches else d.batches ++ [d.pushed] }

/-- `create_listener` (lines 39-46); the elements of the new buffer are left as they are. -/
def createListener (d : InputDevice) (data : ℕ → InputEvent) : InputDevice :=
  { d with listeners := d.listeners ++ [{ eventBuffer := { data }, joined := d.batches.length }] }

end InputDevice

/-- What can happen to a device. -/
inductive Op where
  | push (now : Timeval) (type code : U16) (value : U32)
  | flush (now : Timeval) (listenerNow : ℕ → Timeval)
  | create (data : ℕ → InputEvent)
  | read (listener count : ℕ)

namespace InputDevice

def apply (d : InputDevice) : Op → InputDevice
  | .push now type code value => d.pushEvent now type code value
  | .flush now listenerNow => d.flushEvents now listenerNow
  | .create data => d.createListener data
  | .read i count => { d with listeners := d.listeners.modify i fun l => (l.read count).2 }

/-- At most 127 events are pushed between two flushes. -/
def Allowed (d : InputDevice) : Op → Prop
  | .push .. => d.pushed.length < 127
  | _ => True

/-- A batch for which a listener has too little room has at most 127 events with the `SYN_REPORT`,
    and the listener is not being read in the middle of an item. -/
def Unbroken (d : InputDevice) : Op → Prop
  | .flush .. => d.pushed ≠ [] → ∀ l ∈ d.listeners, l.Overflows (d.pushed.length + 1) →
      d.pushed.length + 1 < capacity ∧ l.AtBoundary
  | _ => True

end InputDevice

/-- The states of a new device that are reached by steps that meet `P`. -/
inductive Reached (P : InputDevice → Op → Prop) : InputDevice → Prop
  | start (data : ℕ → InputEvent) : Reached P { eventBuffer := { data } }
  | step {d : InputDevice} {op : Op} (before : Reached P d) (meets : P d op) :
      Reached P (d.apply op)

/-! ## Streams of whole batches -/

/-- The items are the batches in order, where those that follow lost ones have a marker in front. -/
inductive Delivers : (batches items : List (List InputEvent)) → Prop
  | nil : Delivers [] []
  | batch {batches items : List (List InputEvent)} {b : List InputEvent}
      (h : Delivers batches items) : Delivers (batches ++ [b]) (items ++ [b])
  | gap {batches items lost : List (List InputEvent)} {b : List InputEvent} {now : Timeval}
      (h : Delivers batches items) (hlost : lost ≠ []) :
      Delivers (batches ++ lost ++ [b]) (items ++ [droppedEvent now :: b])

/-- Events in push order, at least one, and a `SYN_REPORT`. -/
def IsBatch (b : List InputEvent) : Prop :=
  ∃ events now, events ≠ [] ∧ b = events ++ [⟨now, EV_SYN, SYN_REPORT, 0#32⟩]

theorem IsBatch.ne_nil {b : List InputEvent} (h : IsBatch b) : b ≠ [] := by
  obtain ⟨events, now, -, rfl⟩ := h
  simp

/-- What has been read from the listener and what is left in it are whole batches and markers. -/
def InputListener.Whole (l : InputListener) (batches : List (List InputEvent)) : Prop :=
  ∃ items, Delivers (batches.drop l.joined) items ∧
    l.taken ++ l.eventBuffer.contents = items.flatten

/-- The items in front of a place carry batches in front of one, and of all only if all items are
    in front. -/
theorem Delivers.split {batches front behind : List (List InputEvent)}
    (h : Delivers batches (front ++ behind)) : ∃ early late, batches = early ++ late ∧
      Delivers early front ∧ (behind ≠ [] → late ≠ []) := by
  generalize hitems : front ++ behind = items at h
  induction h generalizing behind with
  | nil =>
    obtain ⟨rfl, rfl⟩ := List.append_eq_nil_iff.mp hitems
    exact ⟨[], [], rfl, .nil, fun hne => hne⟩
  | @batch batches items b h ih =>
    rcases List.eq_nil_or_concat behind with rfl | ⟨rest, last, rfl⟩
    · rw [List.append_nil] at hitems
      subst hitems
      exact ⟨_, [], (List.append_nil _).symm, .batch h, fun hne => absurd rfl hne⟩
    · rw [List.concat_eq_append, ← List.append_assoc] at hitems
      obtain ⟨early, late, rfl, hearly, -⟩ := ih (List.append_inj_left' hitems rfl)
      exact ⟨early, late ++ [b], List.append_assoc .., hearly, fun _ => by simp⟩
  | @gap batches items lost b now h hlost ih =>
    rcases List.eq_nil_or_concat behind with rfl | ⟨rest, last, rfl⟩
    · rw [List.append_nil] at hitems
      subst hitems
      exact ⟨_, [], (List.append_nil _).symm, .gap h hlost, fun hne => absurd rfl hne⟩
    · rw [List.concat_eq_append, ← List.append_assoc] at hitems
      obtain ⟨early, late, rfl, hearly, -⟩ := ih (List.append_inj_left' hitems rfl)
      refine ⟨early, late ++ lost ++ [b], by simp, hearly, fun _ => by simp⟩

theorem wholeItems_prefix (items : List (List InputEvent)) (n : ℕ) :
    wholeItems items n <+: items := by
  induction items generalizing n with
  | nil => exact List.prefix_refl _
  | cons item rest ih =>
    rw [wholeItems]
    split_ifs
    · exact List.prefix_cons_inj item |>.mpr (ih _)
    · exact List.nil_prefix

/-- Every item ends with the `SYN_REPORT` of a batch. -/
theorem Delivers.getLast_mem {batches items : List (List InputEvent)} (h : Delivers batches items)
    (hbatches : ∀ b ∈ batches, b ≠ []) (hitems : items ≠ []) :
    ∃ b ∈ batches, items.flatten.getLast? = b.getLast? := by
  cases h with
  | nil => exact absurd rfl hitems
  | @batch _ items b h =>
    refine ⟨b, by simp, ?_⟩
    rw [List.flatten_append, List.flatten_singleton, List.getLast?_append_of_ne_nil]
    exact hbatches b (by simp)
  | @gap _ items lost b now h hlost =>
    refine ⟨b, by simp, ?_⟩
    rw [List.flatten_append, List.flatten_singleton, List.append_cons,
      List.getLast?_append_of_ne_nil]
    exact hbatches b (by simp)

/-! ## What a listener gets -/

theorem capacity_pos : 0 < capacity := by decide

theorem capacity_lt : capacity < 2 ^ 64 := by decide

theorem capacity_dvd : capacity ∣ 2 ^ 64 := ⟨2 ^ 57, by decide⟩

/-- What is in the buffer gives way to the marker. -/
theorem overflow {b : RingBuffer InputEvent capacity} {q : List InputEvent} (h : Stores b q)
    (now : Timeval) :
    Stores ((b.truncate b.dataCount.toNat).2.write [droppedEvent now]).2 [droppedEvent now] :=
  (h.truncate_all capacity_lt).write_all capacity_lt capacity_dvd (Nat.succ_le_of_lt capacity_pos)

/-- The buffer holds what is left of the items, and these are whole batches and markers. -/
structure InputListener.Sound (l : InputListener) (batches : List (List InputEvent)) : Prop where
  joined : l.joined ≤ batches.length
  delivers : Delivers (batches.drop l.joined) l.items
  stores : ∃ q, Stores l.eventBuffer q ∧ l.taken ++ q = l.items.flatten

namespace InputListener.Sound

variable {l : InputListener} {batches : List (List InputEvent)}

theorem whole (h : l.Sound batches) : l.Whole batches := by
  obtain ⟨q, hq, hitems⟩ := h.stores
  refine ⟨l.items, h.delivers, ?_⟩
  rw [hq.contents capacity_lt, hitems]

theorem read (h : l.Sound batches) (count : ℕ) : (l.read count).2.Sound batches := by
  obtain ⟨q, hq, hitems⟩ := h.stores
  obtain ⟨hread, hnext⟩ := hq.read capacity_lt count
  unfold InputListener.read
  split_ifs
  · exact h
  · refine ⟨h.joined, h.delivers, q.drop count, hnext, ?_⟩
    dsimp only
    rw [hread, List.append_assoc, List.take_append_drop, hitems]

/-- Nothing is handed out between two batches. -/
theorem deliver_nil (h : l.Sound batches) (now : Timeval) :
    (l.deliver now [] []).Sound batches := by
  obtain ⟨q, hq, hitems⟩ := h.stores
  have hnot : ¬l.Overflows ([] : List InputEvent).length := Nat.not_lt_zero _
  unfold InputListener.deliver
  rw [if_neg hnot]
  refine ⟨h.joined, h.delivers, q, ?_, hitems⟩
  have hwrite := hq.write capacity_lt capacity_dvd []
  rwa [List.take_nil, List.append_nil] at hwrite

/-- A batch is handed out whole, with a marker in front where the buffer has overflowed. -/
theorem deliver (h : l.Sound batches) {b : List InputEvent} (now : Timeval) (hb : b ≠ [])
    (hunbroken : l.Overflows b.length → b.length < capacity ∧ l.AtBoundary) :
    (l.deliver now b b).Sound (batches ++ [b]) := by
  obtain ⟨q, hq, hitems⟩ := h.stores
  have hfree := hq.freeCount capacity_lt
  have hdrop : (batches ++ [b]).drop l.joined = batches.drop l.joined ++ [b] :=
    List.drop_append_of_le_length h.joined
  have hjoined : l.joined ≤ (batches ++ [b]).length := by
    rw [List.length_append]
    exact h.joined.trans (Nat.le_add_right _ _)
  unfold InputListener.deliver
  by_cases hover : l.Overflows b.length
  · obtain ⟨hshort, hboundary⟩ := hunbroken hover
    obtain ⟨rest, hrest⟩ := wholeItems_prefix l.items l.taken.length
    -- what is lost is what has not been read
    have hlost : rest.flatten = q := by
      have hflatten := hitems
      rw [← hrest, List.flatten_append, hboundary] at hflatten
      exact (List.append_cancel_left hflatten).symm
    have hne : rest ≠ [] := by
      rintro rfl
      rw [InputListener.Overflows, hfree, ← hlost, List.flatten_nil, List.length_nil] at hover
      omega
    have hdelivers := h.delivers
    rw [← hrest] at hdelivers
    obtain ⟨early, late, hbatches, hearly, hlate⟩ := hdelivers.split
    have hmarker := (overflow hq now).write capacity_lt capacity_dvd b
    rw [List.length_singleton, List.take_of_length_le (by omega)] at hmarker
    rw [if_pos hover]
    refine ⟨hjoined, ?_, _, hmarker, ?_⟩
    · rw [hdrop, hbatches]
      exact .gap hearly (hlate hne)
    · rw [List.flatten_append, hboundary, List.flatten_singleton]
      rfl
  · rw [if_neg hover, if_neg hb]
    refine ⟨hjoined, ?_, q ++ b, ?_, ?_⟩
    · rw [hdrop]
      exact .batch h.delivers
    · refine hq.write_all capacity_lt capacity_dvd ?_
      have hle := hq.length_le
      rw [InputListener.Overflows, hfree] at hover
      omega
    · rw [List.flatten_append, List.flatten_singleton, ← hitems, List.append_assoc]

end InputListener.Sound

/-! ## Runs -/

/-- The buffer of the device holds the events pushed since the last flush, and the listeners have
    got the batches. -/
structure InputDevice.Sound (d : InputDevice) : Prop where
  stores : Stores d.eventBuffer d.pushed
  room : d.pushed.length < capacity
  batches : ∀ b ∈ d.batches, IsBatch b
  listeners : ∀ l ∈ d.listeners, l.Sound d.batches

namespace InputDevice

variable {d : InputDevice}

theorem stores_pushEvent (h : Stores d.eventBuffer d.pushed) (hroom : d.pushed.length < capacity)
    (now : Timeval) (type code : U16) (value : U32) :
    Stores (d.pushEvent now type code value).eventBuffer (d.pushEvent now type code value).pushed :=
  h.writeTruncate_one capacity_lt capacity_dvd _ hroom

namespace Sound

/-- A flush hands the events out that have been pushed, and the `SYN_REPORT`, as one batch. -/
theorem flushEvents_eq (h : d.Sound) (now : Timeval) (listenerNow : ℕ → Timeval) :
    ∃ batch eventBuffer, Stores eventBuffer [] ∧
      (d.pushed = [] ∧ batch = [] ∨ d.pushed ≠ [] ∧ IsBatch batch ∧
        batch = d.pushed ++ [⟨now, EV_SYN, SYN_REPORT, 0#32⟩]) ∧
      d.flushEvents now listenerNow =
        { eventBuffer
          listeners := d.listeners.mapIdx fun i l => l.deliver (listenerNow i) batch batch
          batches := if batch = [] then d.batches else d.batches ++ [batch] } := by
  have hempty := h.stores.isEmpty_iff capacity_lt
  unfold InputDevice.flushEvents
  by_cases hnone : d.pushed = []
  · obtain ⟨hread, hnext⟩ := h.stores.read capacity_lt capacity
    rw [hnone] at hread hnext
    rw [if_pos (hempty.mpr hnone)]
    refine ⟨[], _, hnext, .inl ⟨hnone, rfl⟩, ?_⟩
    dsimp only
    rw [hread, hnone, List.take_nil, if_pos rfl]
  · have hstores := stores_pushEvent h.stores h.room now EV_SYN SYN_REPORT 0#32
    obtain ⟨hread, hnext⟩ := hstores.read capacity_lt capacity
    have hlength := hstores.length_le
    rw [List.take_of_length_le hlength] at hread
    rw [List.drop_eq_nil_of_le hlength] at hnext
    rw [if_neg fun hd => hnone (hempty.mp hd)]
    refine ⟨_, _, hnext, .inr ⟨hnone, ⟨d.pushed, now, hnone, rfl⟩, rfl⟩, ?_⟩
    dsimp only
    rw [hread]
    rfl

theorem flushEvents (h : d.Sound) (now : Timeval) (listenerNow : ℕ → Timeval)
    (hunbroken : d.Unbroken (.flush now listenerNow)) :
    (d.flushEvents now listenerNow).Sound := by
  obtain ⟨batch, eventBuffer, hstores, hbatch, heq⟩ := h.flushEvents_eq now listenerNow
  rw [heq]
  rcases hbatch with ⟨-, rfl⟩ | ⟨hne, hbatch, rfl⟩
  · refine ⟨hstores, capacity_pos, h.batches, fun l hl => ?_⟩
    obtain ⟨i, hi, rfl⟩ := List.mem_mapIdx.mp hl
    exact (h.listeners _ (List.getElem_mem hi)).deliver_nil _
  · have hcons : d.pushed ++ [⟨now, EV_SYN, SYN_REPORT, 0#32⟩] ≠ [] := by simp
    refine ⟨hstores, capacity_pos, ?_, fun l hl => ?_⟩
    · rw [if_neg hcons]
      intro b hb
      rcases List.mem_append.mp hb with hb | hb
      · exact h.batches b hb
      · rw [List.mem_singleton.mp hb]
        exact hbatch
    · obtain ⟨i, hi, rfl⟩ := List.mem_mapIdx.mp hl
      rw [if_neg hcons]
      refine (h.listeners _ (List.getElem_mem hi)).deliver _ hcons ?_
      rw [List.length_append, List.length_singleton]
      exact hunbroken hne _ (List.getElem_mem hi)

/-- A batch of 127 events and its `SYN_REPORT`, for which a listener has too little room, is cut:
    the stream ends with the last of the events. -/
theorem flushEvents_full (h : d.Sound) (hfull : d.pushed.length = 127) {e : InputEvent}
    (hlast : d.pushed.getLast? = some e) (htype : e.type ≠ EV_SYN) {l : InputListener}
    (hl : l ∈ d.listeners) (hunread : l.eventBuffer.isEmpty = false) (now : Timeval)
    (listenerNow : ℕ → Timeval) : ∃ l' ∈ (d.flushEvents now listenerNow).listeners,
      ¬l'.Whole (d.flushEvents now listenerNow).batches := by
  obtain ⟨batch, eventBuffer, -, hbatch, heq⟩ := h.flushEvents_eq now listenerNow
  rcases hbatch with ⟨hnone, -⟩ | ⟨-, hisBatch, rfl⟩
  · rw [hnone] at hfull
    cases hfull
  have hcons : d.pushed ++ [⟨now, EV_SYN, SYN_REPORT, 0#32⟩] ≠ [] := by simp
  obtain ⟨i, hi, rfl⟩ := List.getElem_of_mem hl
  obtain ⟨q, hq, -⟩ := (h.listeners _ hl).stores
  rw [heq, if_neg hcons]
  refine ⟨_, List.mem_mapIdx.mpr ⟨i, hi, rfl⟩, ?_⟩
  have hover : d.listeners[i].Overflows
      (d.pushed ++ [⟨now, EV_SYN, SYN_REPORT, 0#32⟩] : List InputEvent).length := by
    have hne : q ≠ [] := by
      rintro rfl
      rw [(hq.isEmpty_iff capacity_lt).mpr rfl] at hunread
      cases hunread
    have hpos := List.length_pos_iff.mpr hne
    rw [InputListener.Overflows, hq.freeCount capacity_lt, List.length_append, hfull, capacity,
      List.length_singleton]
    omega
  have hwrite := (overflow hq (listenerNow i)).write capacity_lt capacity_dvd
    (d.pushed ++ [⟨now, EV_SYN, SYN_REPORT, 0#32⟩])
  rw [List.length_singleton, List.take_append_of_le_length (by rw [hfull]; decide),
    List.take_of_length_le (by rw [hfull]; decide)] at hwrite
  rintro ⟨items, hdelivers, hitems⟩
  unfold InputListener.deliver at hdelivers hitems
  rw [if_pos hover] at hdelivers hitems
  dsimp only at hdelivers hitems
  rw [hwrite.contents capacity_lt] at hitems
  have hend : items.flatten.getLast? = some e := by
    rw [← hitems, List.getLast?_append_of_ne_nil _ (by simp), List.getLast?_append, hlast]
    rfl
  have hbatches : ∀ b ∈ List.drop d.listeners[i].joined
      (d.batches ++ [d.pushed ++ [⟨now, EV_SYN, SYN_REPORT, 0#32⟩]]), IsBatch b := by
    intro b hb
    rcases List.mem_append.mp (List.mem_of_mem_drop hb) with hb | hb
    · exact h.batches b hb
    · rw [List.mem_singleton.mp hb]
      exact hisBatch
  obtain ⟨b, hb, hreport⟩ := hdelivers.getLast_mem
    (fun b hb => (hbatches b hb).ne_nil) (by rintro rfl; cases hend)
  obtain ⟨events, now', -, rfl⟩ := hbatches b hb
  rw [hend, List.getLast?_concat, Option.some.injEq] at hreport
  exact htype (congrArg InputEvent.type hreport)

theorem apply (h : d.Sound) {op : Op} (hallowed : d.Allowed op) (hunbroken : d.Unbroken op) :
    (d.apply op).Sound := by
  cases op with
  | push now type code value =>
    refine ⟨stores_pushEvent h.stores h.room now type code value, ?_, h.batches, h.listeners⟩
    have hroom : d.pushed.length < 127 := hallowed
    change (d.pushed ++ [_]).length < capacity
    rw [List.length_append, List.length_singleton, capacity]
    omega
  | flush now listenerNow => exact h.flushEvents now listenerNow hunbroken
  | create data =>
    refine ⟨h.stores, h.room, h.batches, fun l hl => ?_⟩
    rcases List.mem_append.mp hl with hl | hl
    · exact h.listeners l hl
    · rw [List.mem_singleton.mp hl]
      refine ⟨le_rfl, ?_, [], RingBuffer.stores_empty data, rfl⟩
      change Delivers (d.batches.drop d.batches.length) []
      rw [List.drop_length]
      exact .nil
  | read i count =>
    refine ⟨h.stores, h.room, h.batches, fun l hl => ?_⟩
    obtain ⟨j, hj, rfl⟩ := List.getElem_of_mem hl
    change j < (d.listeners.modify i _).length at hj
    change InputListener.Sound (d.listeners.modify i _)[j] d.batches
    rw [List.getElem_modify]
    split_ifs
    · exact (h.listeners _ (List.getElem_mem _)).read count
    · exact h.listeners _ (List.getElem_mem _)

end Sound

end InputDevice

theorem Reached.sound {d : InputDevice}
    (h : Reached (fun d op => d.Allowed op ∧ d.Unbroken op) d) : d.Sound := by
  induction h with
  | start data =>
    exact ⟨RingBuffer.stores_empty data, capacity_pos, fun b hb => absurd hb List.not_mem_nil,
      fun l hl => absurd hl List.not_mem_nil⟩
  | step _ meets ih => exact ih.apply meets.1 meets.2

theorem Reached.mono {P Q : InputDevice → Op → Prop} {d : InputDevice} (h : Reached P d)
    (hPQ : ∀ d op, P d op → Q d op) : Reached Q d := by
  induction h with
  | start data => exact .start data
  | step _ meets ih => exact .step ih (hPQ _ _ meets)

/-- Every stream is one of whole batches, with one marker for each gap, as long as every batch that
    a listener has too little room for has at most 127 events with the `SYN_REPORT`, and comes when
    whole batches have been read from the listener. -/
theorem batches_whole {d : InputDevice} (h : Reached (fun d op => d.Allowed op ∧ d.Unbroken op) d) :
    (∀ b ∈ d.batches, IsBatch b) ∧ ∀ l ∈ d.listeners, l.Whole d.batches :=
  ⟨h.sound.batches, fun l hl => (h.sound.listeners l hl).whole⟩

instance (d : InputDevice) : ∀ op, Decidable (d.Allowed op)
  | .push .. => inferInstanceAs (Decidable (_ < _))
  | .flush .. => .isTrue trivial
  | .create .. => .isTrue trivial
  | .read .. => .isTrue trivial

instance (d : InputDevice) : ∀ op, Decidable (d.Unbroken op)
  | .push .. => .isTrue trivial
  | .flush .. => inferInstanceAs (Decidable (_ → ∀ _ ∈ _, _ → _ ∧ _))
  | .create .. => .isTrue trivial
  | .read .. => .isTrue trivial

/-- The press of a key. -/
def keyPress : InputEvent := ⟨⟨0, 0⟩, 1#16, 30#16, 1#32⟩

/-- A device with a listener. -/
def listened : InputDevice :=
  ({ eventBuffer := { data := fun _ => keyPress } } : InputDevice).apply (.create fun _ => keyPress)

/-- A batch of one event. -/
def onePress : InputDevice :=
  (listened.apply (.push ⟨0, 0⟩ 1#16 30#16 1#32)).apply (.flush ⟨0, 0⟩ fun _ => ⟨0, 0⟩)

theorem reached_onePress : Reached (fun d op => d.Allowed op ∧ d.Unbroken op) onePress :=
  .step (.step (.step (.start _) ⟨trivial, trivial⟩) (by decide)) (by decide)

theorem Reached.presses {d : InputDevice}
    (h : Reached (fun d op => d.Allowed op ∧ d.Unbroken op) d) {n : ℕ}
    (hn : d.pushed.length + n ≤ 127) :
    ∃ d', Reached (fun d op => d.Allowed op ∧ d.Unbroken op) d' ∧
      d'.pushed = d.pushed ++ List.replicate n keyPress ∧ d'.listeners = d.listeners := by
  induction n with
  | zero => exact ⟨d, h, (List.append_nil _).symm, rfl⟩
  | succ n ih =>
    obtain ⟨d1, h1, hpushed, hlisteners⟩ := ih (by omega)
    have hallowed : d1.Allowed (.push ⟨0, 0⟩ 1#16 30#16 1#32) := by
      change d1.pushed.length < 127
      rw [hpushed, List.length_append, List.length_replicate]
      omega
    refine ⟨_, .step h1 ⟨hallowed, trivial⟩, ?_, hlisteners⟩
    change d1.pushed ++ [keyPress] = _
    rw [hpushed, List.replicate_succ', List.append_assoc]

/-- The listener has too little room for the second batch, which has 127 events. -/
theorem batches_whole_overflow : ∃ d : InputDevice, (∃ l ∈ d.listeners, l.Overflows (d.pushed.length + 1)) ∧
    d.pushed = List.replicate 126 keyPress ∧
    ∀ l ∈ (d.apply (.flush ⟨0, 0⟩ fun _ => ⟨0, 0⟩)).listeners,
      l.Whole (d.apply (.flush ⟨0, 0⟩ fun _ => ⟨0, 0⟩)).batches := by
  obtain ⟨d, hd, hpushed, hlisteners⟩ := reached_onePress.presses (n := 126) (by decide)
  rw [show onePress.pushed = [] from rfl, List.nil_append] at hpushed
  have hlength : d.pushed.length + 1 = 127 := by
    rw [hpushed, List.length_replicate]
  have hboundary : ∀ l ∈ d.listeners, l.AtBoundary := by
    rw [hlisteners]
    decide
  refine ⟨d, ⟨onePress.listeners.get ⟨0, by decide⟩, ?_, ?_⟩, hpushed, (batches_whole
    (@Reached.step _ _ (.flush ⟨0, 0⟩ fun _ => ⟨0, 0⟩) hd ⟨trivial, fun _ l hl _ => ⟨?_, ?_⟩⟩)).2⟩
  · rw [hlisteners]
    exact List.get_mem _ _
  · rw [hlength]
    decide
  · rw [hlength]
    decide
  · exact hboundary l hl

/-- Batches of at most 127 events, the first of one, the second of 127. -/
theorem full_batch_cut : ¬∀ d, Reached InputDevice.Allowed d →
    ∀ l ∈ d.listeners, l.Whole d.batches := by
  intro hall
  obtain ⟨d, hd, hpushed, hlisteners⟩ := reached_onePress.presses (n := 127) (by decide)
  have hlistener : onePress.listeners.get ⟨0, by decide⟩ ∈ d.listeners := by
    rw [hlisteners]
    exact List.get_mem _ _
  obtain ⟨l, hl, hbroken⟩ := hd.sound.flushEvents_full (e := keyPress) (by rw [hpushed]; rfl)
    (by rw [hpushed]; rfl) (by decide) hlistener (by decide) ⟨0, 0⟩ fun _ => ⟨0, 0⟩
  exact hbroken (hall _ (@Reached.step _ _ (.flush ⟨0, 0⟩ fun _ => ⟨0, 0⟩)
    (hd.mono fun _ _ => And.left) trivial) l hl)

end Fishix.Dev.Input
