import Fishix.Sched.Wake

/-!
# Waiting for events

Model of `Event::wait` (sched/event.cpp:30-73), `Thread::clear_listeners` (sched/sched.cpp:167-177)
and what they use of `klib::Vector` (klib/vector.hpp:12-49).

A waiting thread puts one `Listener` per event into its `listeners` vector and links it into the
list of the event. The vector stores the listeners by value: when it grows, `realloc` copies them
into a new buffer, and the links of the copies are copied with them.

* `register_frame`, `clearListeners_frame`: waiting touches listeners, their links and the counts
  of the events only.
-/

namespace Fishix.Sched

/-- How `Event::wait` goes on. -/
inductive WaitResult
  /-- `-EINTR`. -/
  | interrupted
  /-- `-EWOULDBLOCK`. -/
  | wouldBlock
  /-- The index of the event. -/
  | event (which : ℕ)
  /-- The thread is off the run list and yields. -/
  | asleep
  deriving DecidableEq

/-- The loop of `Vector::increase_capacity` (klib/vector.hpp:14-15), in at most `turns` turns. -/
def increaseCapacity (need : ℕ) : ℕ → ℕ → ℕ
  | 0, capacity => capacity
  | turns + 1, capacity =>
    if capacity < need then increaseCapacity need turns (if capacity = 0 then 1 else capacity * 2)
    else capacity

namespace Kernel

/-- `realloc` of the buffer (mem/bump.cpp:34-48): the listeners and their links are copied to a new
    buffer, and nothing becomes of the old one. -/
def reallocListeners (k : Kernel) (v : ListenerVector) (capacity : ℕ) : Kernel :=
  { k with
    listener := fun p => if p.buffer = k.nextBuffer ∧ p.index < v.capacity then
      k.listener ⟨v.buffer, p.index⟩ else k.listener p
    listenerLinks := fun n => match n with
      | .head e => k.listenerLinks (.head e)
      | .link p => if p.buffer = k.nextBuffer ∧ p.index < v.capacity then
          k.listenerLinks (.link ⟨v.buffer, p.index⟩) else k.listenerLinks (.link p)
    nextBuffer := k.nextBuffer + 1
    slots := k.slots + capacity }

/-- The vector of `t` has room for one more listener (klib/vector.hpp:12-18, 47). -/
def growListeners (k : Kernel) (t : Tid) : Kernel :=
  let v := (k.thread t).listeners
  if v.capacity < v.size + 1 then
    let capacity := increaseCapacity (v.size + 1) (v.size + 2) v.capacity
    (k.reallocListeners v capacity).updateThread t fun x =>
      { x with listeners := ⟨k.nextBuffer, v.size, capacity⟩ }
  else k

/-- `Vector::emplace_back` (klib/vector.hpp:46-49): the place of the new listener, whose link is
    null. -/
def emplaceBack (k : Kernel) (t : Tid) (x : Listener) : ListenerRef × Kernel :=
  let k := k.growListeners t
  let v := (k.thread t).listeners
  let p : ListenerRef := ⟨v.buffer, v.size⟩
  let k := k.updateThread t fun y => { y with listeners := { v with size := v.size + 1 } }
  (p, { k with
    listener := Function.update k.listener p x
    listenerLinks := Function.update k.listenerLinks (.link p) {} })

/-- One turn of the registration loop (sched/event.cpp:54-59). -/
def addListener (k : Kernel) (t : Tid) (e : EventId) (which : ℕ) : Except Panic Kernel := do
  let (p, k) := k.emplaceBack t ⟨t, some e, which⟩
  let links ← orPanic .badPointer (k.listenerLinks.addBefore (.head e) (.link p))
  let k := { k with listenerLinks := links }
  return k.updateEvent e fun x => { x with numListeners := x.numListeners + 1 }

/-- The registration loop (sched/event.cpp:52-62), at the event number `i`. -/
def register (t : Tid) : Kernel → List (Option EventId) → ℕ → Except Panic Kernel
  | k, [], _ => .ok k
  | k, none :: es, i => register t k es (i + 1)
  | k, some e :: es, i => do
    let k ← k.addListener t e i
    register t k es (i + 1)

/-- The first pending event (sched/event.cpp:41-47). -/
def pendingEvent (k : Kernel) (events : List (Option EventId)) : Option ℕ :=
  events.findIdx? fun e => match e with
    | none => false
    | some e => decide (0 < (k.event e).pending)

/-- `Event::wait` up to its `yield` (sched/event.cpp:30-65). -/
def wait (k : Kernel) (t : Tid) (events : List (Option EventId)) (nonblocking : Bool) :
    Except Panic (WaitResult × Kernel) :=
  if k.hasPendingSignals t then .ok (.interrupted, k)
  else
    match k.pendingEvent events with
    | some i =>
      match events[i]? with
      | some (some e) =>
        .ok (.event i, k.updateEvent e fun x => { x with pending := x.pending - 1 })
      | _ => .ok (.event i, k)
    | none =>
      if nonblocking then .ok (.wouldBlock, k)
      else do
        assert ((k.thread t).listeners.size = 0)
        let k ← register t k events 0
        let k ← k.dequeueThread t none
        return (.asleep, k)

/-- One turn of `clear_listeners` (sched/sched.cpp:169-175). -/
def clearListener (k : Kernel) (p : ListenerRef) : Except Panic Kernel :=
  match (k.listener p).event with
  | none => .ok k
  | some e => do
    let links ← orPanic .badPointer (k.listenerLinks.remove (.link p))
    let k := { k with listenerLinks := links }
    let k := k.updateEvent e fun x => { x with numListeners := x.numListeners - 1 }
    return { k with listener := Function.update k.listener p { k.listener p with event := none } }

/-- `Thread::clear_listeners` (sched/sched.cpp:167-177). -/
def clearListeners (k : Kernel) (t : Tid) : Except Panic Kernel := do
  let v := (k.thread t).listeners
  let k ← (List.range v.size).foldlM (fun k i => k.clearListener ⟨v.buffer, i⟩) k
  return k.updateThread t fun x => { x with listeners := { x.listeners with size := 0 } }

/-- The rest of `Event::wait`, when the thread runs again (sched/event.cpp:66-72). -/
def waitEnd (k : Kernel) (t : Tid) : Except Panic (WaitResult × Kernel) := do
  let k ← k.clearListeners t
  return (if (k.thread t).enqueuedBySignal ≠ none then .interrupted
    else .event (k.thread t).whichEvent, k)

end Kernel

/-! ## What waiting leaves alone -/

/-- Only listeners, their links and the counts of events differ. -/
structure ListensOnly (k k' : Kernel) : Prop where
  thread : ∀ u, ∃ v, k'.thread u = { k.thread u with listeners := v }
  used : k'.used = k.used
  pending : ∀ e, (k'.event e).pending = (k.event e).pending
  schedLinks : k'.schedLinks = k.schedLinks
  idleThread : k'.idleThread = k.idleThread
  cpu : k'.cpu = k.cpu

namespace ListensOnly

variable {k k' k'' : Kernel} {t : Tid}

theorem refl (k : Kernel) : ListensOnly k k :=
  ⟨fun u => ⟨(k.thread u).listeners, rfl⟩, rfl, fun _ => rfl, rfl, rfl, rfl⟩

theorem trans (h : ListensOnly k k') (h' : ListensOnly k' k'') : ListensOnly k k'' where
  thread := by
    intro u
    obtain ⟨v, hv⟩ := h.thread u
    obtain ⟨v', hv'⟩ := h'.thread u
    exact ⟨v', by rw [hv', hv]⟩
  used := h'.used.trans h.used
  pending := fun e => (h'.pending e).trans (h.pending e)
  schedLinks := h'.schedLinks.trans h.schedLinks
  idleThread := h'.idleThread.trans h.idleThread
  cpu := h'.cpu.trans h.cpu

theorem state (h : ListensOnly k k') (u : Tid) : k'.state u = k.state u := by
  obtain ⟨v, hv⟩ := h.thread u
  rw [Kernel.state, hv, Kernel.state]

theorem updateThread (v : ListenerVector) :
    ListensOnly k (k.updateThread t fun x => { x with listeners := v }) := by
  refine { refl k with thread := ?_ }
  intro u
  by_cases hu : u = t
  · subst hu
    exact ⟨v, by simp⟩
  · exact ⟨(k.thread u).listeners, by simp [Kernel.updateThread, hu]⟩

theorem updateEvent (e : EventId) (n : ℤ) :
    ListensOnly k (k.updateEvent e fun x => { x with numListeners := n }) := by
  exact { refl k with pending := k.updateEvent_event e _ (g := Event.pending) fun _ => rfl }

end ListensOnly

section Frame

variable {k k' : Kernel} {t : Tid}

theorem growListeners_frame : ListensOnly k (k.growListeners t) := by
  unfold Kernel.growListeners
  simp only
  split_ifs
  · have hcopy : ListensOnly k (k.reallocListeners (k.thread t).listeners (increaseCapacity
        ((k.thread t).listeners.size + 1) ((k.thread t).listeners.size + 2)
          (k.thread t).listeners.capacity)) := { ListensOnly.refl k with }
    exact hcopy.trans (.updateThread _)
  · exact .refl k

theorem emplaceBack_frame {x : Listener} : ListensOnly k (k.emplaceBack t x).2 := by
  unfold Kernel.emplaceBack
  simp only
  obtain h := (growListeners_frame (k := k) (t := t)).trans (.updateThread (t := t)
    { ((k.growListeners t).thread t).listeners with
      size := ((k.growListeners t).thread t).listeners.size + 1 })
  exact { h with }

theorem addListener_frame {e : EventId} {i : ℕ} (h : k.addListener t e i = .ok k') :
    ListensOnly k k' := by
  unfold Kernel.addListener at h
  obtain ⟨l, -, rfl⟩ := bind_pure_ok h
  have hback : ListensOnly k (k.emplaceBack t ⟨t, some e, i⟩).2 := emplaceBack_frame
  have hlinks : ListensOnly (k.emplaceBack t ⟨t, some e, i⟩).2
      { (k.emplaceBack t ⟨t, some e, i⟩).2 with listenerLinks := l } :=
    { ListensOnly.refl _ with }
  exact (hback.trans hlinks).trans (.updateEvent e _)

theorem register_frame : ∀ {es : List (Option EventId)} {k : Kernel} {i : ℕ},
    Kernel.register t k es i = .ok k' → ListensOnly k k'
  | [], k, i, h => by
    obtain rfl := Except.ok.inj h
    exact .refl k
  | none :: es, k, i, h => register_frame (k := k) (i := i + 1) h
  | some e :: es, k, i, h => by
    obtain ⟨k1, h1, h⟩ := bind_ok h
    exact (addListener_frame h1).trans (register_frame h)

theorem clearListener_frame {p : ListenerRef} (h : k.clearListener p = .ok k') :
    ListensOnly k k' := by
  unfold Kernel.clearListener at h
  split at h
  · cases h
    exact .refl k
  · rename_i e he
    obtain ⟨l, -, rfl⟩ := bind_pure_ok h
    have hlinks : ListensOnly k { k with listenerLinks := l } := { ListensOnly.refl _ with }
    exact { hlinks.trans (.updateEvent e ((k.event e).numListeners - 1)) with }

theorem clearListeners_frame (h : k.clearListeners t = .ok k') : ListensOnly k k' := by
  unfold Kernel.clearListeners at h
  obtain ⟨k1, h1, rfl⟩ := bind_pure_ok h
  have hloop : ListensOnly k k1 := foldlM_ok_invariant (ListensOnly k) (.refl k)
    (fun _ _ _ _ hk hstep => hk.trans (clearListener_frame hstep)) h1
  exact hloop.trans (.updateThread { (k1.thread t).listeners with size := 0 })

/-- What `Event::wait` does up to its `yield`. -/
theorem wait_cases {events : List (Option EventId)} {nonblocking : Bool} {r : WaitResult}
    (h : k.wait t events nonblocking = .ok (r, k')) :
    r ≠ .asleep ∧ (k' = k ∨ ∃ e, k' = k.updateEvent e fun x => { x with pending := x.pending - 1 }) ∨
    r = .asleep ∧ k.hasPendingSignals t = false ∧ k.pendingEvent events = none ∧
      nonblocking = false ∧ (k.thread t).listeners.size = 0 ∧
      ∃ k1, Kernel.register t k events 0 = .ok k1 ∧ k1.dequeueThread t none = .ok k' := by
  unfold Kernel.wait at h
  by_cases hsignal : k.hasPendingSignals t
  · rw [if_pos hsignal] at h
    cases h
    exact .inl ⟨by simp, .inl rfl⟩
  rw [if_neg hsignal] at h
  split at h
  · split at h
    · rename_i e he
      cases h
      exact .inl ⟨by simp, .inr ⟨e, rfl⟩⟩
    · cases h
      exact .inl ⟨by simp, .inl rfl⟩
  · rename_i hpending
    split_ifs at h with hblock
    · cases h
      exact .inl ⟨by simp, .inl rfl⟩
    · obtain ⟨u, hassert, h⟩ := bind_ok h
      obtain ⟨k1, hreg, h⟩ := bind_ok h
      obtain ⟨k2, hdeq, h⟩ := bind_ok h
      cases h
      refine .inr ⟨rfl, by simpa using hsignal, hpending, by simpa using hblock, ?_, k1, hreg, hdeq⟩
      simpa using assert_ok_iff.mp hassert

theorem waitEnd_cases {r : WaitResult} (h : k.waitEnd t = .ok (r, k')) :
    k.clearListeners t = .ok k' ∧ r = if (k.thread t).enqueuedBySignal ≠ none then .interrupted
      else .event (k.thread t).whichEvent := by
  unfold Kernel.waitEnd at h
  obtain ⟨k1, h1, h⟩ := bind_ok h
  cases h
  refine ⟨h1, ?_⟩
  obtain ⟨v, hv⟩ := (clearListeners_frame h1).thread t
  rw [hv]

/-- Waiting leaves the processes alone. -/
theorem register_process : ∀ {es : List (Option EventId)} {k : Kernel} {i : ℕ},
    Kernel.register t k es i = .ok k' → k'.process = k.process
  | [], k, i, h => by
    cases h
    rfl
  | none :: es, k, i, h => register_process (k := k) (i := i + 1) h
  | some e :: es, k, i, h => by
    obtain ⟨k1, h1, h⟩ := bind_ok h
    rw [register_process h]
    obtain ⟨l, -, rfl⟩ := bind_pure_ok h1
    show (k.growListeners t).process = k.process
    unfold Kernel.growListeners
    simp only
    split_ifs <;> rfl

theorem clearListeners_process (h : k.clearListeners t = .ok k') : k'.process = k.process := by
  unfold Kernel.clearListeners at h
  obtain ⟨k1, h1, rfl⟩ := bind_pure_ok h
  show k1.process = k.process
  refine foldlM_ok_invariant (fun k1 => k1.process = k.process) rfl ?_ h1
  intro i k2 k3 _ hk hstep
  rw [← hk]
  unfold Kernel.clearListener at hstep
  split at hstep
  · cases hstep
    rfl
  · obtain ⟨l, -, rfl⟩ := bind_pure_ok hstep
    rfl

end Frame

end Fishix.Sched
