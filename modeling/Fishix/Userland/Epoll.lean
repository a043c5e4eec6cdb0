import Fishix.Common.HashTable
import Fishix.Common.Outcome

/-!
# `epoll`

Model of `userland/epoll.cpp` lines 35-46 and 75-197 and of `userland/epoll.hpp` lines 9-27. A
`FileDescription*` is its address; which descriptions exist, how often they are referred to and the
event of their node is the rest of the state. An instance keeps addresses and takes no reference:
nothing tells it when a description is deleted (fs/vfs.hpp:159-170).

* `Registry.ctl`: `epoll_ctl` keeps what the containers of an instance say of each other.
* `registry_wellFormed`: exactly when no registration refers to a deleted description.
* `closed_while_registered`: a description that is closed is still registered.
-/

namespace Fishix.Userland

/-- `FileDescription*`. -/
abbrev DescriptionPtr := U64

/-- `sched::Event*`: of a node, or of the timer of a call. -/
inductive EventPtr
  | node (event : ℕ)
  | timer (call : ℕ)
  deriving DecidableEq

/-- `epoll_event`. -/
structure EpollEvent where
  events : BitVec 32 := 0#32
  data : U64 := 0#64
  deriving DecidableEq

/-- `EPoll::RegisteredEvent` (userland/epoll.hpp:10-14). -/
structure RegisteredEvent where
  description : Option DescriptionPtr := none
  oldRevents : BitVec 32 := 0#32
  userEvents : EpollEvent := {}
  deriving DecidableEq

/-- `EPoll` (userland/epoll.hpp:9-27). -/
structure EPoll where
  keyToEventsIndex : HashTable U64 ℕ := .create 16
  events : List RegisteredEvent := []
  /-- The first is for the timeout. -/
  waitEvents : List (Option EventPtr) := [none]
  firstFreeEvent : ℕ := 0

/-- `klib::hash` of a number (klib/common.hpp:164-171). -/
@[irreducible] def hash64 (h : U64) : U64 :=
  let h := h ^^^ (h >>> 33)
  let h := h * 0xff51afd7ed558ccd#64
  let h := h ^^^ (h >>> 33)
  let h := h * 0xc4ceb9fe1a85ec53#64
  h ^^^ (h >>> 33)

/-- `klib::hash_combine` (klib/common.hpp:173-175). -/
def hashCombine (oldHash newHash : U64) : U64 :=
  oldHash ^^^ (newHash + 0x9e3779b97f4a7c15#64 + (oldHash <<< 6) + (oldHash >>> 2))

/-- `calculate_key` (userland/epoll.cpp:75-77). -/
def calculateKey (fd : ℕ) (description : DescriptionPtr) : U64 :=
  hashCombine (hash64 (BitVec.ofNat 64 fd)) (hash64 description)

/-- The operations of `epoll_ctl`. -/
inductive CtlOp
  | add | mod | del
  | other
  deriving DecidableEq

/-- The errors of `epoll_ctl`. -/
inductive CtlErrno
  | eexist | enoent | einval
  deriving DecidableEq

def EPOLLET : BitVec 32 := 1#32 <<< 31

namespace EPoll

/-- `key_to_events_index[key]`. -/
def index (ep : EPoll) (key : U64) : Option ℕ := ep.keyToEventsIndex.find hash64 key

/-- `allocate_events_index` (userland/epoll.cpp:35-46). -/
def allocateEventsIndex (ep : EPoll) : ℕ × EPoll :=
  match (ep.events.drop ep.firstFreeEvent).findIdx? (·.description = none) with
  | some i => (ep.firstFreeEvent + i, { ep with firstFreeEvent := ep.firstFreeEvent + i + 1 })
  | none => (ep.events.length,
      { ep with
        firstFreeEvent := ep.events.length
        events := ep.events ++ [{}]
        waitEvents := ep.waitEvents ++ [none] })

/-- `EPOLL_CTL_ADD` of a key at a place (userland/epoll.cpp:103-110). -/
def register (ep : EPoll) (event : DescriptionPtr → Option EventPtr) (key : U64) (index : ℕ)
    (target : DescriptionPtr) (userEvent : EpollEvent) : EPoll :=
  { ep with
    events := ep.events.set index { description := some target, userEvents := userEvent }
    waitEvents := ep.waitEvents.set (index + 1) (event target)
    keyToEventsIndex := ep.keyToEventsIndex.emplace hash64 key index }

/-- `EPOLL_CTL_MOD` of a place (userland/epoll.cpp:111-115). -/
def change (ep : EPoll) (index : ℕ) (userEvent : EpollEvent) : EPoll :=
  { ep with events := ep.events.modify index fun r => { r with userEvents := userEvent } }

/-- `EPOLL_CTL_DEL` of a key at a place (userland/epoll.cpp:116-128). -/
def unregister (ep : EPoll) (key : U64) (index : ℕ) : EPoll :=
  { ep with
    events := ep.events.set index {}
    waitEvents := ep.waitEvents.set (index + 1) none
    keyToEventsIndex := ep.keyToEventsIndex.remove hash64 key
    firstFreeEvent := min ep.firstFreeEvent index }

/-- `syscall_epoll_ctl` on the instance and the target (userland/epoll.cpp:97-131). -/
def ctl (ep : EPoll) (event : DescriptionPtr → Option EventPtr) (op : CtlOp) (fd : ℕ)
    (target : DescriptionPtr) (userEvent : EpollEvent) : Except CtlErrno EPoll :=
  let key := calculateKey fd target
  match op, ep.index key with
  | .add, some _ => .error .eexist
  | .add, none =>
    let (index, ep) := ep.allocateEventsIndex
    .ok (ep.register event key index target userEvent)
  | .mod, none => .error .enoent
  | .mod, some index => .ok (ep.change index userEvent)
  | .del, none => .error .enoent
  | .del, some index => .ok (ep.unregister key index)
  | .other, _ => .error .einval

/-- The timeout of a call (userland/epoll.cpp:150-159): `timer` is its own event, if it has a
    timeout that is not zero. -/
def setTimeout (ep : EPoll) (timer : Option EventPtr) : EPoll :=
  { ep with waitEvents := ep.waitEvents.set 0 timer }

/-- An event that a scan reports, with its place among the registrations. -/
structure Report where
  index : ℕ
  revents : U64
  data : U64
  deriving DecidableEq

/-- The reported bits of a registration (userland/epoll.cpp:168-172). -/
def reventsOf (r : RegisteredEvent) (newRevents : U64) : U64 :=
  if r.userEvents.events &&& EPOLLET ≠ 0#32 then newRevents &&& (~~~r.oldRevents).setWidth 64
  else newRevents

/-- The loop over the registrations from the number `i` on (userland/epoll.cpp:164-184), when
    `numReady` are reported: the registrations after it and the reports. -/
def scanFrom (poll : DescriptionPtr → BitVec 32 → U64) (maxevents : ℕ) :
    ℕ → ℕ → List RegisteredEvent → List RegisteredEvent × List Report
  | _, _, [] => ([], [])
  | i, numReady, r :: rest =>
    match r.description with
    | none =>
      let (rest, reports) := scanFrom poll maxevents (i + 1) numReady rest
      (r :: rest, reports)
    | some d =>
      let newRevents := poll d r.userEvents.events
      let revents := reventsOf r newRevents
      let r' := { r with oldRevents := newRevents.setWidth 32 }
      if revents ≠ 0#64 then
        let report : Report := ⟨i, revents, r.userEvents.data⟩
        if maxevents ≤ numReady + 1 then (r' :: rest, [report])
        else
          let (rest, reports) := scanFrom poll maxevents (i + 1) (numReady + 1) rest
          (r' :: rest, report :: reports)
      else
        let (rest, reports) := scanFrom poll maxevents (i + 1) numReady rest
        (r' :: rest, reports)

/-- One scan of `epoll_pwait2_impl` (userland/epoll.cpp:162-184). -/
def scan (ep : EPoll) (poll : DescriptionPtr → BitVec 32 → U64) (maxevents : ℕ) :
    EPoll × List Report :=
  let (events, reports) := scanFrom poll maxevents 0 0 ep.events
  ({ ep with events }, reports)

/-! ## Slots -/

/-- The description registered at a place. -/
def slot (ep : EPoll) (i : ℕ) : Option DescriptionPtr := ep.events[i]?.bind (·.description)

variable {ep : EPoll} {i j : ℕ}

theorem lt_of_slot {d : DescriptionPtr} (h : ep.slot i = some d) : i < ep.events.length := by
  unfold slot at h
  obtain ⟨r, hr, -⟩ := Option.bind_eq_some_iff.mp h
  exact (List.getElem?_eq_some_iff.mp hr).1

/-- A registration is written. -/
theorem slot_set {ep' : EPoll} {r : RegisteredEvent} (hevents : ep'.events = ep.events.set i r)
    (h : i < ep.events.length) (j : ℕ) :
    ep'.slot j = if j = i then r.description else ep.slot j := by
  unfold slot
  rw [hevents, List.getElem?_set]
  by_cases hj : j = i
  · subst hj
    simp [h]
  · rw [if_neg (Ne.symm hj), if_neg hj]

/-- A registration keeps its description. -/
theorem slot_modify {ep' : EPoll} {f : RegisteredEvent → RegisteredEvent}
    (hevents : ep'.events = ep.events.modify i f) (hf : ∀ r, (f r).description = r.description)
    (j : ℕ) : ep'.slot j = ep.slot j := by
  unfold slot
  rw [hevents, List.getElem?_modify]
  cases ep.events[j]? with
  | none => rfl
  | some r =>
    by_cases hj : i = j
    · simp [hj, hf]
    · simp [hj]

theorem change_slot {userEvent : EpollEvent} : (ep.change i userEvent).slot j = ep.slot j := by
  apply slot_modify rfl
  intro r
  rfl

/-- A description is registered nowhere. -/
theorem slot_ne_iff {d : DescriptionPtr} :
    (∀ i, ep.slot i ≠ some d) ↔ ∀ r ∈ ep.events, r.description ≠ some d := by
  constructor
  · intro h r hr hd
    obtain ⟨i, hi⟩ := List.mem_iff_getElem?.mp hr
    apply h i
    unfold slot
    rw [hi]
    exact hd
  · intro h i hi
    unfold slot at hi
    obtain ⟨r, hr, hd⟩ := Option.bind_eq_some_iff.mp hi
    exact h r (List.mem_of_getElem? hr) hd

theorem allocateEventsIndex_spec {ep' : EPoll} (h : ep.allocateEventsIndex = (i, ep'))
    (hlength : ep.waitEvents.length = ep.events.length + 1)
    (hfree : ∀ j < ep.firstFreeEvent, (ep.slot j).isSome) :
    i < ep'.events.length ∧ ep.events.length ≤ ep'.events.length ∧ ep.slot i = none ∧
      ep'.waitEvents.length = ep'.events.length + 1 ∧
      ep'.keyToEventsIndex = ep.keyToEventsIndex ∧ (∀ j, ep'.slot j = ep.slot j) ∧
      (∀ j < ep.events.length + 1, ep'.waitEvents[j]? = ep.waitEvents[j]?) ∧
      (∀ j, ep.events.length ≤ j → j < ep'.events.length → j = i) ∧
      ∀ j < ep'.firstFreeEvent, j ≠ i → (ep.slot j).isSome := by
  unfold allocateEventsIndex at h
  -- the places that the loop has passed are occupied
  have hoccupied : ∀ n, (∀ m < n, ∀ r ∈ (ep.events.drop ep.firstFreeEvent)[m]?,
      r.description ≠ none) → n ≤ (ep.events.drop ep.firstFreeEvent).length →
      ∀ j < ep.firstFreeEvent + n, (ep.slot j).isSome := by
    intro n hn hle j hj
    by_cases hbelow : j < ep.firstFreeEvent
    · exact hfree j hbelow
    · have hdrop := hn (j - ep.firstFreeEvent) (by omega)
      rw [List.getElem?_drop, Nat.add_sub_cancel' (Nat.le_of_not_lt hbelow)] at hdrop
      rw [List.length_drop] at hle
      obtain ⟨r, hr⟩ : ∃ r, ep.events[j]? = some r := ⟨_, List.getElem?_eq_getElem (by omega)⟩
      rw [Option.isSome_iff_ne_none]
      unfold slot
      rw [hr]
      exact hdrop r hr
  cases hfind : (ep.events.drop ep.firstFreeEvent).findIdx? (·.description = none) with
  | some n =>
    rw [hfind] at h
    cases h
    obtain ⟨hn, hfound, hbefore⟩ := List.findIdx?_eq_some_iff_getElem.mp hfind
    have hlt : ep.firstFreeEvent + n < ep.events.length := by
      rw [List.length_drop] at hn
      omega
    refine ⟨hlt, Nat.le_refl _, ?_, hlength, rfl, fun _ => rfl, fun _ _ => rfl,
      fun j h1 h2 => absurd h2 (Nat.not_lt.mpr h1), ?_⟩
    · unfold slot
      rw [List.getElem?_eq_getElem hlt]
      rw [List.getElem_drop] at hfound
      simpa using hfound
    · intro j hj hne
      refine hoccupied n ?_ (Nat.le_of_lt hn) j ?_
      · intro m hm r hr
        have hpassed := hbefore m hm
        rw [List.getElem?_eq_getElem (Nat.lt_trans hm hn)] at hr
        rw [Option.some.inj hr] at hpassed
        simpa using hpassed
      · have hj : j < ep.firstFreeEvent + n + 1 := hj
        omega
  | none =>
    rw [hfind] at h
    cases h
    rw [List.findIdx?_eq_none_iff] at hfind
    have hslot : ep.slot ep.events.length = none := by
      unfold slot
      rw [List.getElem?_eq_none (Nat.le_refl _)]
      rfl
    refine ⟨?_, ?_, hslot, ?_, rfl, ?_, ?_, ?_, ?_⟩
    · simp
    · simp
    · simp [hlength]
    · intro j
      unfold slot
      rw [List.getElem?_append]
      by_cases hj : j < ep.events.length
      · rw [if_pos hj]
      · rw [if_neg hj, List.getElem?_eq_none (Nat.le_of_not_lt hj)]
        cases j - ep.events.length <;> rfl
    · intro j hj
      rw [List.getElem?_append_left (by omega)]
    · intro j h1 h2
      simp only [List.length_append, List.length_cons, List.length_nil] at h2
      omega
    · intro j hj _
      have hlt : j < ep.events.length := hj
      refine hoccupied (ep.events.drop ep.firstFreeEvent).length ?_ (Nat.le_refl _) j ?_
      · intro m _ r hr
        simpa using hfind r (List.mem_of_getElem? hr)
      · rw [List.length_drop]
        omega

section

variable {event : DescriptionPtr → Option EventPtr} {key : U64} {target : DescriptionPtr}
  {userEvent : EpollEvent}

theorem register_events :
    (ep.register event key i target userEvent).events =
      ep.events.set i { description := some target, userEvents := userEvent } := rfl

theorem register_table :
    (ep.register event key i target userEvent).keyToEventsIndex =
      ep.keyToEventsIndex.emplace hash64 key i := rfl

theorem register_firstFreeEvent :
    (ep.register event key i target userEvent).firstFreeEvent = ep.firstFreeEvent := by
  unfold register
  rfl

end

theorem unregister_events {key : U64} : (ep.unregister key i).events = ep.events.set i {} := rfl

theorem unregister_table {key : U64} :
    (ep.unregister key i).keyToEventsIndex = ep.keyToEventsIndex.remove hash64 key := rfl

theorem unregister_firstFreeEvent {key : U64} :
    (ep.unregister key i).firstFreeEvent = min ep.firstFreeEvent i := by
  unfold unregister
  rfl

theorem scanFrom_descriptions {poll : DescriptionPtr → BitVec 32 → U64} {maxevents : ℕ}
    {l : List RegisteredEvent} : ∀ {i numReady : ℕ},
      (scanFrom poll maxevents i numReady l).1.map (·.description) = l.map (·.description) := by
  induction l with
  | nil =>
    intro i numReady
    rfl
  | cons r rest ih =>
    intro i numReady
    unfold scanFrom
    cases hd : r.description with
    | none => simp [hd, ih]
    | some d =>
      simp only
      split_ifs
      · simp [hd]
      · simp [hd, ih]
      · simp [hd, ih]

@[simp] theorem scan_slot {poll : DescriptionPtr → BitVec 32 → U64} {maxevents : ℕ} :
    (ep.scan poll maxevents).1.slot i = ep.slot i := by
  have h : ∀ l : List RegisteredEvent, l[i]?.bind (·.description) = (l.map (·.description))[i]?.join := by
    intro l
    rw [List.getElem?_map]
    cases l[i]? <;> rfl
  unfold slot
  rw [h, h]
  show ((scanFrom poll maxevents 0 0 ep.events).1.map _)[i]?.join = _
  rw [scanFrom_descriptions]

theorem scan_length {poll : DescriptionPtr → BitVec 32 → U64} {maxevents : ℕ} :
    (ep.scan poll maxevents).1.events.length = ep.events.length := by
  have h := congrArg List.length
    (@scanFrom_descriptions poll maxevents ep.events 0 0)
  rw [List.length_map, List.length_map] at h
  exact h

/-! ## The registry -/

/-- The containers of an instance describe one set of registrations. -/
structure Registry (ep : EPoll) (event : DescriptionPtr → Option EventPtr) : Prop where
  valid : ep.keyToEventsIndex.Valid
  /-- `wait_events` has one element more than `events`, -/
  length : ep.waitEvents.length = ep.events.length + 1
  /-- which are the events of the descriptions, null if the place is free. -/
  waits : ∀ i < ep.events.length, ep.waitEvents[i + 1]? = some ((ep.slot i).bind event)
  /-- Every key is the one of an occupied place, -/
  keyed : ∀ key i, ep.index key = some i → ∃ fd d, ep.slot i = some d ∧ key = calculateKey fd d
  /-- different keys of different places, -/
  distinct : ∀ key key' i, ep.index key = some i → ep.index key' = some i → key = key'
  /-- and every occupied place has one. -/
  found : ∀ i d, ep.slot i = some d → ∃ key, ep.index key = some i
  /-- All places below `first_free_event` are occupied. -/
  free : ∀ i < ep.firstFreeEvent, (ep.slot i).isSome

variable {event event' : DescriptionPtr → Option EventPtr}

theorem registry_empty : ({} : EPoll).Registry event where
  valid := HashTable.valid_create (by omega)
  length := rfl
  waits := by
    intro i hi
    simp at hi
  keyed := by
    intro key i h
    simp [index] at h
  distinct := by
    intro key key' i h
    simp [index] at h
  found := by
    intro i d h
    simp [slot] at h
  free := by
    intro i hi
    simp at hi

section

variable (h : ep.Registry event)

include h

/-- Only the events of registered descriptions matter. -/
theorem Registry.events (hevent : ∀ i d, ep.slot i = some d → event' d = event d) :
    ep.Registry event' := by
  refine ⟨h.valid, h.length, ?_, h.keyed, h.distinct, h.found, h.free⟩
  intro i hi
  rw [h.waits i hi]
  cases hslot : ep.slot i with
  | none => rfl
  | some d => simp [hevent i d hslot]

theorem Registry.setTimeout (timer : Option EventPtr) : (ep.setTimeout timer).Registry event := by
  refine ⟨h.valid, ?_, ?_, h.keyed, h.distinct, h.found, h.free⟩
  · show (ep.waitEvents.set 0 timer).length = _
    rw [List.length_set]
    exact h.length
  · intro i hi
    show (ep.waitEvents.set 0 timer)[i + 1]? = _
    rw [List.getElem?_set_ne (by omega)]
    exact h.waits i hi

theorem Registry.scan (poll : DescriptionPtr → BitVec 32 → U64) (maxevents : ℕ) :
    (ep.scan poll maxevents).1.Registry event := by
  refine ⟨h.valid, ?_, ?_, ?_, h.distinct, ?_, ?_⟩
  · rw [scan_length]
    exact h.length
  · intro i hi
    rw [scan_length] at hi
    rw [scan_slot]
    exact h.waits i hi
  · intro key i hkey
    rw [scan_slot]
    exact h.keyed key i hkey
  · intro i d hd
    rw [scan_slot] at hd
    exact h.found i d hd
  · intro i hi
    rw [scan_slot]
    exact h.free i hi

theorem Registry.add {fd : ℕ} {target : DescriptionPtr} {userEvent : EpollEvent}
    (hnew : ep.index (calculateKey fd target) = none) {ep1 : EPoll}
    (halloc : ep.allocateEventsIndex = (i, ep1)) :
    (ep1.register event (calculateKey fd target) i target userEvent).Registry event := by
  obtain ⟨hi, hle, hvacant, hlength, htable, hslot, hwait, hnewest, hfree⟩ :=
    allocateEventsIndex_spec halloc h.length h.free
  have hslots : ∀ j, (ep1.register event (calculateKey fd target) i target userEvent).slot j =
      if j = i then some target else ep.slot j := by
    intro j
    rw [slot_set register_events hi j, hslot]
  have hindex : ∀ key, (ep1.register event (calculateKey fd target) i target userEvent).index key =
      if key = calculateKey fd target then some i else ep.index key := by
    intro key
    unfold index
    rw [register_table, htable, HashTable.find_emplace h.valid.pos]
  -- no key had the place before
  have hunused : ∀ key, ep.index key ≠ some i := by
    intro key hkey
    obtain ⟨fd', d, hd, -⟩ := h.keyed key i hkey
    rw [hvacant] at hd
    cases hd
  refine ⟨?_, ?_, ?_, ?_, ?_, ?_, ?_⟩
  · rw [register_table, htable]
    exact h.valid.emplace hnew
  · unfold register
    simp [hlength]
  · intro j hj
    have hj : j < ep1.events.length := by simpa [register] using hj
    rw [hslots]
    unfold register
    by_cases hji : j = i
    · subst hji
      rw [List.getElem?_set_self (by omega)]
      simp
    · rw [List.getElem?_set_ne (by omega), if_neg hji]
      have hj' : j < ep.events.length := by
        by_contra hout
        exact hji (hnewest j (Nat.le_of_not_lt hout) hj)
      rw [hwait (j + 1) (by omega)]
      exact h.waits j hj'
  · intro key j hkey
    rw [hindex] at hkey
    rw [hslots]
    by_cases hk : key = calculateKey fd target
    · rw [if_pos hk] at hkey
      cases hkey
      exact ⟨fd, target, by rw [if_pos rfl], hk⟩
    · rw [if_neg hk] at hkey
      have hji : j ≠ i := fun hji => hunused key (hji ▸ hkey)
      rw [if_neg hji]
      exact h.keyed key j hkey
  · intro key key' j hkey hkey'
    rw [hindex] at hkey hkey'
    split_ifs at hkey hkey' with hk hk' hk'
    · rw [hk, hk']
    · exact absurd (hkey ▸ hkey') (hunused key')
    · exact absurd (hkey' ▸ hkey) (hunused key)
    · exact h.distinct key key' j hkey hkey'
  · intro j d hd
    rw [hslots] at hd
    by_cases hji : j = i
    · exact ⟨calculateKey fd target, by rw [hindex, if_pos rfl, hji]⟩
    · rw [if_neg hji] at hd
      obtain ⟨key, hkey⟩ := h.found j d hd
      refine ⟨key, ?_⟩
      rw [hindex, if_neg]
      · exact hkey
      · intro hk
        rw [hk, hnew] at hkey
        cases hkey
  · intro j hj
    rw [register_firstFreeEvent] at hj
    rw [hslots]
    by_cases hji : j = i
    · simp [hji]
    · rw [if_neg hji]
      exact hfree j hj hji

theorem Registry.del {key : U64} (hkey : ep.index key = some i) :
    (ep.unregister key i).Registry event := by
  obtain ⟨fd, d, hd, -⟩ := h.keyed key i hkey
  have hi := lt_of_slot hd
  have hslots : ∀ j, (ep.unregister key i).slot j = if j = i then none else ep.slot j :=
    slot_set unregister_events hi
  have hindex : ∀ key', (ep.unregister key i).index key' =
      if key' = key then none else ep.index key' := by
    intro key'
    unfold index
    rw [unregister_table, HashTable.find_remove h.valid]
  refine ⟨?_, ?_, ?_, ?_, ?_, ?_, ?_⟩
  · rw [unregister_table]
    exact h.valid.remove
  · unfold unregister
    simp [h.length]
  · intro j hj
    have hj : j < ep.events.length := by simpa [unregister] using hj
    rw [hslots]
    unfold unregister
    by_cases hji : j = i
    · subst hji
      rw [List.getElem?_set_self (by rw [h.length]; omega)]
      simp
    · rw [List.getElem?_set_ne (by omega), if_neg hji]
      exact h.waits j hj
  · intro key' j hkey'
    rw [hindex] at hkey'
    split_ifs at hkey' with hk
    have hji : j ≠ i := fun hji => hk (h.distinct key' key i (hji ▸ hkey') hkey)
    rw [hslots, if_neg hji]
    exact h.keyed key' j hkey'
  · intro key1 key2 j h1 h2
    rw [hindex] at h1 h2
    split_ifs at h1 h2
    exact h.distinct key1 key2 j h1 h2
  · intro j d' hd'
    rw [hslots] at hd'
    split_ifs at hd' with hji
    obtain ⟨key', hkey'⟩ := h.found j d' hd'
    refine ⟨key', ?_⟩
    rw [hindex, if_neg]
    · exact hkey'
    · intro hk
      rw [hk, hkey] at hkey'
      exact hji (Option.some.inj hkey').symm
  · intro j hj
    rw [unregister_firstFreeEvent] at hj
    rw [hslots, if_neg (by omega)]
    exact h.free j (by omega)

theorem ctl_slot {op : CtlOp} {fd : ℕ} {target : DescriptionPtr} {userEvent : EpollEvent}
    {ep' : EPoll} (hctl : ep.ctl event op fd target userEvent = .ok ep') {d : DescriptionPtr}
    (hd : ep'.slot i = some d) : ep.slot i = some d ∨ d = target := by
  unfold EPoll.ctl at hctl
  cases hkey : ep.index (calculateKey fd target) with
  | none =>
    cases op with
    | add =>
      simp only [hkey] at hctl
      cases hctl
      obtain ⟨hi, -, -, -, -, hslot, -⟩ := allocateEventsIndex_spec
        (show ep.allocateEventsIndex = (ep.allocateEventsIndex.1, ep.allocateEventsIndex.2) from rfl)
        h.length h.free
      rw [slot_set register_events hi, hslot] at hd
      split_ifs at hd with hnew
      · exact .inr (Option.some.inj hd).symm
      · exact .inl hd
    | mod => simp [hkey] at hctl
    | del => simp [hkey] at hctl
    | other => simp at hctl
  | some index =>
    cases op with
    | add => simp [hkey] at hctl
    | mod =>
      simp only [hkey] at hctl
      cases hctl
      rw [change_slot] at hd
      exact .inl hd
    | del =>
      simp only [hkey] at hctl
      cases hctl
      obtain ⟨-, d', hd', -⟩ := h.keyed _ index hkey
      rw [slot_set unregister_events (lt_of_slot hd')] at hd
      split_ifs at hd with hold
      exact .inl hd
    | other => simp at hctl

theorem Registry.ctl {op : CtlOp} {fd : ℕ} {target : DescriptionPtr} {userEvent : EpollEvent}
    {ep' : EPoll} (hctl : ep.ctl event op fd target userEvent = .ok ep') : ep'.Registry event := by
  unfold EPoll.ctl at hctl
  cases hkey : ep.index (calculateKey fd target) with
  | none =>
    cases op with
    | add =>
      simp only [hkey] at hctl
      cases hctl
      exact h.add hkey rfl
    | mod => simp [hkey] at hctl
    | del => simp [hkey] at hctl
    | other => simp at hctl
  | some i =>
    cases op with
    | add => simp [hkey] at hctl
    | mod =>
      simp only [hkey] at hctl
      cases hctl
      have hlength : (ep.change i userEvent).events.length = ep.events.length := by
        unfold change
        simp
      refine ⟨h.valid, by rw [hlength]; exact h.length, ?_, ?_, h.distinct, ?_, ?_⟩
      · intro j hj
        rw [hlength] at hj
        rw [change_slot]
        exact h.waits j hj
      · intro key j hj
        rw [change_slot]
        exact h.keyed key j hj
      · intro j d hd
        rw [change_slot] at hd
        exact h.found j d hd
      · intro j hj
        rw [change_slot]
        exact h.free j hj
    | del =>
      simp only [hkey] at hctl
      cases hctl
      exact h.del hkey
    | other => simp at hctl

end

end EPoll

/-! ## File descriptions -/

/-- An instance and the file descriptions of all processes. -/
structure EpollWorld where
  epoll : EPoll := {}
  /-- `ref_count`; 0 where no description is. -/
  refs : DescriptionPtr → ℕ := fun _ => 0
  /-- `vnode->event`. -/
  event : DescriptionPtr → Option EventPtr := fun _ => none

/-- What happens to an instance and to file descriptions. -/
inductive EpollOp
  /-- A file description is made at an address. -/
  | create (d : DescriptionPtr) (event : Option ℕ)
  /-- `dup` or `fork`. -/
  | duplicate (d : DescriptionPtr)
  /-- A file descriptor of any process is closed. -/
  | close (d : DescriptionPtr)
  | ctl (op : CtlOp) (fd : ℕ) (target : DescriptionPtr) (userEvent : EpollEvent)
  /-- A call of `epoll_wait` begins. -/
  | begin (timer : Option ℕ)
  /-- A call of `epoll_wait` scans; `poll` is what the nodes answer. -/
  | scan (poll : DescriptionPtr → BitVec 32 → U64) (maxevents : ℕ)

namespace EpollWorld

def step (s : EpollWorld) : EpollOp → Except Unit EpollWorld
  | .create d event =>
    if s.refs d = 0 then
      .ok { s with
        refs := Function.update s.refs d 1
        event := Function.update s.event d (event.map .node) }
    else .error ()
  | .duplicate d =>
    if 0 < s.refs d then .ok { s with refs := Function.update s.refs d (s.refs d + 1) }
    else .error ()
  | .close d =>
    if 0 < s.refs d then .ok { s with refs := Function.update s.refs d (s.refs d - 1) }
    else .error ()
  | .ctl op fd target userEvent =>
    if 0 < s.refs target then
      match s.epoll.ctl s.event op fd target userEvent with
      | .ok epoll => .ok { s with epoll }
      | .error _ => .ok s
    else .error ()
  | .begin timer => .ok { s with epoll := s.epoll.setTimeout (timer.map .timer) }
  | .scan poll maxevents => .ok { s with epoll := (s.epoll.scan poll maxevents).1 }

/-- The containers describe one set of registrations, of descriptions that exist. -/
structure WellFormed (s : EpollWorld) : Prop where
  registry : s.epoll.Registry s.event
  alive : ∀ i d, s.epoll.slot i = some d → 0 < s.refs d

/-- A description is closed for the last time only when it is not registered. -/
def Spares (s : EpollWorld) : EpollOp → Prop
  | .close d => s.refs d = 1 → ∀ r ∈ s.epoll.events, r.description ≠ some d
  | _ => True

instance (s : EpollWorld) : ∀ o, Decidable (s.Spares o)
  | .close d => inferInstanceAs (Decidable (s.refs d = 1 → ∀ r ∈ s.epoll.events, _))
  | .create _ _ | .duplicate _ | .ctl _ _ _ _ | .begin _ | .scan _ _ =>
    inferInstanceAs (Decidable True)

variable {s s' : EpollWorld}

/-- References change: the registered descriptions have some still. -/
theorem WellFormed.setRefs (h : s.WellFormed) {d : DescriptionPtr} {n : ℕ}
    (hn : 0 < n ∨ ∀ i, s.epoll.slot i ≠ some d) :
    ({ s with refs := Function.update s.refs d n } : EpollWorld).WellFormed := by
  refine ⟨h.registry, ?_⟩
  intro i d' hd'
  by_cases hd : d' = d
  · subst hd
    rcases hn with hn | hn
    · simpa using hn
    · exact absurd hd' (hn i)
  · simpa [hd] using h.alive i d' hd'

theorem WellFormed.ctl (h : s.WellFormed) {op : CtlOp} {fd : ℕ} {target : DescriptionPtr}
    {userEvent : EpollEvent} (htarget : 0 < s.refs target) {epoll : EPoll}
    (hctl : s.epoll.ctl s.event op fd target userEvent = .ok epoll) :
    ({ s with epoll } : EpollWorld).WellFormed := by
  refine ⟨h.registry.ctl hctl, ?_⟩
  intro i d hd
  have hd : epoll.slot i = some d := hd
  rcases EPoll.ctl_slot h.registry hctl hd with hold | rfl
  · exact h.alive i d hold
  · exact htarget

/-- A step keeps the registry well-formed exactly if it spares what is registered. -/
theorem WellFormed.step_iff (h : s.WellFormed) {o : EpollOp} (hstep : s.step o = .ok s') :
    s'.WellFormed ↔ s.Spares o := by
  cases o with
  | create d event =>
    unfold step at hstep
    simp only at hstep
    split_ifs at hstep with hd
    cases hstep
    refine iff_of_true ?_ trivial
    have hout : ∀ i, s.epoll.slot i ≠ some d := by
      intro i hi
      have := h.alive i d hi
      omega
    have hrefs := h.setRefs (n := 1) (.inr hout)
    refine ⟨hrefs.registry.events ?_, hrefs.alive⟩
    intro i d' hd'
    have hne : d' ≠ d := fun hdd => hout i (hdd ▸ hd')
    simp [hne]
  | duplicate d =>
    unfold step at hstep
    simp only at hstep
    split_ifs at hstep with hd
    cases hstep
    exact iff_of_true (h.setRefs (.inl (Nat.succ_pos _))) trivial
  | close d =>
    unfold step at hstep
    simp only at hstep
    split_ifs at hstep with hd
    cases hstep
    constructor
    · intro hafter hlast
      refine EPoll.slot_ne_iff.mp ?_
      intro i hi
      have halive := hafter.alive i d hi
      simp [hlast] at halive
    · intro hspares
      apply h.setRefs
      by_cases hlast : s.refs d = 1
      · exact .inr (EPoll.slot_ne_iff.mpr (hspares hlast))
      · left
        omega
  | ctl op fd target userEvent =>
    unfold step at hstep
    simp only at hstep
    split_ifs at hstep with htarget
    split at hstep
    · rename_i epoll hctl
      cases hstep
      exact iff_of_true (h.ctl htarget hctl) trivial
    · cases hstep
      exact iff_of_true h trivial
  | begin timer =>
    cases hstep
    exact iff_of_true ⟨h.registry.setTimeout _, h.alive⟩ trivial
  | scan poll maxevents =>
    cases hstep
    refine iff_of_true ⟨h.registry.scan poll maxevents, ?_⟩ trivial
    intro i d hd
    have hd : (s.epoll.scan poll maxevents).1.slot i = some d := hd
    rw [EPoll.scan_slot] at hd
    exact h.alive i d hd

theorem wellFormed_empty : ({} : EpollWorld).WellFormed := by
  refine ⟨EPoll.registry_empty, ?_⟩
  intro i d hd
  simp [EPoll.slot] at hd

end EpollWorld

/-- **Main theorem.** In every run in which no description is closed for the last time while it is
    registered, the containers of the instance agree and refer to existing descriptions only; and
    the next step keeps this exactly if it spares what is registered. -/
theorem registry_wellFormed {s : EpollWorld} (h : Run EpollWorld.step EpollWorld.Spares {} s) :
    s.WellFormed ∧ ∀ o s', s.step o = .ok s' → (s'.WellFormed ↔ s.Spares o) := by
  have hs : s.WellFormed := by
    refine h.invariant ?_ EpollWorld.wellFormed_empty
    intro s1 o s2 h1 hspares hstep
    exact (h1.step_iff hstep).mpr hspares
  exact ⟨hs, fun o s' hstep => hs.step_iff hstep⟩

/-- A descriptor is registered, removed and closed. -/
theorem registry_wellFormed_removed : ∃ s, Run EpollWorld.step EpollWorld.Spares {} s ∧
    s.epoll.events.length = 1 ∧ s.refs 0x1000#64 = 0 ∧ s.WellFormed := by
  let d : DescriptionPtr := 0x1000#64
  obtain ⟨s, hs, hread⟩ := exists_ok_of_map
    (show (([.create d (some 7), .ctl .add 5 d { events := 1#32 }, .ctl .del 5 d {}, .close d] :
        List EpollOp).foldlM (guarded EpollWorld.step EpollWorld.Spares ()) {}).map
      (fun s => (s.epoll.events.length, s.refs d)) = .ok (1, 0) by decide +kernel)
  obtain ⟨hlength, hrefs⟩ := Prod.mk.inj hread
  have hrun := Run.of_guarded hs
  exact ⟨s, hrun, hlength, hrefs, (registry_wellFormed hrun).1⟩

/-- A descriptor that is closed while it is registered. -/
theorem closed_while_registered : ¬∀ s, Run EpollWorld.step (fun _ _ => True) {} s →
    s.WellFormed := by
  intro h
  let d : DescriptionPtr := 0x1000#64
  obtain ⟨s, hs, hread⟩ := exists_ok_of_map
    (show (([.create d (some 7), .ctl .add 5 d { events := 1#32 }, .close d] :
        List EpollOp).foldlM EpollWorld.step {}).map
      (fun s => (s.refs d, s.epoll.slot 0)) = .ok (0, some d) by decide +kernel)
  obtain ⟨hrefs, hslot⟩ := Prod.mk.inj hread
  have halive := (h s (Run.start.foldlM (by simp) hs)).alive 0 d hslot
  omega

end Fishix.Userland
