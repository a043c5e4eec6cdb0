import Fishix.Common.Outcome
import Fishix.Common.RingBuffer
import Fishix.Userland.MemFd

/-!
# Local datagram sockets

Model of `LocalDatagramSocket::connect`, `recvmsg` and `sendmsg`
(userland/socket/local/datagram.cpp:82-192). A datagram stands in the ring buffer of its target by
value: nothing but the ring buffer refers to the block that `Datagram::construct` has allocated.

A socket that has not been used is as its constructor leaves it. What `path_to_entry` finds for a
name is an argument of the call, and so is what the memory of the caller holds behind a wait.

* `gather_eq`, `scatter_spec`: the loops over the vectors.
* `datagrams_fifo`: every target receives the messages it has accepted, one after the other.
-/

namespace Fishix.Userland

open Function (update update_self)

/-- `LocalDatagramSocket*`. -/
abbrev DatagramSocketId := ℕ

/-- `LocalDatagramSocket::Datagram` (userland/socket/local/datagram.hpp:8-14). -/
structure Datagram where
  sender : DatagramSocketId
  length : BitVec 32
  data : List Byte
  deriving DecidableEq

/-- The number of datagrams a ring buffer holds. -/
abbrev datagramSlots : ℕ := 256

/-- `LocalDatagramSocket` (userland/socket/local/datagram.hpp:18-21). -/
structure DatagramSocket where
  ringBuffer : RingBuffer Datagram datagramSlots := { data := fun _ => ⟨0, 0#32, []⟩ }
  connected : Option DatagramSocketId := none

/-- The vnode of an entry. -/
inductive NamedNode
  | other
  | socket (family type : ℕ) (id : DatagramSocketId)
  deriving DecidableEq

/-- A `sockaddr_un`, with the vnode that `path_to_entry` finds for it. -/
structure SocketName where
  family : ℕ
  node : Option NamedNode
  deriving DecidableEq

inductive SocketErrno
  /-- `-EWOULDBLOCK`. -/
  | wouldBlock
  /-- `-EINTR`. -/
  | interrupted
  /-- `-EDESTADDRREQ`. -/
  | destAddrReq
  /-- `-EAFNOSUPPORT`. -/
  | afNoSupport
  /-- `-ENOENT`. -/
  | noEntry
  /-- `-ECONNREFUSED`. -/
  | connRefused
  /-- `-EPROTOTYPE`. -/
  | prototype
  /-- `-EISCONN`. -/
  | isConn
  /-- `-ENOTCONN`. -/
  | notConn
  deriving DecidableEq

def AF_LOCAL : ℕ := 1
def SOCK_DGRAM : ℕ := 2

/-- The checks of a name in `connect` and `sendmsg` (userland/socket/local/datagram.cpp:85-93,
    152-160). -/
def SocketName.resolve (n : SocketName) : Except SocketErrno DatagramSocketId :=
  if n.family ≠ AF_LOCAL then .error .afNoSupport
  else
    match n.node with
    | none => .error .noEntry
    | some .other => .error .connRefused
    | some (.socket family type id) =>
      if family ≠ AF_LOCAL ∨ type ≠ SOCK_DGRAM then .error .prototype else .ok id

/-- The loop of `sendmsg` that copies the vectors (userland/socket/local/datagram.cpp:177-183). -/
def gather : List (List Byte) → List Byte → List Byte
  | [], copied => copied
  | iov :: iovs, copied =>
    if iov.length = 0 then gather iovs copied else gather iovs (copied ++ iov)

/-- The loop of `recvmsg` over vectors of the lengths `lens` (userland/socket/local/datagram.cpp:
    124-132): what each of them gets, and `transferred`. -/
def scatter (d : Datagram) : List ℕ → ℕ → List (List Byte) × ℕ
  | [], transferred => ([], transferred)
  | len :: lens, transferred =>
    if len = 0 then
      let (chunks, transferred) := scatter d lens transferred
      ([] :: chunks, transferred)
    else
      let count := min (d.length.toNat - transferred) len
      let chunk := (d.data.drop transferred).take count
      let transferred := transferred + count
      if count < len then ([chunk], transferred)
      else
        let (chunks, transferred) := scatter d lens transferred
        (chunk :: chunks, transferred)

/-- What a `recvmsg` with vectors of the lengths `lens` has delivered. -/
structure Receipt where
  lens : List ℕ
  chunks : List (List Byte)
  transferred : ℕ
  /-- `MSG_TRUNC`. -/
  truncated : Bool
  deriving DecidableEq

/-- `recvmsg` behind the read of the datagram (userland/socket/local/datagram.cpp:123-138). -/
def Datagram.deliver (d : Datagram) (lens : List ℕ) : Receipt :=
  let (chunks, transferred) := scatter d lens 0
  { lens, chunks, transferred, truncated := transferred < d.length.toNat }

/-- `Datagram::construct` and the loop that fills it. -/
def Datagram.construct (sender : DatagramSocketId) (iovs : List (List Byte)) : Datagram :=
  let count := (iovs.map List.length).sum
  { sender, length := BitVec.ofNat 32 count, data := gather iovs [] }

/-- The receipt is what vectors with room for `r.lens.sum` bytes get of a message. -/
structure Receipt.Of (r : Receipt) (message : List Byte) : Prop where
  chunks : r.chunks.flatten = message.take r.lens.sum
  fits : List.Forall₂ (fun chunk len => chunk.length ≤ len) r.chunks (r.lens.take r.chunks.length)
  transferred : r.transferred = min message.length r.lens.sum
  truncated : r.truncated = true ↔ r.lens.sum < message.length

/-! ## The loops over the vectors -/

theorem gather_eq (iovs : List (List Byte)) (copied : List Byte) :
    gather iovs copied = copied ++ iovs.flatten := by
  induction iovs generalizing copied with
  | nil => simp [gather]
  | cons iov iovs ih =>
    unfold gather
    split_ifs with hlen
    · rw [ih, List.length_eq_zero_iff.mp hlen]
      simp
    · rw [ih]
      simp

/-- From `transferred` on, the vectors get the bytes that fit, in order. -/
theorem scatter_spec {d : Datagram} (hlength : d.length.toNat = d.data.length) (lens : List ℕ)
    {transferred : ℕ} (hle : transferred ≤ d.data.length) :
    (scatter d lens transferred).1.flatten = (d.data.drop transferred).take lens.sum ∧
      List.Forall₂ (fun chunk len => chunk.length ≤ len) (scatter d lens transferred).1
        (lens.take (scatter d lens transferred).1.length) ∧
      (scatter d lens transferred).2 = min d.data.length (transferred + lens.sum) := by
  induction lens generalizing transferred with
  | nil =>
    refine ⟨by simp [scatter], by simp [scatter], ?_⟩
    show transferred = min d.data.length (transferred + 0)
    omega
  | cons len lens ih =>
    unfold scatter
    rw [hlength]
    by_cases hzero : len = 0
    · obtain ⟨hchunks, hfits, htransferred⟩ := ih hle
      simp only [hzero, if_true]
      refine ⟨by simpa using hchunks, by simpa using hfits, by simpa using htransferred⟩
    · simp only [hzero, if_false]
      by_cases hshort : min (d.data.length - transferred) len < len
      · -- the datagram ends in this vector
        simp only [hshort, if_true]
        refine ⟨?_, ?_, ?_⟩
        · rw [List.flatten_singleton, List.take_of_length_le (by simp; omega),
            List.take_of_length_le (by simp; omega)]
        · simp
        · rw [List.sum_cons]
          omega
      · simp only [hshort, if_false]
        obtain ⟨hchunks, hfits, htransferred⟩ :=
          ih (show transferred + min (d.data.length - transferred) len ≤ d.data.length by omega)
        have hfull : min (d.data.length - transferred) len = len := by omega
        rw [hfull] at hchunks hfits htransferred ⊢
        refine ⟨?_, ?_, ?_⟩
        · rw [List.flatten_cons, hchunks, List.sum_cons, List.take_add, List.drop_drop]
        · simpa using hfits
        · rw [htransferred, List.sum_cons]
          omega

theorem deliver_of {d : Datagram} (hlength : d.length.toNat = d.data.length) (lens : List ℕ) :
    (d.deliver lens).Of d.data := by
  obtain ⟨hchunks, hfits, htransferred⟩ := scatter_spec hlength lens (Nat.zero_le _)
  rw [List.drop_zero] at hchunks
  rw [Nat.zero_add] at htransferred
  refine ⟨hchunks, hfits, htransferred, ?_⟩
  show decide _ = true ↔ lens.sum < d.data.length
  rw [htransferred, hlength, decide_eq_true_iff]
  omega

theorem construct_length {sender : DatagramSocketId} {iovs : List (List Byte)}
    (h : (iovs.map List.length).sum < 2 ^ 32) :
    (Datagram.construct sender iovs).length.toNat = (Datagram.construct sender iovs).data.length := by
  unfold Datagram.construct
  rw [gather_eq, BitVec.toNat_ofNat, Nat.mod_eq_of_lt h]
  simp [List.length_flatten]

theorem construct_data (sender : DatagramSocketId) (iovs : List (List Byte)) :
    (Datagram.construct sender iovs).data = iovs.flatten := by
  unfold Datagram.construct
  rw [gather_eq, List.nil_append]

/-! ## The sockets -/

/-- A call that waits. -/
inductive DatagramCall
  | send (sender target : DatagramSocketId)
  | recv (socket : DatagramSocketId)

/-- The sockets and the calls that wait. `accepted` are the messages that were sent to a socket, and
    `received` is what its `recvmsg` has delivered; no call looks at them. -/
structure DatagramWorld where
  socket : DatagramSocketId → DatagramSocket := fun _ => {}
  sleeping : ℕ → Option DatagramCall := fun _ => none
  accepted : DatagramSocketId → List (List Byte) := fun _ => []
  received : DatagramSocketId → List Receipt := fun _ => []

/-- `nonblock` is `O_NONBLOCK` of the description or `MSG_DONTWAIT`. -/
inductive DatagramOp
  /-- `socketpair`, which connects two new sockets. -/
  | pair (s target : DatagramSocketId)
  | connect (s : DatagramSocketId) (name : SocketName)
  | sendmsg (thread : ℕ) (s : DatagramSocketId) (name : Option SocketName)
      (iovs : List (List Byte)) (nonblock : Bool)
  | recvmsg (thread : ℕ) (s : DatagramSocketId) (lens : List ℕ) (nonblock : Bool)
  /-- `wait` returns: the vectors are read now. -/
  | wake (thread : ℕ) (iovs : List (List Byte)) (lens : List ℕ) (nonblock : Bool)
  /-- `wait` returns `-EINTR`. -/
  | interrupt (thread : ℕ)

inductive DatagramReply
  | done
  | asleep
  | failed (e : SocketErrno)
  | sent (target : DatagramSocketId) (message : List Byte) (count : ℕ)
  | received (s : DatagramSocketId) (r : Receipt)

inductive DatagramFault
  /-- The step is not one that can be taken. -/
  | impossible
  | assertFailed
  deriving DecidableEq

namespace DatagramWorld

def setRing (w : DatagramWorld) (s : DatagramSocketId) (ringBuffer : RingBuffer Datagram datagramSlots) :
    DatagramWorld :=
  { w with socket := update w.socket s { w.socket s with ringBuffer } }

/-- The target that `sendmsg` takes (userland/socket/local/datagram.cpp:147-161). -/
def target (w : DatagramWorld) (s : DatagramSocketId) (name : Option SocketName) :
    Except SocketErrno DatagramSocketId :=
  match (w.socket s).connected, name with
  | some target, _ => .ok target
  | none, none => .error .destAddrReq
  | none, some n => n.resolve

/-- `sendmsg` from the test of the loop on (userland/socket/local/datagram.cpp:163-191). -/
def sendTurn (w : DatagramWorld) (thread : ℕ) (s target : DatagramSocketId) (iovs : List (List Byte))
    (nonblock : Bool) : Except DatagramFault (DatagramReply × DatagramWorld) :=
  if (w.socket target).ringBuffer.isFull then
    if nonblock then .ok (.failed .wouldBlock, { w with sleeping := update w.sleeping thread none })
    else .ok (.asleep, { w with
      sleeping := update w.sleeping thread (some (.send s target)) })
  else
    let datagram := Datagram.construct s iovs
    let (datagramsWritten, ringBuffer) := (w.socket target).ringBuffer.write [datagram]
    if datagramsWritten ≠ 1 then .error .assertFailed
    else .ok (.sent target iovs.flatten (iovs.map List.length).sum,
      { w.setRing target ringBuffer with
        sleeping := update w.sleeping thread none
        accepted := update w.accepted target (w.accepted target ++ [iovs.flatten]) })

/-- `recvmsg` from the test of the loop on (userland/socket/local/datagram.cpp:110-138). -/
def recvTurn (w : DatagramWorld) (thread : ℕ) (s : DatagramSocketId) (lens : List ℕ) (nonblock : Bool) :
    Except DatagramFault (DatagramReply × DatagramWorld) :=
  if (w.socket s).ringBuffer.isEmpty then
    if nonblock then .ok (.failed .wouldBlock, { w with sleeping := update w.sleeping thread none })
    else .ok (.asleep, { w with sleeping := update w.sleeping thread (some (.recv s)) })
  else
    match (w.socket s).ringBuffer.read 1 with
    | ([datagram], ringBuffer) =>
      .ok (.received s (datagram.deliver lens),
        { w.setRing s ringBuffer with
          sleeping := update w.sleeping thread none
          received := update w.received s (w.received s ++ [datagram.deliver lens]) })
    | _ => .error .assertFailed

/-- One step: what it returns, and the state behind it. -/
def perform (w : DatagramWorld) : DatagramOp → Except DatagramFault (DatagramReply × DatagramWorld)
  | .pair s target => .ok (.done, { w with
      socket := fun i => if i = s then { w.socket i with connected := some target }
        else if i = target then { w.socket i with connected := some s } else w.socket i })
  | .connect s name =>
    match name.resolve with
    | .error e => .ok (.failed e, w)
    | .ok target => .ok (.done, { w with
        socket := update w.socket s { w.socket s with connected := some target } })
  | .sendmsg thread s name iovs nonblock =>
    if (w.sleeping thread).isSome then .error .impossible
    else
      match w.target s name with
      | .error e => .ok (.failed e, w)
      | .ok target => w.sendTurn thread s target iovs nonblock
  | .recvmsg thread s lens nonblock =>
    if (w.sleeping thread).isSome then .error .impossible else w.recvTurn thread s lens nonblock
  | .wake thread iovs lens nonblock =>
    match w.sleeping thread with
    | some (.send s target) => w.sendTurn thread s target iovs nonblock
    | some (.recv s) => w.recvTurn thread s lens nonblock
    | none => .error .impossible
  | .interrupt thread =>
    if (w.sleeping thread).isSome then
      .ok (.failed .interrupted, { w with sleeping := update w.sleeping thread none })
    else .error .impossible

def step (w : DatagramWorld) (o : DatagramOp) : Except DatagramFault DatagramWorld :=
  (w.perform o).map Prod.snd

/-- The messages are shorter than `2 ^ 32`. -/
def Short (_ : DatagramWorld) : DatagramOp → Prop
  | .sendmsg _ _ _ iovs _ => (iovs.map List.length).sum < 2 ^ 32
  | .wake _ iovs _ _ => (iovs.map List.length).sum < 2 ^ 32
  | _ => True

/-- Socket `s` has received the first of the messages it has accepted, in order, each once, and has
    the others in its queue. -/
structure Fifo (w : DatagramWorld) (s : DatagramSocketId) : Prop where
  pending : (w.accepted s).length =
    (w.received s).length + (w.socket s).ringBuffer.dataCount.toNat
  delivered : ∀ (k : ℕ) (hr : k < (w.received s).length) (ha : k < (w.accepted s).length),
    (w.received s)[k].Of (w.accepted s)[k]

/-- What a reply says of the messages. -/
def Answers (w w' : DatagramWorld) : DatagramReply → Prop
  | .sent target message count =>
      count = message.length ∧ w'.received = w.received ∧
        w'.accepted = update w.accepted target (w.accepted target ++ [message])
  | .received s r =>
      w'.received = update w.received s (w.received s ++ [r]) ∧ w'.accepted = w.accepted
  | _ => w'.received = w.received ∧ w'.accepted = w.accepted

/-! ## Every step -/

/-- The queue of `s` carries the messages it has accepted, and what it has received is what was
    taken from it. -/
def Queued (w : DatagramWorld) (s : DatagramSocketId) : Prop :=
  ∃ written taken : List Datagram, (w.socket s).ringBuffer.Carries written taken ∧
    written.map Datagram.data = w.accepted s ∧
    (∀ d ∈ written, d.length.toNat = d.data.length) ∧
    List.Forall₂ (fun r d => r = d.deliver r.lens) (w.received s) taken

theorem slots_lt : datagramSlots < 2 ^ 64 := by decide

theorem slots_dvd : datagramSlots ∣ 2 ^ 64 := by decide

variable {w w' : DatagramWorld} {s : DatagramSocketId} {reply : DatagramReply}

theorem queued_empty (s : DatagramSocketId) : ({} : DatagramWorld).Queued s :=
  ⟨[], [], RingBuffer.carries_empty _, rfl, by simp, .nil⟩

theorem Queued.congr (h : w.Queued s) (hring : (w'.socket s).ringBuffer = (w.socket s).ringBuffer)
    (haccepted : w'.accepted s = w.accepted s) (hreceived : w'.received s = w.received s) :
    w'.Queued s := by
  unfold Queued
  rw [hring, haccepted, hreceived]
  exact h

theorem Queued.fifo (h : w.Queued s) : w.Fifo s := by
  obtain ⟨written, taken, hcarries, haccepted, hlength, hreceived⟩ := h
  have hcount := hreceived.length_eq
  have hmap : (w.accepted s).length = written.length := by rw [← haccepted, List.length_map]
  constructor
  · have hpending := hcarries.dataCount slots_lt
    have hle := hcarries.length_le
    omega
  · intro k hr ha
    have hk : k < taken.length := by omega
    have hgot : (w.received s)[k] = taken[k].deliver (w.received s)[k].lens :=
      List.forall₂_iff_get.mp hreceived |>.2 k hr hk
    have hsame : taken[k] = written[k] := hcarries.taken.getElem hk
    have hdata : (w.accepted s)[k] = written[k].data := by
      simp [← haccepted]
    have hof := deliver_of (hlength written[k] (List.getElem_mem _)) (w.received s)[k].lens
    rw [hdata]
    rw [hsame] at hgot
    rw [hgot]
    exact hof

/-- A message is put into the queue of `target`. -/
theorem Queued.sendTurn (h : ∀ s, w.Queued s) {thread : ℕ} {sender target : DatagramSocketId}
    {iovs : List (List Byte)} {nonblock : Bool} (hshort : (iovs.map List.length).sum < 2 ^ 32) :
    ∃ reply w', w.sendTurn thread sender target iovs nonblock = .ok (reply, w') ∧
      (∀ s, w'.Queued s) ∧ w.Answers w' reply := by
  obtain ⟨written, taken, hcarries, haccepted, hlength, hreceived⟩ := h target
  unfold DatagramWorld.sendTurn
  by_cases hfull : (w.socket target).ringBuffer.isFull = true
  · rw [if_pos hfull]
    split_ifs
    · exact ⟨_, _, rfl, h, rfl, rfl⟩
    · exact ⟨_, _, rfl, h, rfl, rfl⟩
  · rw [if_neg hfull]
    rw [hcarries.isFull_iff slots_lt] at hfull
    have hroom := hcarries.room
    obtain ⟨hone, hcarries'⟩ :=
      hcarries.write slots_lt [Datagram.construct sender iovs] (.inl slots_dvd)
    have hone : ((w.socket target).ringBuffer.write [Datagram.construct sender iovs]).1 = 1 := by
      rw [hone, List.length_singleton]
      omega
    simp only [hone, ne_eq, not_true_eq_false, if_false]
    refine ⟨_, _, rfl, ?_, ?_⟩
    · intro s
      by_cases hs : s = target
      · subst hs
        refine ⟨written ++ [Datagram.construct sender iovs], taken, ?_, ?_, ?_, hreceived⟩
        · rw [hone] at hcarries'
          simpa [setRing] using hcarries'
        · simp [haccepted, construct_data]
        · intro d hd
          rcases List.mem_append.mp hd with hd | hd
          · exact hlength d hd
          · rw [List.mem_singleton.mp hd]
            exact construct_length hshort
      · exact (h s).congr (by simp [setRing, hs]) (by simp [hs]) rfl
    · exact ⟨by simp [List.length_flatten], rfl, rfl⟩

/-- A message is taken from the queue of `s`. -/
theorem Queued.recvTurn (h : ∀ s, w.Queued s) {thread : ℕ} {lens : List ℕ} {nonblock : Bool} :
    ∃ reply w', w.recvTurn thread s lens nonblock = .ok (reply, w') ∧
      (∀ s, w'.Queued s) ∧ w.Answers w' reply := by
  obtain ⟨written, taken, hcarries, haccepted, hlength, hreceived⟩ := h s
  unfold DatagramWorld.recvTurn
  by_cases hempty : (w.socket s).ringBuffer.isEmpty = true
  · rw [if_pos hempty]
    split_ifs
    · exact ⟨_, _, rfl, h, rfl, rfl⟩
    · exact ⟨_, _, rfl, h, rfl, rfl⟩
  · rw [if_neg hempty]
    rw [hcarries.isEmpty_iff slots_lt] at hempty
    obtain ⟨hread, hcarries'⟩ := hcarries.read slots_lt 1
    have hlt : taken.length < written.length := by
      by_contra hle
      exact hempty (hcarries.taken.eq_of_length_le (by omega))
    rw [List.drop_eq_getElem_cons hlt, List.take_succ_cons, List.take_zero] at hread
    have hpair : (w.socket s).ringBuffer.read 1 =
        ([written[taken.length]], ((w.socket s).ringBuffer.read 1).2) := Prod.ext hread rfl
    rw [hpair]
    rw [hread] at hcarries'
    refine ⟨_, _, rfl, ?_, rfl, rfl⟩
    intro s1
    by_cases hs : s1 = s
    · subst hs
      refine ⟨written, taken ++ [written[taken.length]], ?_, ?_, hlength, ?_⟩
      · simpa [setRing] using hcarries'
      · exact haccepted
      · show List.Forall₂ _ (update w.received s1 _ s1) _
        rw [update_self]
        exact List.rel_append hreceived (.cons rfl .nil)
    · exact (h s1).congr (by simp [setRing, hs]) rfl (by simp [hs])

theorem Queued.perform (h : ∀ s, w.Queued s) {o : DatagramOp} (ho : w.Short o) :
    w.perform o ≠ .error .assertFailed ∧ ∀ reply w', w.perform o = .ok (reply, w') →
      (∀ s, w'.Queued s) ∧ w.Answers w' reply := by
  have hturn : ∀ {x : Except DatagramFault (DatagramReply × DatagramWorld)},
      (∃ reply w', x = .ok (reply, w') ∧ (∀ s, w'.Queued s) ∧ w.Answers w' reply) →
      x ≠ .error .assertFailed ∧ ∀ reply w', x = .ok (reply, w') →
        (∀ s, w'.Queued s) ∧ w.Answers w' reply := by
    rintro x ⟨reply, w', rfl, hqueued, hanswers⟩
    refine ⟨by simp, ?_⟩
    intro reply1 w1 heq
    obtain ⟨rfl, rfl⟩ := pure_pair heq
    exact ⟨hqueued, hanswers⟩
  cases o with
  | pair s target =>
    refine hturn ⟨_, _, rfl, ?_, rfl, rfl⟩
    intro i
    refine (h i).congr ?_ rfl rfl
    show DatagramSocket.ringBuffer (if i = s then _ else if i = target then _ else _) = _
    split_ifs <;> rfl
  | connect s name =>
    simp only [DatagramWorld.perform]
    cases name.resolve with
    | error e => exact hturn ⟨_, _, rfl, h, rfl, rfl⟩
    | ok target =>
      refine hturn ⟨_, _, rfl, ?_, rfl, rfl⟩
      intro i
      refine (h i).congr ?_ rfl rfl
      by_cases hi : i = s
      · subst hi
        simp
      · simp [hi]
  | sendmsg thread s name iovs nonblock =>
    simp only [DatagramWorld.perform]
    split_ifs
    · exact ⟨by simp, by simp⟩
    · cases w.target s name with
      | error e => exact hturn ⟨_, _, rfl, h, rfl, rfl⟩
      | ok target => exact hturn (Queued.sendTurn h ho)
  | recvmsg thread s lens nonblock =>
    simp only [DatagramWorld.perform]
    split_ifs
    · exact ⟨by simp, by simp⟩
    · exact hturn (Queued.recvTurn h)
  | wake thread iovs lens nonblock =>
    simp only [DatagramWorld.perform]
    split
    · exact hturn (Queued.sendTurn h ho)
    · exact hturn (Queued.recvTurn h)
    · exact ⟨by simp, by simp⟩
  | interrupt thread =>
    simp only [DatagramWorld.perform]
    split_ifs
    · exact hturn ⟨_, _, rfl, h, rfl, rfl⟩
    · exact ⟨by simp, by simp⟩

end DatagramWorld

/-- **Main theorem.** In every state of every run with messages shorter than `2 ^ 32` bytes, a socket
    has received the first of the messages it has accepted, in order and each once, as far as the
    buffers had room; every call says what becomes of its message, and no assertion fails. -/
theorem datagrams_fifo {w : DatagramWorld} (h : Run DatagramWorld.step DatagramWorld.Short {} w) :
    (∀ s, w.Fifo s) ∧ ∀ o, w.Short o → w.perform o ≠ .error .assertFailed ∧
      ∀ reply w', w.perform o = .ok (reply, w') → w.Answers w' reply := by
  have hqueued : ∀ s, w.Queued s := by
    refine h.invariant (P := fun w => ∀ s, w.Queued s) ?_ DatagramWorld.queued_empty
    intro w1 o w2 hw ho hstep
    unfold DatagramWorld.step at hstep
    cases hperform : w1.perform o with
    | error e => simp [hperform, Except.map] at hstep
    | ok x =>
      rw [hperform] at hstep
      obtain rfl := Except.ok.inj hstep
      exact ((DatagramWorld.Queued.perform hw ho).2 _ _ hperform).1
  refine ⟨fun s => (hqueued s).fifo, ?_⟩
  intro o ho
  obtain ⟨hassert, hreply⟩ := DatagramWorld.Queued.perform hqueued ho
  exact ⟨hassert, fun reply w' hperform => (hreply reply w' hperform).2⟩

/-- A connected socket and a named target, one read with a buffer that is too small. -/
theorem datagrams_fifo_truncated : ∃ w, Run DatagramWorld.step DatagramWorld.Short {} w ∧
    w.accepted 1 = [[1#8, 2#8, 3#8], [4#8]] ∧
    w.received 1 = [⟨[1, 0, 1], [[1#8], [], [2#8]], 2, true⟩] ∧ w.Fifo 1 := by
  let name : SocketName := ⟨AF_LOCAL, some (.socket AF_LOCAL SOCK_DGRAM 1)⟩
  obtain ⟨w, hw, hread⟩ := exists_ok_of_map
    (show (([.connect 0 name, .recvmsg 7 1 [1, 0, 1] false,
        .sendmsg 8 0 none [[1#8], [], [2#8, 3#8]] false, .sendmsg 8 2 (some name) [[4#8]] true,
        .wake 7 [] [1, 0, 1] false] : List DatagramOp).foldlM DatagramWorld.step {}).map
      (fun w => (w.accepted 1, w.received 1)) =
      .ok ([[1#8, 2#8, 3#8], [4#8]], [⟨[1, 0, 1], [[1#8], [], [2#8]], 2, true⟩]) by decide +kernel)
  obtain ⟨haccepted, hreceived⟩ := Prod.mk.inj hread
  have hrun : Run DatagramWorld.step DatagramWorld.Short {} w := by
    refine Run.start.foldlM ?_ hw
    intro o ho _
    fin_cases ho <;> simp [DatagramWorld.Short]
  exact ⟨w, hrun, haccepted, hreceived, (datagrams_fifo hrun).1 1⟩

end Fishix.Userland
