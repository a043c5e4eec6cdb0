import Fishix.Common.Outcome
import Fishix.Common.Ring
import Fishix.Common.Word

/-!
# Connecting local sockets

Model of `LocalStreamSocket::bind`, `connect`, `listen`, `accept` and `close`
(userland/socket/local/stream.cpp:36-166) and of `socketpair` (userland/socket/socket.cpp:72-115) for
any number of sockets and threads, both numbered. `pending_list` is the head of the list of a
listener and the link of a socket that connects, so that every socket has one `ListHead`.

`num_pending` is compared with `max_pending` and never changed.

`connect` casts the socket at the path. A datagram socket there is no `LocalStreamSocket`
(`ConnectFault.badCast`).

* `connections_consistent_iff`: exactly when peers, lists and counts agree.
* `queued_uncounted`: a connection that waits is not counted.
* `peers_mutual`: the peers alone, as long as `accept` gets sockets of its own type without a peer.
-/

namespace Fishix.Userland

open Function (update update_self update_of_ne)

inductive LocalKind
  | stream | seqpacket | datagram
  deriving DecidableEq

/-- What a socket keeps of its connections. `listening` says that `listen` has been called; no call
    looks at it. -/
structure LocalSocket where
  kind : LocalKind
  peer : Option ℕ := none
  numPending : U64 := 0#64
  maxPending : U64 := 0#64
  closed : Bool := false
  listening : Bool := false
  deriving DecidableEq

/-- The vnode of an entry. -/
inductive EntryNode
  | other
  | socket (s : ℕ)
  deriving DecidableEq

inductive ConnectCall
  | connect | accept
  deriving DecidableEq

/-- A thread is in no call, or in one on a socket, in which it waits or has been woken. -/
inductive ConnectPhase
  | running
  | asleep (s : ℕ) (c : ConnectCall)
  | woken (s : ℕ) (c : ConnectCall)
  deriving DecidableEq

/-- The sockets with their `pending_list`s, and of each `socket_event` the count `pending` and the
    threads that wait for it. -/
structure Connections where
  next : ℕ := 0
  socket : ℕ → LocalSocket := fun _ => { kind := .stream }
  links : Links ℕ := fun _ => {}
  eventPending : ℕ → ℕ := fun _ => 0
  waiting : ℕ → List ℕ := fun _ => []
  entry : ℕ → Option EntryNode := fun _ => none
  phase : ℕ → ConnectPhase := fun _ => .running

inductive ConnectFault
  /-- The step is not one that can be taken. -/
  | impossible
  | nullPointer
  /-- An object is used as a `LocalStreamSocket` that is none. -/
  | badCast
  deriving DecidableEq

/-- `nonblock` is `O_NONBLOCK` of the description. -/
inductive ConnectOp
  | create (kind : LocalKind)
  | socketpair (kind : LocalKind)
  /-- Another node gets a name. -/
  | mknod (path : ℕ)
  | bind (s : ℕ) (path : ℕ)
  | listen (s : ℕ) (backlog : BitVec 32)
  | connect (thread : ℕ) (s : ℕ) (path : ℕ)
  | accept (thread : ℕ) (s : ℕ) (nonblock : Bool)
  | resume (thread : ℕ) (nonblock : Bool)
  /-- `wait` returns `-EINTR`. -/
  | interrupt (thread : ℕ)
  | close (s : ℕ)

namespace Connections

/-- A descriptor of `s` is open. -/
def Live (k : Connections) (s : ℕ) : Prop := s < k.next ∧ (k.socket s).closed = false

instance (k : Connections) (s : ℕ) : Decidable (k.Live s) :=
  inferInstanceAs (Decidable (s < k.next ∧ (k.socket s).closed = false))

def updateSocket (k : Connections) (s : ℕ) (f : LocalSocket → LocalSocket) : Connections :=
  { k with socket := update k.socket s (f (k.socket s)) }

def setPhase (k : Connections) (thread : ℕ) (x : ConnectPhase) : Connections :=
  { k with phase := update k.phase thread x }

/-- A new socket; a datagram socket has no `pending_list`. -/
def create (k : Connections) (x : LocalSocket) : Connections :=
  { k with
    next := k.next + 1
    socket := update k.socket k.next x
    links := if x.kind = .datagram then k.links else k.links.init k.next }

/-- `socket_event.trigger()` of `s`: without a listener it is remembered. -/
def trigger (k : Connections) (s : ℕ) : Connections :=
  if k.waiting s = [] then
    { k with eventPending := update k.eventPending s (k.eventPending s + 1) }
  else
    { k with
      waiting := update k.waiting s []
      phase := fun t => if t ∈ k.waiting s then
        match k.phase t with
        | .asleep i c => .woken i c
        | x => x
      else k.phase t }

/-- `socket_event.wait()` of `s`. -/
def wait (k : Connections) (thread : ℕ) (s : ℕ) (c : ConnectCall) : Connections :=
  if 0 < k.eventPending s then
    { k.setPhase thread (.woken s c) with
      eventPending := update k.eventPending s (k.eventPending s - 1) }
  else
    { k.setPhase thread (.asleep s c) with
      waiting := update k.waiting s (k.waiting s ++ [thread]) }

/-- `connect` once the name is resolved (userland/socket/local/stream.cpp:103-113). -/
def connectTo (k : Connections) (thread : ℕ) (s target : ℕ) :
    Except ConnectFault Connections :=
  if (k.socket target).kind = .datagram then .error .badCast
  else if (k.socket target).maxPending ≤ (k.socket target).numPending then .ok k
  else
    match k.links.addBefore target s with
    | none => .error .nullPointer
    | some links => .ok ((({ k with links } : Connections).trigger target).wait thread s .connect)

/-- `accept` from the test of its loop on (userland/socket/local/stream.cpp:137-165). -/
def acceptTurn (k : Connections) (thread : ℕ) (s : ℕ) (nonblock : Bool) :
    Except ConnectFault Connections :=
  if (k.links s).next = some s then
    if nonblock then .ok (k.setPhase thread .running) else .ok (k.wait thread s .accept)
  else
    match (k.links s).next with
    | none => .error .nullPointer
    | some acceptedPeer =>
      match k.links.remove acceptedPeer with
      | none => .error .nullPointer
      | some links =>
        let connectedSocket := k.next
        let k := ({ k with links } : Connections).create
          { kind := (k.socket s).kind, peer := some acceptedPeer }
        let k := k.updateSocket acceptedPeer fun x => { x with peer := some connectedSocket }
        .ok ((k.trigger acceptedPeer).setPhase thread .running)

/-- `close` (userland/socket/local/stream.cpp:36-44), when the last descriptor of `s` goes. -/
def close (k : Connections) (s : ℕ) : Connections :=
  let k := match (k.socket s).peer with
    | some peer => k.updateSocket peer fun x => { x with peer := none }
    | none => k
  k.updateSocket s fun x => { x with closed := true }

/-- One step. The checks of a name that fail leave everything as it is. -/
def step (k : Connections) : ConnectOp → Except ConnectFault Connections
  | .create kind => .ok (k.create { kind })
  | .socketpair kind =>
    .ok ((k.create { kind, peer := if kind = .datagram then none else some (k.next + 1) }).create
      { kind, peer := if kind = .datagram then none else some k.next })
  | .mknod path =>
    if k.entry path = none then .ok { k with entry := update k.entry path (some .other) }
    else .error .impossible
  | .bind s path =>
    if ¬k.Live s then .error .impossible
    else if k.entry path = none then
      .ok { k with entry := update k.entry path (some (.socket s)) }
    else .ok k
  | .listen s backlog =>
    if ¬k.Live s then .error .impossible
    else if (k.socket s).kind = .datagram then .ok k
    else .ok (k.updateSocket s fun x =>
      { x with maxPending := backlog.signExtend 64, listening := true })
  | .connect thread s path =>
    if ¬k.Live s ∨ k.phase thread ≠ .running ∨ (k.socket s).kind = .datagram then .error .impossible
    else
      match k.entry path with
      | some (.socket target) => k.connectTo thread s target
      | _ => .ok k
  | .accept thread s nonblock =>
    if ¬k.Live s ∨ k.phase thread ≠ .running ∨ (k.socket s).kind = .datagram then .error .impossible
    else k.acceptTurn thread s nonblock
  | .resume thread nonblock =>
    match k.phase thread with
    | .woken _ .connect => .ok (k.setPhase thread .running)
    | .woken s .accept => k.acceptTurn thread s nonblock
    | _ => .error .impossible
  | .interrupt thread =>
    match k.phase thread with
    | .asleep s _ => .ok { k.setPhase thread .running with
        waiting := update k.waiting s ((k.waiting s).erase thread) }
    | .woken _ _ => .ok (k.setPhase thread .running)
    | .running => .error .impossible
  | .close s =>
    if ¬k.Live s then .error .impossible
    else .ok (k.close s)

/-! ## What connections are to be -/

/-- A call of `connect` on `s` is in progress. -/
def Connecting (k : Connections) (s : ℕ) : Prop :=
  ∃ thread, k.phase thread = .asleep s .connect ∨ k.phase thread = .woken s .connect

/-- Peers point to each other and are stream sockets of one type. -/
def PeersMutual (k : Connections) : Prop :=
  ∀ a b, k.Live a → (k.socket a).peer = some b → (k.socket b).peer = some a ∧
    (k.socket a).kind = (k.socket b).kind ∧ (k.socket a).kind ≠ .datagram

/-- What is said of the sockets, the lists of the listeners and their counts. -/
structure Consistent (k : Connections) : Prop where
  peers : k.PeersMutual
  queue : ∀ s, (k.socket s).listening = true → ∃ queued, IsRing k.links s queued ∧
    queued.length ≤ (k.socket s).maxPending.toNat ∧
    queued.length = (k.socket s).numPending.toNat ∧ ∀ a ∈ queued, k.Connecting a
  unique : ∀ s s' queued queued' a, (k.socket s).listening = true → (k.socket s').listening = true →
    IsRing k.links s queued → IsRing k.links s' queued' → a ∈ queued → a ∈ queued' → s = s'

/-- `connect` puts `s` into the list of another socket, or takes a datagram socket for one that has
    a list. -/
def Queues (k : Connections) : ConnectOp → Prop
  | .connect _ s path => ∃ target, k.entry path = some (.socket target) ∧ target ≠ s ∧
      ((k.socket target).kind = .datagram ∨
        (k.socket target).numPending < (k.socket target).maxPending)
  | _ => False

instance (k : Connections) (o : ConnectOp) : Decidable (k.Queues o) :=
  match o with
  | .connect _ s path =>
    match h : k.entry path with
    | some (.socket target) =>
      decidable_of_iff (target ≠ s ∧ ((k.socket target).kind = .datagram ∨
        (k.socket target).numPending < (k.socket target).maxPending)) (by simp [Queues, h])
    | some .other => .isFalse (by simp [Queues, h])
    | none => .isFalse (by simp [Queues, h])
  | .create _ | .socketpair _ | .mknod _ | .bind _ _ | .listen _ _ | .accept _ _ _ | .resume _ _
  | .interrupt _ | .close _ => .isFalse fun h => h

/-- The listener of an `accept` that begins or goes on. -/
def accepts (k : Connections) : ConnectOp → Option ℕ
  | .accept _ s _ => some s
  | .resume thread _ =>
    match k.phase thread with
    | .woken s .accept => some s
    | _ => none
  | _ => none

/-- What an `accept` takes is a socket of the type of the listener, without a peer. -/
def AcceptsFresh (k : Connections) (o : ConnectOp) : Prop :=
  ∀ s x, k.accepts o = some s → (k.links s).next = some x → x ≠ s →
    x < k.next ∧ (k.socket x).peer = none ∧ (k.socket x).kind = (k.socket s).kind ∧
      (k.socket x).kind ≠ .datagram

variable {k k' : Connections} {o : ConnectOp} {s target : ℕ} {thread : ℕ} {nonblock : Bool}

@[simp] theorem trigger_next : (k.trigger s).next = k.next := by
  unfold trigger
  split_ifs <;> rfl

@[simp] theorem trigger_socket : (k.trigger s).socket = k.socket := by
  unfold trigger
  split_ifs <;> rfl

@[simp] theorem trigger_links : (k.trigger s).links = k.links := by
  unfold trigger
  split_ifs <;> rfl

@[simp] theorem trigger_entry : (k.trigger s).entry = k.entry := by
  unfold trigger
  split_ifs <;> rfl

@[simp] theorem wait_next (c : ConnectCall) : (k.wait thread s c).next = k.next := by
  unfold wait
  split_ifs <;> rfl

@[simp] theorem wait_socket (c : ConnectCall) : (k.wait thread s c).socket = k.socket := by
  unfold wait
  split_ifs <;> rfl

@[simp] theorem wait_links (c : ConnectCall) : (k.wait thread s c).links = k.links := by
  unfold wait
  split_ifs <;> rfl

@[simp] theorem wait_entry (c : ConnectCall) : (k.wait thread s c).entry = k.entry := by
  unfold wait
  split_ifs <;> rfl

theorem close_frame (k : Connections) (s : ℕ) : (k.close s).next = k.next ∧
    (k.close s).links = k.links ∧ (k.close s).entry = k.entry ∧ (k.close s).phase = k.phase := by
  unfold close
  cases (k.socket s).peer <;> exact ⟨rfl, rfl, rfl, rfl⟩

/-- A socket keeps its list, its count and its type when sockets are closed. -/
theorem close_socket (k : Connections) (s a : ℕ) :
    ∃ peer closed, (k.close s).socket a = { k.socket a with peer, closed } := by
  unfold close
  cases (k.socket s).peer with
  | none =>
    by_cases ha : a = s
    · exact ⟨(k.socket a).peer, true, by simp [updateSocket, ha]⟩
    · exact ⟨(k.socket a).peer, (k.socket a).closed, by simp [updateSocket, ha]⟩
  | some p =>
    by_cases ha : a = s
    · by_cases hp : s = p
      · exact ⟨none, true, by simp [updateSocket, ha, hp]⟩
      · exact ⟨(k.socket a).peer, true, by simp [updateSocket, ha, hp]⟩
    · by_cases hp : a = p
      · exact ⟨none, (k.socket a).closed, by
          subst hp
          simp [updateSocket, ha]⟩
      · exact ⟨(k.socket a).peer, (k.socket a).closed, by simp [updateSocket, ha, hp]⟩

/-! ## Peers -/

/-- Peers are mutual, and there. -/
def Paired (k : Connections) : Prop :=
  ∀ a b, k.Live a → (k.socket a).peer = some b → b < k.next ∧ (k.socket b).peer = some a ∧
    (k.socket a).kind = (k.socket b).kind ∧ (k.socket a).kind ≠ .datagram

section

variable (h : k.Paired)

include h

theorem Paired.peersMutual : k.PeersMutual := fun a b ha hb => (h a b ha hb).2

/-- Neither the sockets nor their peers, kinds and descriptors change. -/
theorem Paired.congr (hnext : k'.next = k.next)
    (hpeer : ∀ s, (k'.socket s).peer = (k.socket s).peer)
    (hkind : ∀ s, (k'.socket s).kind = (k.socket s).kind)
    (hclosed : ∀ s, (k'.socket s).closed = (k.socket s).closed) : k'.Paired := by
  intro a b ha hb
  unfold Live at ha
  rw [hnext, hclosed] at ha
  rw [hpeer] at hb
  rw [hnext, hpeer, hkind, hkind]
  exact h a b ha hb

theorem Paired.create {x : LocalSocket} (hpeer : x.peer = none) : (k.create x).Paired := by
  intro a b ha hb
  by_cases hnew : a = k.next
  · subst hnew
    simp [Connections.create, hpeer] at hb
  · have hlive : k.Live a := by
      obtain ⟨h1, h2⟩ := ha
      have h1 : a < k.next + 1 := h1
      refine ⟨by omega, ?_⟩
      simpa [Connections.create, hnew] using h2
    have hold : (k.socket a).peer = some b := by
      simpa [Connections.create, hnew] using hb
    obtain ⟨hlt, hmutual⟩ := h a b hlive hold
    have hb' : b ≠ k.next := by omega
    refine ⟨show b < k.next + 1 by omega, ?_⟩
    simpa [Connections.create, hnew, hb'] using hmutual

theorem Paired.socketpair (kind : LocalKind) :
    ((k.create { kind, peer := if kind = .datagram then none else some (k.next + 1) }).create
      { kind, peer := if kind = .datagram then none else some k.next }).Paired := by
  by_cases hkind : kind = .datagram
  · rw [if_pos hkind, if_pos hkind]
    exact (h.create rfl).create rfl
  · rw [if_neg hkind, if_neg hkind]
    intro a b ha hb
    by_cases hsecond : a = k.next + 1
    · subst hsecond
      obtain rfl : k.next = b := by simpa [Connections.create] using hb
      simp [Connections.create, hkind]
    · by_cases hfirst : a = k.next
      · subst hfirst
        obtain rfl : k.next + 1 = b := by simpa [Connections.create] using hb
        simp [Connections.create, hkind]
      · have hlive : k.Live a := by
          obtain ⟨h1, h2⟩ := ha
          have h1 : a < k.next + 1 + 1 := h1
          refine ⟨by omega, ?_⟩
          simpa [Connections.create, hfirst, hsecond] using h2
        have hold : (k.socket a).peer = some b := by
          simpa [Connections.create, hfirst, hsecond] using hb
        obtain ⟨hlt, hmutual⟩ := h a b hlive hold
        have hb1 : b ≠ k.next := by omega
        have hb2 : b ≠ k.next + 1 := by omega
        refine ⟨show b < k.next + 1 + 1 by omega, ?_⟩
        simpa [Connections.create, hfirst, hsecond, hb1, hb2] using hmutual

/-- A socket that is closed takes itself away from its peer. -/
theorem Paired.closed (hlive : k.Live s) : (k.close s).Paired := by
  unfold Connections.close
  cases hpeer : (k.socket s).peer with
  | none =>
    intro a b ha hb
    by_cases has : a = s
    · subst has
      simp [Live, updateSocket] at ha
    · have hold : (k.socket a).peer = some b := by simpa [updateSocket, has] using hb
      have halive : k.Live a := by simpa [Live, updateSocket, has] using ha
      obtain ⟨hlt, hmutual⟩ := h a b halive hold
      refine ⟨hlt, ?_⟩
      by_cases hbs : b = s
      · subst hbs
        simpa [updateSocket, has] using hmutual
      · simpa [updateSocket, has, hbs] using hmutual
  | some p =>
    obtain ⟨hplt, hpback, -⟩ := h s p hlive hpeer
    intro a b ha hb
    by_cases has : a = s
    · subst has
      simp [Live, updateSocket] at ha
    · by_cases hap : a = p
      · subst hap
        simp [updateSocket, has] at hb
      · have hold : (k.socket a).peer = some b := by simpa [updateSocket, has, hap] using hb
        have halive : k.Live a := by simpa [Live, updateSocket, has, hap] using ha
        obtain ⟨hlt, hback, hmutual⟩ := h a b halive hold
        have hbp : b ≠ p := by
          rintro rfl
          rw [hpback] at hback
          exact has (Option.some.inj hback).symm
        have hbs : b ≠ s := by
          rintro rfl
          rw [hpeer] at hback
          exact hap (Option.some.inj hback).symm
        refine ⟨hlt, ?_⟩
        simpa [updateSocket, has, hap, hbp, hbs] using ⟨hback, hmutual⟩

/-- A socket without a peer gets a new one of its type. -/
theorem Paired.accepted {x : ℕ} {kind : LocalKind} (hlt : x < k.next)
    (hpeer : (k.socket x).peer = none) (hkind : (k.socket x).kind = kind)
    (hstream : kind ≠ .datagram) : ((k.create { kind, peer := some x }).updateSocket x
      fun y => { y with peer := some k.next }).Paired := by
  have hne : x ≠ k.next := by omega
  intro a b ha hb
  by_cases hnew : a = k.next
  · subst hnew
    obtain rfl : x = b := by simpa [Connections.create, updateSocket, hne.symm] using hb
    refine ⟨show x < k.next + 1 by omega, ?_⟩
    simp [Connections.create, updateSocket, hne, hne.symm, hkind, hstream]
  · by_cases hax : a = x
    · subst hax
      obtain rfl : k.next = b := by simpa [Connections.create, updateSocket] using hb
      refine ⟨show k.next < k.next + 1 by omega, ?_⟩
      simp [Connections.create, updateSocket, hnew, hne.symm, hkind, hstream]
    · have hold : (k.socket a).peer = some b := by
        simpa [Connections.create, updateSocket, hnew, hax] using hb
      have halive : k.Live a := by
        obtain ⟨h1, h2⟩ := ha
        have h1 : a < k.next + 1 := h1
        refine ⟨by omega, ?_⟩
        simpa [Connections.create, updateSocket, hnew, hax] using h2
      obtain ⟨hblt, hback, hmutual⟩ := h a b halive hold
      have hbx : b ≠ x := by
        rintro rfl
        rw [hpeer] at hback
        cases hback
      have hbnew : b ≠ k.next := by omega
      refine ⟨show b < k.next + 1 by omega, ?_⟩
      simpa [Connections.create, updateSocket, hnew, hax, hbx, hbnew] using ⟨hback, hmutual⟩

/-- The peers do not depend on the lists, the events and the threads. -/
theorem Paired.of_socket (hnext : k'.next = k.next) (hsocket : k'.socket = k.socket) : k'.Paired :=
  h.congr hnext (fun _ => by rw [hsocket]) (fun _ => by rw [hsocket]) fun _ => by rw [hsocket]

/-- `accept` of a listener keeps peers mutual if what it takes is fit for it. -/
theorem Paired.acceptTurn (hfresh : ∀ x, (k.links s).next = some x → x ≠ s → x < k.next ∧ (k.socket
    x).peer = none ∧ (k.socket x).kind = (k.socket s).kind ∧ (k.socket x).kind ≠ .datagram)
    (hturn : k.acceptTurn thread s nonblock = .ok k') : k'.Paired := by
  unfold Connections.acceptTurn at hturn
  by_cases hempty : (k.links s).next = some s
  · rw [if_pos hempty] at hturn
    by_cases hnonblock : nonblock = true
    · rw [if_pos hnonblock] at hturn
      rw [← Except.ok.inj hturn]
      exact h.of_socket rfl rfl
    · rw [if_neg hnonblock] at hturn
      rw [← Except.ok.inj hturn]
      exact h.of_socket (by simp) (by simp)
  · rw [if_neg hempty] at hturn
    cases hnext : (k.links s).next with
    | none =>
      rw [hnext] at hturn
      cases hturn
    | some x =>
      rw [hnext] at hturn hempty
      dsimp only at hturn
      have hx : x ≠ s := fun hx => hempty (congrArg some hx)
      obtain ⟨hlt, hpeer, hkind, hstream⟩ := hfresh x hnext hx
      cases hremove : k.links.remove x with
      | none =>
        rw [hremove] at hturn
        cases hturn
      | some links =>
        rw [hremove] at hturn
        rw [← Except.ok.inj hturn]
        have hlinks : ({ k with links } : Connections).Paired := h.of_socket rfl rfl
        exact (hlinks.accepted hlt hpeer hkind (hkind ▸ hstream)).of_socket (by simp [setPhase])
          (by simp [setPhase])

theorem Paired.step (hfresh : k.AcceptsFresh o) (hstep : k.step o = .ok k') : k'.Paired := by
  cases o with
  | create kind =>
    rw [← Except.ok.inj hstep]
    exact h.create rfl
  | socketpair kind =>
    rw [← Except.ok.inj hstep]
    exact h.socketpair kind
  | mknod path =>
    simp only [Connections.step] at hstep
    split_ifs at hstep
    rw [← Except.ok.inj hstep]
    exact h.of_socket rfl rfl
  | bind s path =>
    simp only [Connections.step] at hstep
    split_ifs at hstep <;> rw [← Except.ok.inj hstep]
    · exact h.of_socket rfl rfl
    · exact h
  | listen s backlog =>
    simp only [Connections.step] at hstep
    split_ifs at hstep <;> rw [← Except.ok.inj hstep]
    · exact h
    · refine h.congr rfl ?_ ?_ ?_ <;> intro a <;> by_cases has : a = s
      all_goals simp [updateSocket, has]
  | connect thread s path =>
    simp only [Connections.step] at hstep
    split_ifs at hstep
    split at hstep
    · unfold connectTo at hstep
      split_ifs at hstep
      · rw [← Except.ok.inj hstep]
        exact h
      · split at hstep
        · cases hstep
        · rw [← Except.ok.inj hstep]
          exact h.of_socket (by simp) (by simp)
    · rw [← Except.ok.inj hstep]
      exact h
  | accept thread s nonblock =>
    simp only [Connections.step] at hstep
    split_ifs at hstep
    exact h.acceptTurn (fun x => hfresh s x rfl) hstep
  | resume thread nonblock =>
    simp only [Connections.step] at hstep
    split at hstep
    · rw [← Except.ok.inj hstep]
      exact h.of_socket rfl rfl
    · rename_i s hphase
      refine h.acceptTurn (fun x => hfresh s x ?_) hstep
      simp only [accepts, hphase]
    · cases hstep
  | interrupt thread =>
    simp only [Connections.step] at hstep
    split at hstep
    · rw [← Except.ok.inj hstep]
      exact h.of_socket rfl rfl
    · rw [← Except.ok.inj hstep]
      exact h.of_socket rfl rfl
    · cases hstep
  | close s =>
    simp only [Connections.step] at hstep
    split_ifs at hstep with hlive
    rw [← Except.ok.inj hstep]
    exact h.closed hlive

end

/-- As long as `accept` takes sockets of the type of the listener that have no peer, peers are
    mutual, whatever the lists look like. -/
theorem peers_mutual (h : Run step AcceptsFresh {} k) : k.PeersMutual := by
  have hpaired : k.Paired := by
    refine h.invariant (fun k1 o k2 h1 hfresh hstep => h1.step hfresh hstep) ?_
    intro a b ha
    exact absurd ha.1 (Nat.not_lt_zero a)
  exact hpaired.peersMutual

theorem peers_mutual_pair : ∃ k : Connections, (k.socket 0).peer = some 1 ∧ k.PeersMutual := by
  obtain ⟨k, hrun, hpeer⟩ := exists_ok_of_map (f := fun k : Connections => (k.socket 0).peer)
    (show (([ConnectOp.socketpair .stream, .create .stream].foldlM step {}).map _) = .ok (some 1) by
      decide +kernel)
  exact ⟨k, hpeer, peers_mutual (Run.start.foldlM (by simp [AcceptsFresh, accepts]) hrun)⟩

/-! ## Without a connection that waits -/

/-- `thread` is in a call of `accept` on `s`. -/
def Accepting (k : Connections) (thread s : ℕ) : Prop :=
  k.phase thread = .asleep s .accept ∨ k.phase thread = .woken s .accept

theorem accepting_trigger {t a : ℕ} (h : (k.trigger s).Accepting t a) : k.Accepting t a := by
  unfold Accepting trigger at h
  split_ifs at h with hnone
  · exact h
  · dsimp only at h
    split_ifs at h with ht
    · cases hphase : k.phase t with
      | running =>
        rw [hphase] at h
        simp at h
      | woken i c =>
        rw [hphase] at h
        simp only [reduceCtorEq, false_or] at h
        exact .inr (hphase.trans h)
      | asleep i c =>
        rw [hphase] at h
        simp only [reduceCtorEq, ConnectPhase.woken.injEq, false_or] at h
        obtain ⟨rfl, rfl⟩ := h
        exact .inl hphase
    · exact h

theorem accepting_setPhase {t a : ℕ} {x : ConnectPhase} (h : (k.setPhase thread x).Accepting t a) :
    (x = .asleep a .accept ∨ x = .woken a .accept) ∨ k.Accepting t a := by
  unfold Accepting setPhase at h
  by_cases ht : t = thread
  · subst ht
    simp only [update_self] at h
    exact .inl h
  · simp only [update_of_ne ht] at h
    exact .inr h

theorem accepting_wait {t a : ℕ} {c : ConnectCall} (h : (k.wait thread s c).Accepting t a) :
    (a = s ∧ c = .accept) ∨ k.Accepting t a := by
  unfold wait at h
  split_ifs at h
  · refine (accepting_setPhase (x := .woken s c) h).imp_left ?_
    simp [eq_comm]
  · refine (accepting_setPhase (x := .asleep s c) h).imp_left ?_
    simp [eq_comm]

/-- `s` is a stream or seqpacket socket. -/
def Stream (k : Connections) (s : ℕ) : Prop := s < k.next ∧ (k.socket s).kind ≠ .datagram

/-- Nothing waits in the list of any socket. -/
structure Quiet (k : Connections) : Prop where
  uncounted : ∀ s, (k.socket s).numPending = 0#64
  alone : ∀ s, k.Stream s → k.links s = ⟨some s, some s⟩
  named : ∀ path s, k.entry path = some (.socket s) → s < k.next
  refusing : ∀ s, (k.socket s).listening = false → (k.socket s).maxPending = 0#64
  listens : ∀ s, (k.socket s).listening = true → k.Stream s
  accepting : ∀ thread s, k.Accepting thread s → k.Stream s

/-- A new socket is in no list. -/
theorem Quiet.create (h : k.Quiet) {x : LocalSocket} (hnum : x.numPending = 0#64)
    (hmax : x.maxPending = 0#64) (hlistening : x.listening = false) : (k.create x).Quiet := by
  have hold : ∀ s, s ≠ k.next → (k.create x).socket s = k.socket s := by
    intro s hs
    simp [Connections.create, hs]
  have hnew : (k.create x).socket k.next = x := by simp [Connections.create]
  have hstream : ∀ s, k.Stream s → (k.create x).Stream s := by
    intro s hs
    have hlt := hs.1
    refine ⟨show s < k.next + 1 by omega, ?_⟩
    rw [hold s (by omega)]
    exact hs.2
  refine ⟨?_, ?_, ?_, ?_, ?_, ?_⟩
  · intro s
    by_cases hs : s = k.next
    · rw [hs, hnew, hnum]
    · rw [hold s hs, h.uncounted]
  · intro s hs
    obtain ⟨hlt, hkind⟩ := hs
    have hlt : s < k.next + 1 := hlt
    by_cases hsn : s = k.next
    · subst hsn
      rw [hnew] at hkind
      simp [Connections.create, hkind, Links.init]
    · rw [hold s hsn] at hkind
      have hlinks : (k.create x).links s = k.links s := by
        by_cases hx : x.kind = .datagram <;> simp [Connections.create, hx, Links.init, hsn]
      rw [hlinks]
      exact h.alone s ⟨by omega, hkind⟩
  · intro path s hs
    exact Nat.lt_succ_of_lt (h.named path s hs)
  · intro s hs
    by_cases hsn : s = k.next
    · rw [hsn, hnew, hmax]
    · rw [hold s hsn] at hs ⊢
      exact h.refusing s hs
  · intro s hs
    by_cases hsn : s = k.next
    · rw [hsn, hnew, hlistening] at hs
      cases hs
    · rw [hold s hsn] at hs
      exact hstream s (h.listens s hs)
  · intro thread s hs
    exact hstream s (h.accepting thread s hs)

/-- Nothing waits in a list, and peers are mutual. -/
structure Idle (k : Connections) : Prop extends k.Quiet where
  paired : k.Paired

namespace Idle

section

variable (h : k.Idle)

include h

theorem ring (hlistens : (k.socket s).listening = true) : IsRing k.links s [] :=
  isRing_nil (h.alone s (h.listens s hlistens))

theorem ring_nil {queued : List ℕ} (hlistens : (k.socket s).listening = true)
    (hring : IsRing k.links s queued) : queued = [] := by
  have hhead := hring.head_next
  rw [h.alone s (h.listens s hlistens)] at hhead
  cases queued with
  | nil => rfl
  | cons a queued =>
    obtain rfl : s = a := by simpa using hhead
    exact absurd List.mem_cons_self (List.nodup_cons.mp hring.nodup).1

theorem consistent : k.Consistent where
  peers := h.paired.peersMutual
  queue := fun s hlistens => ⟨[], h.ring hlistens, by simp, by simp [h.uncounted], by simp⟩
  unique := fun s s' queued queued' a hlistens _ hring _ ha _ => by
    rw [h.ring_nil hlistens hring] at ha
    cases ha

/-- What concerns the lists is as before. -/
theorem congr (paired : k'.Paired) (hnext : k'.next = k.next) (hlinks : k'.links = k.links)
    (hkind : ∀ s, (k'.socket s).kind = (k.socket s).kind)
    (hnum : ∀ s, (k'.socket s).numPending = (k.socket s).numPending) (hbacklog : ∀ s, ((k'.socket
    s).listening = (k.socket s).listening ∧ (k'.socket s).maxPending = (k.socket s).maxPending) ∨
    ((k'.socket s).listening = true ∧ k.Stream s))
    (hnamed : ∀ path s, k'.entry path = some (.socket s) → s < k.next)
    (haccepting : ∀ thread s, k'.Accepting thread s → k.Stream s) : k'.Idle := by
  have hstream : ∀ s, k'.Stream s ↔ k.Stream s := by
    intro s
    unfold Stream
    rw [hnext, hkind]
  refine ⟨⟨?_, ?_, ?_, ?_, ?_, ?_⟩, paired⟩
  · intro s
    rw [hnum, h.uncounted]
  · intro s hs
    rw [hlinks]
    exact h.alone s ((hstream s).mp hs)
  · intro path s hs
    rw [hnext]
    exact hnamed path s hs
  · intro s hs
    rcases hbacklog s with ⟨hlistening, hmax⟩ | ⟨hlistening, -⟩
    · rw [hmax]
      exact h.refusing s (hlistening ▸ hs)
    · rw [hlistening] at hs
      cases hs
  · intro s hs
    rw [hstream]
    rcases hbacklog s with ⟨hlistening, -⟩ | ⟨-, hs'⟩
    · exact h.listens s (hlistening ▸ hs)
    · exact hs'
  · intro thread s hs
    rw [hstream]
    exact haccepting thread s hs

theorem of_socket (hnext : k'.next = k.next) (hlinks : k'.links = k.links)
    (hsocket : k'.socket = k.socket) (hentry : k'.entry = k.entry)
    (haccepting : ∀ thread s, k'.Accepting thread s → k.Stream s) : k'.Idle := by
  refine h.congr (h.paired.of_socket hnext hsocket) hnext hlinks ?_ ?_ ?_ ?_ haccepting
  · simp [hsocket]
  · simp [hsocket]
  · simp [hsocket]
  · rw [hentry]
    exact h.named

/-- A call that ends. -/
theorem running : (k.setPhase thread .running).Idle := by
  refine h.of_socket rfl rfl rfl rfl fun t a hta => ?_
  rcases accepting_setPhase hta with hrunning | hta
  · simp at hrunning
  · exact h.accepting t a hta

/-- With an empty list `accept` waits or fails. -/
theorem acceptTurn (hs : k.Stream s) (hturn : k.acceptTurn thread s nonblock = .ok k') :
    k'.Idle := by
  unfold Connections.acceptTurn at hturn
  rw [if_pos (by rw [h.alone s hs])] at hturn
  split_ifs at hturn <;> rw [← Except.ok.inj hturn]
  · exact h.running
  · refine h.of_socket (by simp) (by simp) (by simp) (by simp) fun t a hta => ?_
    rcases accepting_wait hta with ⟨rfl, -⟩ | hta
    · exact hs
    · exact h.accepting t a hta

/-- A socket that is put before itself in a ring of its own stays where it is. -/
theorem addBefore_self (hs : k.Stream s) : k.links.addBefore s s = some k.links := by
  have hself := h.alone s hs
  simp only [Links.addBefore, hself, Option.map_some, Option.some.injEq]
  funext a
  by_cases ha : a = s
  · subst ha
    simp [Links.setPrev, Links.setNext, hself]
  · simp [Links.setPrev, Links.setNext, ha]

theorem connectTo (hs : k.Stream s)
    (hroom : target = s ∨ (k.socket target).maxPending ≤ (k.socket target).numPending)
    (hconnect : k.connectTo thread s target = .ok k') : k'.Idle := by
  unfold Connections.connectTo at hconnect
  split_ifs at hconnect with hdatagram hfull
  · rw [← Except.ok.inj hconnect]
    exact h
  · obtain rfl : target = s := hroom.resolve_right hfull
    rw [h.addBefore_self hs] at hconnect
    rw [← Except.ok.inj hconnect]
    refine h.of_socket (by simp) (by simp) (by simp) (by simp) fun t a hta => ?_
    rcases accepting_wait hta with ⟨-, hc⟩ | hta
    · cases hc
    · exact h.accepting t a (accepting_trigger hta)

theorem acceptTurn_returns (hs : k.Stream s) : ∃ k', k.acceptTurn thread s nonblock = .ok k' := by
  unfold Connections.acceptTurn
  rw [if_pos (by rw [h.alone s hs])]
  split_ifs
  · exact ⟨_, rfl⟩
  · exact ⟨_, rfl⟩

theorem step_returns (hqueue : ¬k.Queues o) (hpossible : k.step o ≠ .error .impossible) :
    ∃ k', k.step o = .ok k' := by
  cases o with
  | create | socketpair => exact ⟨_, rfl⟩
  | mknod | bind | listen | close =>
    simp only [Connections.step] at hpossible ⊢
    split_ifs at hpossible ⊢
    all_goals first | exact ⟨_, rfl⟩ | exact absurd rfl hpossible
  | connect thread s path =>
    simp only [Connections.step] at hpossible ⊢
    split_ifs at hpossible ⊢ with hcall
    · exact absurd rfl hpossible
    push Not at hcall
    obtain ⟨hlive, -, hkind⟩ := hcall
    split
    · rename_i target hentry
      unfold Connections.connectTo
      by_cases hself : target = s
      · subst hself
        rw [if_neg hkind, h.addBefore_self ⟨hlive.1, hkind⟩]
        split_ifs
        · exact ⟨_, rfl⟩
        · exact ⟨_, rfl⟩
      · have hroom : ¬((k.socket target).kind = .datagram ∨ (k.socket target).numPending <
            (k.socket target).maxPending) := fun hcast => hqueue ⟨target, hentry, hself, hcast⟩
        push Not at hroom
        rw [if_neg hroom.1, if_pos (BitVec.not_lt.mp hroom.2)]
        exact ⟨k, rfl⟩
    · exact ⟨k, rfl⟩
  | accept thread s nonblock =>
    simp only [Connections.step] at hpossible ⊢
    split_ifs at hpossible ⊢ with hcall
    · exact absurd rfl hpossible
    push Not at hcall
    exact h.acceptTurn_returns ⟨hcall.1.1, hcall.2.2⟩
  | resume thread nonblock =>
    simp only [Connections.step] at hpossible ⊢
    split at hpossible
    · exact ⟨_, rfl⟩
    · rename_i s hphase
      exact h.acceptTurn_returns (h.accepting thread s (.inr hphase))
    · exact absurd rfl hpossible
  | interrupt thread =>
    simp only [Connections.step] at hpossible ⊢
    split at hpossible
    · exact ⟨_, rfl⟩
    · exact ⟨_, rfl⟩
    · exact absurd rfl hpossible

theorem step (hqueue : ¬k.Queues o) (hstep : k.step o = .ok k') : k'.Idle := by
  cases o with
  | create kind =>
    rw [← Except.ok.inj hstep]
    exact ⟨h.toQuiet.create rfl rfl rfl, h.paired.create rfl⟩
  | socketpair kind =>
    rw [← Except.ok.inj hstep]
    exact ⟨(h.toQuiet.create rfl rfl rfl).create rfl rfl rfl, h.paired.socketpair kind⟩
  | mknod path =>
    simp only [Connections.step] at hstep
    split_ifs at hstep
    rw [← Except.ok.inj hstep]
    refine h.congr (h.paired.of_socket rfl rfl) rfl rfl (fun _ => rfl) (fun _ => rfl)
      (fun _ => .inl ⟨rfl, rfl⟩) (fun p a hp => ?_) h.accepting
    by_cases hpath : p = path
    · simp [hpath] at hp
    · exact h.named p a (by simpa [hpath] using hp)
  | bind s path =>
    simp only [Connections.step] at hstep
    split_ifs at hstep with hlive <;> rw [← Except.ok.inj hstep]
    · refine h.congr (h.paired.of_socket rfl rfl) rfl rfl (fun _ => rfl) (fun _ => rfl)
        (fun _ => .inl ⟨rfl, rfl⟩) (fun p a hp => ?_) h.accepting
      by_cases hpath : p = path
      · obtain rfl : s = a := by simpa [hpath] using hp
        exact hlive.1
      · exact h.named p a (by simpa [hpath] using hp)
    · exact h
  | listen s backlog =>
    have hpaired := h.paired.step (o := .listen s backlog) (by simp [AcceptsFresh, accepts]) hstep
    simp only [Connections.step] at hstep
    split_ifs at hstep with hlive hkind
    · rw [← Except.ok.inj hstep]
      exact h
    · have hk := Except.ok.inj hstep
      subst hk
      refine h.congr hpaired rfl rfl (fun a => ?_) (fun a => ?_) (fun a => ?_) h.named h.accepting
      · by_cases ha : a = s <;> simp [updateSocket, ha]
      · by_cases ha : a = s <;> simp [updateSocket, ha]
      · by_cases ha : a = s
        · subst ha
          exact .inr ⟨by simp [updateSocket], hlive.1, hkind⟩
        · exact .inl (by simp [updateSocket, ha])
  | connect thread s path =>
    simp only [Connections.step] at hstep
    split_ifs at hstep with hcall
    push Not at hcall
    obtain ⟨hlive, -, hkind⟩ := hcall
    cases hentry : k.entry path with
    | none =>
      rw [hentry] at hstep
      rw [← Except.ok.inj hstep]
      exact h
    | some node =>
      rw [hentry] at hstep
      cases node with
      | other =>
        rw [← Except.ok.inj hstep]
        exact h
      | socket target =>
        refine h.connectTo ⟨hlive.1, hkind⟩ ?_ hstep
        by_contra hroom
        push Not at hroom
        exact hqueue ⟨target, hentry, hroom.1, .inr (BitVec.not_le.mp hroom.2)⟩
  | accept thread s nonblock =>
    simp only [Connections.step] at hstep
    split_ifs at hstep with hcall
    push Not at hcall
    exact h.acceptTurn ⟨hcall.1.1, hcall.2.2⟩ hstep
  | resume thread nonblock =>
    simp only [Connections.step] at hstep
    split at hstep
    · rw [← Except.ok.inj hstep]
      exact h.running
    · rename_i s hphase
      exact h.acceptTurn (h.accepting thread s (.inr hphase)) hstep
    · cases hstep
  | interrupt thread =>
    simp only [Connections.step] at hstep
    split at hstep
    · rw [← Except.ok.inj hstep]
      exact h.running.of_socket rfl rfl rfl rfl h.running.accepting
    · rw [← Except.ok.inj hstep]
      exact h.running
    · cases hstep
  | close s =>
    have hpaired := h.paired.step (o := .close s) (by simp [AcceptsFresh, accepts]) hstep
    simp only [Connections.step] at hstep
    split_ifs at hstep with hlive
    have hk := Except.ok.inj hstep
    subst hk
    have hsocket := k.close_socket s
    obtain ⟨hnext, hlinks, hentry, hphase⟩ := k.close_frame s
    refine h.congr hpaired hnext hlinks (fun a => ?_) (fun a => ?_) (fun a => ?_) ?_ ?_
    · obtain ⟨peer, closed, ha⟩ := hsocket a
      rw [ha]
    · obtain ⟨peer, closed, ha⟩ := hsocket a
      rw [ha]
    · obtain ⟨peer, closed, ha⟩ := hsocket a
      rw [ha]
      exact .inl ⟨rfl, rfl⟩
    · rw [hentry]
      exact h.named
    · unfold Accepting
      rw [hphase]
      exact h.accepting

end

end Idle

/-- A socket that gets into the list of another one is not counted there. -/
theorem Idle.not_consistent (h : k.Idle) (hqueue : k.Queues o) (hstep : k.step o = .ok k') :
    ¬k'.Consistent := by
  intro hconsistent
  cases o with
  | connect thread s path =>
    obtain ⟨target, hentry, hne, hcast⟩ := hqueue
    simp only [Connections.step, hentry] at hstep
    split_ifs at hstep
    unfold Connections.connectTo at hstep
    split_ifs at hstep with hdatagram hfull
    · exact (BitVec.not_lt.mpr hfull) (hcast.resolve_left hdatagram)
    have hroom := hcast.resolve_left hdatagram
    have hlistening : (k.socket target).listening = true := by
      by_contra hno
      rw [h.refusing target (by simpa using hno)] at hroom
      exact absurd hroom BitVec.not_lt_zero
    have hnotin : s ∉ [target] := by simpa using hne.symm
    obtain ⟨links, hadd, hring, -⟩ := (h.ring hlistening).addBefore hnotin
    rw [hadd] at hstep
    have hk := Except.ok.inj hstep
    subst hk
    obtain ⟨queued, hqueued, -, hcount, -⟩ := hconsistent.queue target (by simpa using hlistening)
    have hnone : queued = [] := by
      simp only [wait_socket, trigger_socket, h.uncounted] at hcount
      exact List.length_eq_zero_iff.mp hcount
    have hhead := hqueued.head_next
    simp only [wait_links, trigger_links, hring.head_next, hnone] at hhead
    exact hne (by simpa using hhead.symm)
  | _ => exact hqueue

theorem idle_start : Idle {} where
  uncounted := fun _ => rfl
  alone := fun _ hs => absurd hs.1 (Nat.not_lt_zero _)
  named := fun _ _ h => by cases h
  refusing := fun _ _ => rfl
  listens := fun _ h => by cases h
  accepting := fun _ _ h => by simp [Accepting] at h
  paired := fun _ _ ha => absurd ha.1 (Nat.not_lt_zero _)

/-- **Main theorem.** As long as no connection is queued, and no datagram socket taken for one that
    has a list, peers are mutual and the lists, empty as they are, agree with their counts, and
    every step that can be taken returns. The first step that does so ends this. -/
theorem connections_consistent_iff (h : Run step (fun k o => ¬k.Queues o) {} k) :
    k.Consistent ∧ ∀ o, k.step o ≠ .error .impossible →
      ((∃ k', k.step o = .ok k' ∧ k'.Consistent) ↔ ¬k.Queues o) := by
  have hidle : k.Idle := h.invariant (fun k1 o k2 h1 hqueue hstep => h1.step hqueue hstep) idle_start
  refine ⟨hidle.consistent, fun o hpossible => ⟨?_, fun hqueue => ?_⟩⟩
  · rintro ⟨k', hstep, hconsistent⟩ hqueue
    exact hidle.not_consistent hqueue hstep hconsistent
  · obtain ⟨k', hstep⟩ := hidle.step_returns hqueue hpossible
    exact ⟨k', hstep, (hidle.step hqueue hstep).consistent⟩

/-- Of a pair one is closed. A listener without room refuses a connection, and the path of a
    datagram socket must not be connected to. -/
theorem connections_consistent_iff_refused : ∃ k : Connections, k.Consistent ∧
    (∃ k', k.step (.connect 0 3 7) = .ok k' ∧ k'.Consistent) ∧
    ¬∃ k', k.step (.connect 0 3 8) = .ok k' ∧ k'.Consistent := by
  obtain ⟨k, hrun, hread⟩ := exists_ok_of_map
    (f := fun k : Connections =>
      (decide (k.Queues (.connect 0 3 7)), decide (k.Queues (.connect 0 3 8)),
        (k.step (.connect 0 3 7)).isOk, (k.step (.connect 0 3 8)).map fun _ => ()))
    (show ((([.socketpair .seqpacket, .create .stream, .create .stream, .bind 2 7, .listen 2 0#32,
      .create .datagram, .bind 4 8, .close 0] : List ConnectOp).foldlM
        (guarded step (fun k o => ¬k.Queues o) .impossible) {}).map _) =
          .ok (false, true, true, .error .badCast) by
      decide +kernel)
  simp only [Prod.mk.injEq, decide_eq_false_iff_not, decide_eq_true_eq] at hread
  obtain ⟨hfree, hcast, hok, hbad⟩ := hread
  obtain ⟨hconsistent, hiff⟩ := connections_consistent_iff (Run.of_guarded hrun)
  refine ⟨k, hconsistent, (hiff _ fun himpossible => ?_).mpr hfree, fun hstep => ?_⟩
  · rw [himpossible] at hok
    cases hok
  · refine (hiff _ fun himpossible => ?_).mp hstep hcast
    rw [himpossible] at hbad
    cases hbad

/-- The listener has a backlog of one. What connects is in its list, and the count stays zero. -/
theorem queued_uncounted : ∃ k, Run step (fun _ _ => True) {} k ∧ IsRing k.links 0 [1] ∧
    (k.socket 0).maxPending = 1#64 ∧ (k.socket 0).numPending = 0#64 ∧ ¬k.Consistent := by
  obtain ⟨k, hrun, hread⟩ := exists_ok_of_map
    (f := fun k : Connections => (k.links 0, k.links 1, k.socket 0))
    (show ((([.create .stream, .bind 0 7, .listen 0 1#32, .create .stream, .connect 0 1 7] :
      List ConnectOp).foldlM step {}).map _) = .ok (⟨some 1, some 1⟩, ⟨some 0, some 0⟩,
        { kind := .stream, maxPending := 1#64, listening := true }) by decide +kernel)
  obtain ⟨h0, h1, hsocket⟩ : k.links 0 = ⟨some 1, some 1⟩ ∧ k.links 1 = ⟨some 0, some 0⟩ ∧
      k.socket 0 = { kind := .stream, maxPending := 1#64, listening := true } := by
    simpa using hread
  have hring : IsRing k.links 0 [1] := ⟨by simp [Linked, h0, h1], by simp⟩
  refine ⟨k, Run.start.foldlM (by simp) hrun, hring, by rw [hsocket], by rw [hsocket], fun h => ?_⟩
  obtain ⟨queued, hqueued, -, hcount, -⟩ := h.queue 0 (by rw [hsocket])
  have hnone : queued = [] := by simpa [hsocket] using hcount
  have hhead := hqueued.head_next
  simp [h0, hnone] at hhead

end Connections

end Fishix.Userland
