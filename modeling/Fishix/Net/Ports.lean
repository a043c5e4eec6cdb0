import Fishix.Net.Receive

/-!
# The UDP port table

Model of `alloc_port`, `free_port`, `bind`, `connect` and the start of `sendmsg`
(userland/socket/udp.cpp:10-33, 94-116, 159-171). `bind` takes the new port and writes the new
address before it gives back the port that the address names, which is then the new one. Where no
port of the range is free, `alloc_port` goes on with port zero. `FileDescription::close` leaves the
socket as it is: `VNode::decrement_ref_count` (fs/vfs.hpp:56) deletes nothing, and `~UdpSocket`
would not give back the port either.

* `allocPort_zero`: what an automatic port is.
* `step_iff`: when a step keeps the table and the sockets in agreement.
* `portTable_iff`: the runs in which they agree throughout.
-/

namespace Fishix.Net

open Function (update update_self update_of_ne update_apply)

def PORT_ALLOC_RANGE_START : ℕ := 32768
def PORT_ALLOC_RANGE_END : ℕ := 60999

/-- `InternetAddress` (userland/socket/socket.hpp:44-57). -/
structure InternetAddress where
  ip : Ipv4 := 0#32
  port : U16 := 0#16
  deriving DecidableEq

/-- What of `UdpSocket` (userland/socket/udp.hpp:7-24) is about addresses. A socket is open from
    `syscall_socket` to the last `close`. -/
structure UdpSocket where
  isOpen : Bool := false
  boundAddress : InternetAddress := {}
  connectedAddress : InternetAddress := {}
  hasPort : Bool := false
  isConnected : Bool := false
  deriving DecidableEq

/-- `port_table` and the sockets that were ever made, which are those below `next`. -/
structure Sockets where
  portTable : U16 → Option SocketId := fun _ => none
  socket : SocketId → UdpSocket := fun _ => {}
  next : SocketId := 0

/-- The ports that `alloc_port` tries. -/
def ephemeralPorts : List U16 :=
  (List.range' PORT_ALLOC_RANGE_START (PORT_ALLOC_RANGE_END - PORT_ALLOC_RANGE_START)).map
    (BitVec.ofNat 16)

namespace Sockets

/-- The loop of `alloc_port` leaves `chosen` zero if no port is free (udp.cpp:12-20). -/
def choosePort (n : Sockets) (chosen : U16) : U16 :=
  if chosen = 0#16 then (ephemeralPorts.find? fun i => (n.portTable i).isNone).getD 0#16
  else chosen

/-- `UdpSocket::alloc_port` (udp.cpp:10-24). -/
def allocPort (n : Sockets) (s : SocketId) (chosen : U16) : Except NetErrno U16 × Sockets :=
  let chosen := n.choosePort chosen
  if (n.portTable chosen).isSome then (.error .addrInUse, n)
  else (.ok chosen, { n with portTable := update n.portTable chosen (some s) })

def modify (n : Sockets) (s : SocketId) (f : UdpSocket → UdpSocket) : Sockets :=
  { n with socket := update n.socket s (f (n.socket s)) }

/-- `bound_address.port = ret; has_port = true;`. -/
def takePort (n : Sockets) (s : SocketId) (ret : U16) : Sockets :=
  n.modify s fun x =>
    { x with boundAddress := { x.boundAddress with port := ret }, hasPort := true }

/-- `UdpSocket::free_port` (udp.cpp:26-33). -/
def freePort (n : Sockets) (s : SocketId) : Sockets :=
  if (n.socket s).hasPort then
    { n with portTable := update n.portTable (n.socket s).boundAddress.port none }.modify s
      fun x => { x with boundAddress := { x.boundAddress with port := 0#16 }, hasPort := false }
  else n

/-- `UdpSocket::bind` (udp.cpp:98-109). -/
def bind (n : Sockets) (s : SocketId) (addr : InternetAddress) : Except NetErrno Unit × Sockets :=
  match n.allocPort s addr.port with
  | (.error e, n) => (.error e, n)
  | (.ok ret, n) =>
    let n := n.modify s fun x => { x with boundAddress := addr }
    (.ok (), (n.freePort s).takePort s ret)

/-- `UdpSocket::connect` (udp.cpp:111-116). -/
def connect (n : Sockets) (s : SocketId) (addr : InternetAddress) : Sockets :=
  n.modify s fun x => { x with connectedAddress := addr, isConnected := true }

/-- The port that `UdpSocket::sendmsg` sends from (udp.cpp:165-171). -/
def sendPort (n : Sockets) (s : SocketId) : Except NetErrno Unit × Sockets :=
  if (n.socket s).hasPort then (.ok (), n)
  else match n.allocPort s 0#16 with
    | (.error e, n) => (.error e, n)
    | (.ok ret, n) => (.ok (), n.takePort s ret)

end Sockets

/-- What is done with sockets. -/
inductive PortOp
  | create
  | bind (s : SocketId) (addr : InternetAddress)
  | connect (s : SocketId) (addr : InternetAddress)
  | sendmsg (s : SocketId)
  | close (s : SocketId)

/-- The socket that it is done with. -/
def PortOp.target : PortOp → Option SocketId
  | .create => none
  | .bind s _ | .connect s _ | .sendmsg s | .close s => some s

namespace Sockets

/-- A new socket is none of those there are, and a call with a descriptor of none finds none. -/
def step (n : Sockets) : PortOp → Sockets
  | .create =>
    { n with socket := update n.socket n.next { isOpen := true }, next := n.next + 1 }
  | .bind s addr => if (n.socket s).isOpen then (n.bind s addr).2 else n
  | .connect s addr => if (n.socket s).isOpen then n.connect s addr else n
  | .sendmsg s => if (n.socket s).isOpen then (n.sendPort s).2 else n
  | .close s => if (n.socket s).isOpen then n.modify s fun x => { x with isOpen := false } else n

/-- The step calls `alloc_port` without a port for this socket. -/
def AllocatesFor (n : Sockets) (s : SocketId) : PortOp → Prop
  | .bind s' addr => s' = s ∧ (n.socket s).isOpen ∧ addr.port = 0#16
  | .sendmsg s' => s' = s ∧ (n.socket s).isOpen ∧ ¬(n.socket s).hasPort
  | _ => False

end Sockets

/-! ## What the table is to be -/

/-- The socket is open and has this port. -/
def UdpSocket.Holds (x : UdpSocket) (p : U16) : Prop :=
  x.isOpen ∧ x.hasPort ∧ x.boundAddress.port = p

namespace Sockets

/-- The table and the sockets agree. -/
structure Agrees (n : Sockets) : Prop where
  table : ∀ p s, p ≠ 0#16 → (n.portTable p = some s ↔ (n.socket s).Holds p)
  zero : n.portTable 0#16 = none
  one : ∀ s p q, n.portTable p = some s → n.portTable q = some s → p = q

/-- An automatic port is one of the range that was free. -/
def AllocatesFree (n : Sockets) (o : PortOp) : Prop :=
  ∀ s, n.AllocatesFor s o → ∀ p, (n.allocPort s 0#16).1 = .ok p →
    PORT_ALLOC_RANGE_START ≤ p.toNat ∧ p.toNat < PORT_ALLOC_RANGE_END ∧ n.portTable p = none

/-- Table and sockets agree throughout the run, and so it is with the automatic ports. -/
def AgreesAll (n : Sockets) : List PortOp → Prop
  | [] => n.Agrees
  | o :: ops => n.Agrees ∧ n.AllocatesFree o ∧ (n.step o).AgreesAll ops

/-! ## When it is -/

/-- A port of the range is free. -/
def HasFree (n : Sockets) : Prop := ∃ p ∈ ephemeralPorts, n.portTable p = none

/-- A socket with a port is only bound again to a port that is taken, and is not closed; and an
    automatic port is only asked for while there is a free one. -/
def Allows (n : Sockets) : PortOp → Prop
  | .bind s addr => (n.socket s).isOpen →
    if (n.socket s).hasPort then addr.port ≠ 0#16 ∧ (n.portTable addr.port).isSome
    else addr.port = 0#16 → n.HasFree
  | .sendmsg s => (n.socket s).isOpen → ¬(n.socket s).hasPort → n.HasFree
  | .close s => (n.socket s).isOpen → ¬(n.socket s).hasPort
  | _ => True

def AllowsAll (n : Sockets) : List PortOp → Prop
  | [] => True
  | o :: ops => n.Allows o ∧ (n.step o).AllowsAll ops

end Sockets

variable {n : Sockets} {s : SocketId} {p chosen : U16} {addr : InternetAddress} {o : PortOp}

theorem mem_ephemeralPorts :
    p ∈ ephemeralPorts ↔ PORT_ALLOC_RANGE_START ≤ p.toNat ∧ p.toNat < PORT_ALLOC_RANGE_END := by
  unfold ephemeralPorts PORT_ALLOC_RANGE_START PORT_ALLOC_RANGE_END
  rw [List.mem_map]
  constructor
  · rintro ⟨k, hk, rfl⟩
    rw [List.mem_range'_1] at hk
    rw [BitVec.toNat_ofNat, Nat.mod_eq_of_lt (by omega)]
    omega
  · intro hp
    exact ⟨p.toNat, List.mem_range'_1.mpr (by omega),
      (BitVec.ofNat_toNat _ p).trans (BitVec.setWidth_eq p)⟩

namespace Sockets

/-- What `alloc_port` chooses by itself: a free port of the range, or zero if there is none. -/
theorem choosePort_zero : (n.choosePort 0#16 ∈ ephemeralPorts ∧
    n.portTable (n.choosePort 0#16) = none) ∨ (¬n.HasFree ∧ n.choosePort 0#16 = 0#16) := by
  unfold choosePort HasFree
  rw [if_pos rfl]
  cases hfind : ephemeralPorts.find? fun i => (n.portTable i).isNone with
  | some p =>
    exact .inl ⟨List.mem_of_find?_eq_some hfind, by simpa using List.find?_some hfind⟩
  | none =>
    refine .inr ⟨?_, rfl⟩
    rintro ⟨p, hp, hfree⟩
    simpa [hfree] using List.find?_eq_none.mp hfind p hp

theorem choosePort_of_ne (h : chosen ≠ 0#16) : n.choosePort chosen = chosen := if_neg h

theorem allocPort_free (h : n.portTable (n.choosePort chosen) = none) :
    n.allocPort s chosen = (.ok (n.choosePort chosen),
      { n with portTable := update n.portTable (n.choosePort chosen) (some s) }) := by
  unfold allocPort
  simp only [h, Option.isSome_none, Bool.false_eq_true, if_false]

theorem allocPort_taken (h : (n.portTable chosen).isSome) (hne : chosen ≠ 0#16) :
    n.allocPort s chosen = (.error .addrInUse, n) := by
  unfold allocPort
  rw [choosePort_of_ne hne, if_pos h]

/-! ## One step -/

/-- What holds throughout the runs in which table and sockets agree. -/
structure Sound (n : Sockets) : Prop extends n.Agrees where
  port : ∀ s, (n.socket s).hasPort → (n.socket s).boundAddress.port ≠ 0#16
  fresh : ∀ s, n.next ≤ s → (n.socket s).isOpen = false

variable (h : n.Sound)
include h

theorem Sound.lt_next (hopen : (n.socket s).isOpen) : s < n.next := by
  refine lt_of_not_ge fun hle => ?_
  rw [h.fresh s hle] at hopen
  cases hopen

/-- A step that leaves the table and what the sockets hold. -/
theorem Sound.keep {n' : Sockets} (htable : n'.portTable = n.portTable)
    (hholds : ∀ s p, (n'.socket s).Holds p ↔ (n.socket s).Holds p)
    (hport : ∀ s, (n'.socket s).hasPort → (n'.socket s).boundAddress.port ≠ 0#16)
    (hfresh : ∀ s, n'.next ≤ s → (n'.socket s).isOpen = false) : n'.Sound where
  table p s hp := by rw [htable, hholds, h.table p s hp]
  zero := by rw [htable, h.zero]
  one := by
    rw [htable]
    exact h.one
  port := hport
  fresh := hfresh

theorem Sound.take {x : UdpSocket} (hopen : (n.socket s).isOpen) (hnone : ¬(n.socket s).hasPort)
    (hp : p ≠ 0#16) (hfree : n.portTable p = none) (hx : x.Holds p) :
    Sound { n with portTable := update n.portTable p (some s),
                   socket := update n.socket s x } := by
  have hs : ∀ q, n.portTable q ≠ some s := by
    intro q hq
    have hne : q ≠ 0#16 := by
      rintro rfl
      rw [h.zero] at hq
      cases hq
    exact hnone ((h.table q s hne).mp hq).2.1
  have hlt := h.lt_next hopen
  constructor
  · constructor
    · intro q s' hq
      show update n.portTable p (some s) q = some s' ↔
        (update n.socket s x s').Holds q
      by_cases hqp : q = p
      · rw [hqp, update_self]
        by_cases hss : s' = s
        · rw [hss, update_self]
          exact iff_of_true rfl hx
        · rw [update_of_ne hss, ← h.table p s' hp, hfree]
          exact iff_of_false (fun he => hss (Option.some.inj he).symm) nofun
      · rw [update_of_ne hqp]
        by_cases hss : s' = s
        · rw [hss, update_self]
          exact iff_of_false (hs q) fun hx' => hqp (hx'.2.2.symm.trans hx.2.2)
        · rw [update_of_ne hss, h.table q s' hq]
    · show update n.portTable p (some s) 0#16 = none
      rw [update_of_ne hp.symm, h.zero]
    · intro s' q q' hq hq'
      simp only [update_apply] at hq hq'
      split_ifs at hq hq' with h1 h2
      · rw [h1, h2]
      · exact absurd (Option.some.inj hq ▸ hq') (hs q')
      · exact absurd (Option.some.inj hq' ▸ hq) (hs q)
      · exact h.one s' q q' hq hq'
  · intro s' hport
    simp only [update_apply] at hport ⊢
    split_ifs at hport ⊢ with hss
    · rw [hx.2.2]
      exact hp
    · exact h.port s' hport
  · intro s' hle
    show (update n.socket s x s').isOpen = false
    rw [update_of_ne (by rintro rfl; exact absurd hlt (not_lt_of_ge hle))]
    exact h.fresh s' hle

theorem Sound.free_zero : n.portTable (n.choosePort 0#16) = none := by
  rcases choosePort_zero with ⟨-, hfree⟩ | ⟨-, hzero⟩
  · exact hfree
  · rw [hzero, h.zero]

/-- `alloc_port` without a port keeps within the range exactly if there is a free port. -/
theorem Sound.allocPort_zero : (∀ p, (n.allocPort s 0#16).1 = .ok p →
    PORT_ALLOC_RANGE_START ≤ p.toNat ∧ p.toNat < PORT_ALLOC_RANGE_END ∧ n.portTable p = none) ↔
      n.HasFree := by
  have halloc : (n.allocPort s 0#16).1 = .ok (n.choosePort 0#16) := by
    rw [allocPort_free h.free_zero]
  rcases choosePort_zero (n := n) with ⟨hmem, hfree⟩ | ⟨hnone, hzero⟩
  · refine iff_of_true (fun p hp => ?_) ⟨_, hmem, hfree⟩
    rw [← Except.ok.inj (halloc.symm.trans hp)]
    exact ⟨(mem_ephemeralPorts.mp hmem).1, (mem_ephemeralPorts.mp hmem).2, hfree⟩
  · refine iff_of_false (fun hall => ?_) hnone
    have := (hall _ halloc).1
    rw [hzero] at this
    exact absurd this (by decide)

omit h in
theorem choosePort_ne (hfree : n.HasFree) : n.choosePort 0#16 ≠ 0#16 := by
  rcases choosePort_zero (n := n) with ⟨hmem, -⟩ | ⟨hnone, -⟩
  · intro hzero
    rw [hzero, mem_ephemeralPorts] at hmem
    exact absurd hmem.1 (by decide)
  · exact absurd hfree hnone

section

variable (hopen : (n.socket s).isOpen)

include hopen

theorem Sound.bind_first (hnone : ¬(n.socket s).hasPort) (hne : n.choosePort addr.port ≠ 0#16)
    (hfree : n.portTable (n.choosePort addr.port) = none) : (n.bind s addr).2.Sound := by
  unfold Sockets.bind
  rw [allocPort_free hfree]
  simp only [freePort, takePort, modify, update_self, hnone, Bool.false_eq_true, if_false,
    Function.update_idem]
  exact h.take hopen hnone hne hfree ⟨hopen, rfl, rfl⟩

/-- A socket with a port that is bound to another one has both in the table, or its old one
    alone. -/
theorem Sound.bind_again (hport : (n.socket s).hasPort)
    (hfree : n.portTable (n.choosePort addr.port) = none) : ¬(n.bind s addr).2.Agrees := by
  intro hagrees
  have hold := (h.table _ s (h.port s hport)).mpr ⟨hopen, hport, rfl⟩
  generalize hq : (n.socket s).boundAddress.port = q at hold
  have hqzero : q ≠ 0#16 := hq ▸ h.port s hport
  have hqnew : q ≠ n.choosePort addr.port := by
    rintro rfl
    rw [hfree] at hold
    cases hold
  have hqaddr : q ≠ addr.port := by
    by_cases hzero : addr.port = 0#16
    · rw [hzero]
      exact hqzero
    · rwa [choosePort_of_ne hzero] at hqnew
  unfold Sockets.bind at hagrees
  rw [allocPort_free hfree] at hagrees
  simp only [freePort, takePort, modify, update_self, hport, if_true,
    Function.update_idem] at hagrees
  have hholds := (hagrees.table q s hqzero).mp (by
    show update (update n.portTable _ (some s)) addr.port none q = some s
    rw [update_of_ne hqaddr, update_of_ne hqnew, hold])
  simp only [update_self] at hholds
  exact hqnew hholds.2.2.symm

theorem Sound.bind_iff :
    ((n.bind s addr).2.Agrees ∧ n.AllocatesFree (.bind s addr) ↔ n.Allows (.bind s addr)) ∧
      (n.Allows (.bind s addr) → (n.bind s addr).2.Sound) := by
  have hallocates : n.AllocatesFree (.bind s addr) ↔ (addr.port = 0#16 → n.HasFree) := by
    rw [← h.allocPort_zero (s := s)]
    exact ⟨fun hall hzero => hall s ⟨rfl, hopen, hzero⟩, fun hall s' hs' => by
      obtain ⟨rfl, -, hzero⟩ := hs'
      exact hall hzero⟩
  rw [hallocates]
  simp only [Allows, hopen, true_implies]
  by_cases htaken : addr.port ≠ 0#16 ∧ (n.portTable addr.port).isSome
  · -- the call fails
    have hbind : (n.bind s addr).2 = n := by
      unfold Sockets.bind
      rw [allocPort_taken htaken.2 htaken.1]
    rw [hbind]
    simp only [htaken, ne_eq, not_false_eq_true, and_self, false_implies, ite_self, iff_true,
      and_true, h, implies_true]
    exact h.toAgrees
  have hfree : n.portTable (n.choosePort addr.port) = none := by
    by_cases hzero : addr.port = 0#16
    · rw [hzero]
      exact h.free_zero
    · rw [choosePort_of_ne hzero]
      exact Option.not_isSome_iff_eq_none.mp fun hsome => htaken ⟨hzero, hsome⟩
  by_cases hport : (n.socket s).hasPort
  · simp only [hport, if_true, htaken, false_implies, and_true, iff_false, not_and]
    exact fun hagrees => absurd hagrees (h.bind_again hopen hport hfree)
  · have hsound : (addr.port = 0#16 → n.HasFree) → (n.bind s addr).2.Sound := by
      intro hallows
      refine h.bind_first hopen hport ?_ hfree
      by_cases hzero : addr.port = 0#16
      · rw [hzero]
        exact choosePort_ne (hallows hzero)
      · rwa [choosePort_of_ne hzero]
    simp only [hport, if_false, Bool.false_eq_true]
    exact ⟨⟨fun hboth => hboth.2, fun hallows => ⟨(hsound hallows).toAgrees, hallows⟩⟩, hsound⟩

theorem Sound.sendPort_iff :
    ((n.sendPort s).2.Agrees ∧ n.AllocatesFree (.sendmsg s) ↔ n.Allows (.sendmsg s)) ∧
      (n.Allows (.sendmsg s) → (n.sendPort s).2.Sound) := by
  have hallocates : n.AllocatesFree (.sendmsg s) ↔ (¬(n.socket s).hasPort → n.HasFree) := by
    rw [← h.allocPort_zero (s := s)]
    exact ⟨fun hall hport => hall s ⟨rfl, hopen, hport⟩, fun hall s' hs' => by
      obtain ⟨rfl, -, hport⟩ := hs'
      exact hall hport⟩
  rw [hallocates]
  simp only [Allows, hopen, true_implies]
  by_cases hport : (n.socket s).hasPort
  · simp only [sendPort, hport, if_true, not_true_eq_false, false_implies, and_true, iff_true, h,
      implies_true]
    exact h.toAgrees
  · have hsound : n.HasFree → (n.sendPort s).2.Sound := by
      intro hfree
      simp only [sendPort, hport, if_false, Bool.false_eq_true, allocPort_free h.free_zero]
      exact h.take hopen hport (choosePort_ne hfree) h.free_zero ⟨hopen, rfl, rfl⟩
    simp only [hport, Bool.false_eq_true, not_false_eq_true, true_implies]
    exact ⟨⟨fun hboth => hboth.2, fun hallows => ⟨(hsound hallows).toAgrees, hallows⟩⟩, hsound⟩

theorem Sound.close_iff :
    ((n.step (.close s)).Agrees ↔ n.Allows (.close s)) ∧
      (n.Allows (.close s) → (n.step (.close s)).Sound) := by
  have hsound : n.Allows (.close s) → (n.step (.close s)).Sound := by
    intro hallows
    have hport := hallows hopen
    simp only [step, hopen, if_true, modify]
    refine h.keep rfl (fun s' p => ?_) (fun s' => ?_) (fun s' hle => ?_)
    · simp only [update_apply]
      split_ifs with hss
      · rw [hss]
        exact iff_of_false (fun hx => nomatch hx.1) fun hx => hport hx.2.1
      · exact Iff.rfl
    · simp only [update_apply]
      split_ifs with hss
      · exact h.port s
      · exact h.port s'
    · simp only [update_apply]
      split_ifs with hss
      · rfl
      · exact h.fresh s' hle
  refine ⟨⟨fun hagrees _ hport => ?_, fun hallows => (hsound hallows).toAgrees⟩, hsound⟩
  -- the table keeps the port of a socket that is closed
  have hold := (h.table _ s (h.port s hport)).mpr ⟨hopen, hport, rfl⟩
  simp only [step, hopen, if_true, modify] at hagrees
  have hholds := (hagrees.table _ s (h.port s hport)).mp hold
  simp only [update_self] at hholds
  exact nomatch hholds.1

end

/-- When a step keeps table and sockets in agreement. -/
theorem Sound.step_iff :
    ((n.step o).Agrees ∧ n.AllocatesFree o ↔ n.Allows o) ∧ (n.Allows o → (n.step o).Sound) := by
  have hkeep : n.AllocatesFree o → (n.step o).Sound → n.Allows o →
      ((n.step o).Agrees ∧ n.AllocatesFree o ↔ n.Allows o) ∧ (n.Allows o → (n.step o).Sound) :=
    fun hfree hsound hallows =>
      ⟨iff_of_true ⟨hsound.toAgrees, hfree⟩ hallows, fun _ => hsound⟩
  have hclosed : ∀ s, o.target = some s → ¬(n.socket s).isOpen → n.step o = n ∧ n.Allows o ∧
      n.AllocatesFree o := by
    intro s htarget hopen
    cases o with
    | create => cases htarget
    | _ =>
      cases htarget
      refine ⟨if_neg hopen, by simp [Allows, hopen], ?_⟩
      rintro s' hs'
      simp [AllocatesFor] at hs' <;> (obtain ⟨rfl, hs', -⟩ := hs'; exact absurd hs' hopen)
  cases o with
  | create =>
    refine hkeep (fun _ => nofun) ?_ trivial
    have hnew : (n.socket n.next).isOpen = false := h.fresh n.next le_rfl
    refine h.keep rfl (fun s p => ?_) (fun s => ?_) (fun s hle => ?_)
    · simp only [step, update_apply]
      split_ifs with hss
      · rw [hss]
        exact iff_of_false (fun hx => nomatch hx.2.1) fun hx => nomatch hnew.symm.trans hx.1
      · exact Iff.rfl
    · simp only [step, update_apply]
      split_ifs
      · exact nofun
      · exact h.port s
    · simp only [step, update_apply] at hle ⊢
      rw [if_neg (Nat.ne_of_gt hle)]
      exact h.fresh s (Nat.le_of_succ_le hle)
  | bind s addr =>
    by_cases hopen : (n.socket s).isOpen
    · rw [show n.step (.bind s addr) = (n.bind s addr).2 from if_pos hopen]
      exact h.bind_iff hopen
    · obtain ⟨hstep, hallows, hfree⟩ := hclosed s rfl hopen
      exact hkeep hfree (hstep.symm ▸ h) hallows
  | connect s addr =>
    refine hkeep (fun _ => nofun) ?_ trivial
    by_cases hopen : (n.socket s).isOpen
    · rw [show n.step (.connect s addr) = n.connect s addr from if_pos hopen]
      unfold connect modify
      refine h.keep rfl (fun s' p => ?_) (fun s' => ?_) (fun s' hle => ?_)
      all_goals
        simp only [update_apply]
        split_ifs with hss
      · rw [hss]
        rfl
      · rfl
      · exact h.port s
      · exact h.port s'
      · exact hss ▸ h.fresh s' hle
      · exact h.fresh s' hle
    · rw [show n.step (.connect s addr) = n from if_neg hopen]
      exact h
  | sendmsg s =>
    by_cases hopen : (n.socket s).isOpen
    · rw [show n.step (.sendmsg s) = (n.sendPort s).2 from if_pos hopen]
      exact h.sendPort_iff hopen
    · obtain ⟨hstep, hallows, hfree⟩ := hclosed s rfl hopen
      exact hkeep hfree (hstep.symm ▸ h) hallows
  | close s =>
    by_cases hopen : (n.socket s).isOpen
    · have hclose := h.close_iff hopen
      refine ⟨⟨fun hboth => hclose.1.mp hboth.1, fun hallows => ?_⟩, hclose.2⟩
      exact ⟨hclose.1.mpr hallows, fun _ => nofun⟩
    · obtain ⟨hstep, hallows, hfree⟩ := hclosed s rfl hopen
      exact hkeep hfree (hstep.symm ▸ h) hallows

theorem Sound.agreesAll_iff {ops : List PortOp} : n.AgreesAll ops ↔ n.AllowsAll ops := by
  induction ops generalizing n with
  | nil => exact iff_of_true h.toAgrees trivial
  | cons o ops ih =>
    obtain ⟨hiff, hsound⟩ := h.step_iff (o := o)
    constructor
    · rintro ⟨-, hfree, hrest⟩
      have hagrees : (n.step o).Agrees := by
        cases ops with
        | nil => exact hrest
        | cons _ _ => exact hrest.1
      have hallows := hiff.mp ⟨hagrees, hfree⟩
      exact ⟨hallows, (ih (hsound hallows)).mp hrest⟩
    · rintro ⟨hallows, hrest⟩
      exact ⟨h.toAgrees, (hiff.mpr hallows).2, (ih (hsound hallows)).mpr hrest⟩

omit h

/-- Nothing is bound before there is a socket. -/
theorem sound_start : Sound {} where
  table _ _ _ := iff_of_false nofun fun hx => nomatch hx.1
  zero := rfl
  one _ _ _ := nofun
  port _ := nofun
  fresh _ _ := rfl

end Sockets

/-- **Main theorem.** Table and sockets agree in every state of a run, and every automatic port is
    one of the range that was free, exactly if no socket with a port is closed or bound anew, and
    no automatic port is asked for while there is none. -/
theorem portTable_iff (ops : List PortOp) :
    Sockets.AgreesAll {} ops ↔ Sockets.AllowsAll {} ops := Sockets.sound_start.agreesAll_iff

/-- A socket that is bound to port 7 and then to port 9 is in the table at 7 alone. One that is
    closed stays there. -/
theorem bound_twice :
    ¬Sockets.AgreesAll {} [.create, .bind 0 { port := 7#16 }, .bind 0 { port := 9#16 }] ∧
      ¬Sockets.AgreesAll {} [.create, .bind 0 { port := 7#16 }, .close 0] := by
  constructor
  · rintro ⟨-, -, -, -, -, -, hagrees⟩
    exact absurd ((hagrees.table 7#16 0 (by decide)).mp (by decide)).2.2 (by decide)
  · rintro ⟨-, -, -, -, -, -, hagrees⟩
    exact absurd ((hagrees.table 7#16 0 (by decide)).mp (by decide)).1 (by decide)

end Fishix.Net
