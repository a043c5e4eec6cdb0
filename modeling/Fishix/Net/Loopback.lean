import Fishix.Common.RingBuffer
import Fishix.Net.Ports

/-!
# Loopback

Model of `sendmsg` (userland/socket/udp.cpp:159-208), of the end of `udp_process` (lines 51-64), of
`LoopbackInterface` (dev/net.cpp:230-262) and of the routes that the boot makes (kernel.cpp:203-205,
dev/virtio.cpp:313-320). What the other interfaces do, how an address is resolved, and what is left
in a page that is allocated, is a parameter.

The route of the loopback interface has no destination, so that its mask leaves addresses that begin
with zero, and what is sent to 127.x.y.z goes to the gateway of a network device or nowhere.

* `lookupRoute_mem`: a route that is chosen is one of those that match.
* `not_delivers`: a datagram to 127.x.y.z is never delivered.
-/

namespace Fishix.Net

/-! ## The routes -/

/-- The `LoopbackInterface` is the first that is made. -/
def LOOPBACK : InterfaceId := 0

/-- `LoopbackInterface::LoopbackInterface` (dev/net.cpp:230-241). -/
def loopbackRoute : Route :=
  { interface := some LOOPBACK, netmask := ipv4 255 0 0 0, metric := 1 }

/-- What `NetDevice::init` adds (dev/virtio.cpp:314-320). -/
def deviceRoute (k : InterfaceId) : Route :=
  { interface := some k, gateway := ipv4 10 0 2 2, metric := 100 }

/-- The routes of a machine with so many network devices. -/
def bootRoutes (devices : ℕ) : List Route :=
  loopbackRoute :: (List.range devices).map fun k => deviceRoute (k + 1)

/-- The loopback interface. -/
def loopbackInterface : Interface := { mtu := 4082#64, ipv4 := ipv4 127 0 0 1 }

/-! ## Receiving -/

/-- The receive queues, and what there is besides. -/
structure Host (τ : Type) where
  queue : SocketId → RingBuffer UdpDatagram 256
  devices : τ

variable {τ σ : Type}

/-- The end of `udp_process` (udp.cpp:56-63): a full queue loses its oldest datagram. -/
def enqueue (q : RingBuffer UdpDatagram 256) (x : UdpDatagram) : RingBuffer UdpDatagram 256 :=
  let q := if q.isFull then (q.read 1).2 else q
  (q.write [x]).2

/-- What is not modelled here. -/
structure Surroundings (τ : Type) where
  /-- `arp_lookup` of any interface. -/
  arpLookup : InterfaceId → Ipv4 → Host τ → Except NetErrno Mac × Host τ
  /-- `NetDevice::send_packet`. -/
  sendPacket : InterfaceId → Packet → Mac → Host τ → Except NetErrno Unit × Host τ
  /-- The contents of the page that `alloc_packet` is given. -/
  page : Host τ → Memory
  /-- What is done with a frame that is no datagram. -/
  receive : Received → Host τ → Host τ

/-- The frame of `LoopbackInterface::alloc_packet` and `ipv4_send_fragment`: nobody writes the
    Ethernet header. -/
def loopbackFrame (page : Memory) (p : Packet) : Memory := fun k =>
  if k < 14 then page k else (p.header.bytes ++ p.data)[k - 14]?.getD (page k)

namespace Surroundings

variable (d : Surroundings τ) (i : Interface) (t : PortTables)

/-- `LoopbackInterface::send_packet` (dev/net.cpp:259-262). -/
def loopbackSend (p : Packet) (h : Host τ) : Except NetErrno Unit × Host τ :=
  match (ethProcess i t (loopbackFrame (d.page h) p)).value with
  | .datagram s x => (.ok (), { h with queue := Function.update h.queue s (enqueue (h.queue s) x) })
  | r => (.ok (), d.receive r h)

/-- The interfaces of the machine. -/
def driver : Driver (Host τ) where
  arpLookup := d.arpLookup
  sendPacket k p mac h := if k = LOOPBACK then d.loopbackSend i t p h else d.sendPacket k p mac h

end Surroundings

/-- The driver with a list of the interfaces that it was asked for. -/
def Driver.traced (d : Driver σ) : Driver (σ × List InterfaceId) where
  arpLookup k ip s :=
    let (r, s') := d.arpLookup k ip s.1
    (r, s', s.2 ++ [k])
  sendPacket k p mac s :=
    let (r, s') := d.sendPacket k p mac s.1
    (r, s', s.2 ++ [k])

/-! ## Sending -/

/-- What of a `msghdr` is used to send. -/
structure Msghdr where
  name : Option InternetAddress := none
  iov : List (List U8) := []

/-- Where it goes (udp.cpp:173-181). -/
def UdpSocket.sendTarget (x : UdpSocket) (hdr : Msghdr) : Except NetErrno InternetAddress :=
  match hdr.name with
  | some target => .ok target
  | none => if x.isConnected then .ok x.connectedAddress else .error .destAddrReq

/-- The buffer of `sendmsg` (udp.cpp:183-202). -/
def udpPacket (srcPort dstPort : U16) (data : List U8) : List U8 :=
  be16 srcPort ++ be16 dstPort ++ be16 (BitVec.ofNat 16 (data.length + 8)) ++ be16 0#16 ++ data

/-- `UdpSocket::sendmsg` (udp.cpp:159-208). -/
def sendmsg (d : Driver σ) (net : Network) (n : Sockets) (w : σ) (s : SocketId) (hdr : Msghdr) :
    Except NetErrno ℕ × Network × Sockets × σ :=
  match n.sendPort s with
  | (.error e, n) => (.error e, net, n, w)
  | (.ok _, n) =>
    match (n.socket s).sendTarget hdr with
    | .error e => (.error e, net, n, w)
    | .ok target =>
      let data := hdr.iov.flatten
      let buffer := udpPacket (n.socket s).boundAddress.port target.port data
      match ipv4Send d net w buffer target.ip PROTOCOL_UDP true with
      | (.error e, net, w) => (.error e, net, n, w)
      | (.ok _, net, w) => (.ok data.length, net, n, w)

/-- `sendmsg` of the socket `s` appends its datagram to the receive queue of `owner`, with nothing
    but the loopback interface. -/
def Delivers (d : Surroundings τ) (net : Network) (n : Sockets) (h : Host τ) (s owner : SocketId)
    (hdr : Msghdr) : Prop :=
  let d' := (d.driver (net.interface LOOPBACK) { udp := n.portTable }).traced
  let sent := sendmsg d' net n (h, []) s hdr
  let x : UdpDatagram :=
    { srcAddr := ipv4 127 0 0 1, srcPort := (sent.2.2.1.socket s).boundAddress.port,
      data := hdr.iov.flatten }
  sent.2.2.2.1.queue owner = enqueue (h.queue owner) x ∧ ∀ k ∈ sent.2.2.2.2, k = LOOPBACK

/-! ## Which route is chosen -/

/-- A route that is chosen is one of those that match. -/
theorem lookupRoute_mem (routes : List Route) (ip : Ipv4) : lookupRoute routes ip = {} ∨
    lookupRoute routes ip ∈ routes ∧ ip &&& (lookupRoute routes ip).netmask =
      (lookupRoute routes ip).destination &&& (lookupRoute routes ip).netmask := by
  unfold lookupRoute
  refine List.foldlRecOn routes _ (motive := fun chosen => chosen = {} ∨ chosen ∈ routes ∧
    ip &&& chosen.netmask = chosen.destination &&& chosen.netmask) (.inl rfl) ?_
  intro chosen hchosen route hroute
  by_cases hmatch : ip &&& route.netmask = route.destination &&& route.netmask
  · rw [if_neg (not_not.mpr hmatch)]
    split_ifs
    · exact .inr ⟨hroute, hmatch⟩
    · exact hchosen
  · rw [if_pos hmatch]
    exact hchosen

/-- What is sent to 127.x.y.z goes to a network device, or nowhere. -/
theorem lookupRoute_boot {devices : ℕ} {ip : Ipv4} (hip : ip &&& ipv4 255 0 0 0 = ipv4 127 0 0 0)
    {k : InterfaceId} (hk : (lookupRoute (bootRoutes devices) ip).interface = some k) :
    k ≠ LOOPBACK := by
  rcases lookupRoute_mem (bootRoutes devices) ip with hnone | ⟨hmem, hmatch⟩
  · rw [hnone] at hk
    cases hk
  generalize lookupRoute (bootRoutes devices) ip = route at hk hmem hmatch
  rcases List.mem_cons.mp hmem with rfl | hdevice
  · exact absurd (hip.symm.trans hmatch) (by decide)
  · obtain ⟨j, -, rfl⟩ := List.mem_map.mp hdevice
    rw [← Option.some.inj hk]
    exact Nat.succ_ne_zero j

/-! ## What is involved -/

theorem sendFragments_traced {d : Driver σ} {k : InterfaceId} {mac : Mac}
    {fragment : U64 → Bool → Packet} {maxLength : U64} : ∀ (n : ℕ) (offset : U64)
      (s : σ × List InterfaceId), s.2 <+:
        (sendFragments (d.traced.sendPacket k · mac) fragment maxLength n offset s).2.2 := by
  intro n
  induction n with
  | zero => exact fun _ s => List.prefix_rfl
  | succ n ih =>
    intro offset s
    have hsent : s.2 <+: (d.traced.sendPacket k (fragment offset (n = 0)) mac s).2.2 :=
      List.prefix_append _ _
    unfold sendFragments
    generalize d.traced.sendPacket k (fragment offset (n = 0)) mac s = sent at hsent ⊢
    obtain ⟨r, w⟩ := sent
    cases r with
    | error e => exact hsent
    | ok _ => exact hsent.trans (ih _ w)

theorem ipv4Send_traced (d : Driver σ) (net : Network) (s : σ) (data : List U8) (targetIp : Ipv4)
    (protocol : U8) (computeChecksum : Bool) :
    let sent := ipv4Send d.traced net (s, []) data targetIp protocol computeChecksum
    sent.2.2 = (s, []) ∨
      ∃ k, (lookupRoute net.routingTable targetIp).interface = some k ∧ k ∈ sent.2.2.2 := by
  intro sent
  by_cases hbroadcast : targetIp = broadcastIpv4
  · refine .inl ?_
    simp only [sent, ipv4Send, if_pos hbroadcast]
  cases hroute : (lookupRoute net.routingTable targetIp).interface with
  | none =>
    refine .inl ?_
    simp only [sent, ipv4Send, if_neg hbroadcast, hroute]
  | some k =>
    refine .inr ⟨k, rfl, ?_⟩
    simp only [sent, ipv4Send, if_neg hbroadcast, hroute]
    have hasked : k ∈ (d.traced.arpLookup k (if (lookupRoute net.routingTable targetIp).gateway ≠
        0#32 then (lookupRoute net.routingTable targetIp).gateway else targetIp) (s, [])).2.2 :=
      List.mem_append_right [] List.mem_cons_self
    generalize d.traced.arpLookup k _ (s, []) = found at hasked ⊢
    obtain ⟨r, w⟩ := found
    cases r with
    | error e => exact hasked
    | ok mac => exact (sendFragments_traced _ _ _).subset hasked

theorem sendTarget_sendPort {n : Sockets} {s : SocketId} (hdr : Msghdr) :
    ((n.sendPort s).2.socket s).sendTarget hdr = (n.socket s).sendTarget hdr := by
  unfold Sockets.sendPort
  split_ifs
  · rfl
  · unfold Sockets.allocPort
    dsimp only
    split_ifs
    · rfl
    · simp only [Sockets.takePort, Sockets.modify, Function.update_self]
      rfl

/-- The receive queue is another one after a datagram is appended. -/
theorem enqueue_ne (q : RingBuffer UdpDatagram 256) (x : UdpDatagram) : enqueue q x ≠ q := by
  have hwrite : ∀ b : RingBuffer UdpDatagram 256, b.isFull = false →
      (b.write [x]).2.writeIndex = b.writeIndex + 1#64 := by
    intro b hfull
    have hfree : b.freeCount ≠ 0#64 := by
      intro hzero
      unfold RingBuffer.freeCount at hzero
      have : b.isFull = true := by
        unfold RingBuffer.isFull
        rw [beq_iff_eq]
        exact (sub_eq_zero.mp hzero).symm
      rw [hfull] at this
      cases this
    have hpos : 0 < b.freeCount.toNat := by
      rw [Nat.pos_iff_ne_zero]
      exact fun hzero => hfree (BitVec.eq_of_toNat_eq hzero)
    show b.writeIndex + BitVec.ofNat 64 (min 1 b.freeCount.toNat) = _
    rw [Nat.min_eq_left hpos]
  have hindex : (enqueue q x).writeIndex = q.writeIndex + 1#64 := by
    unfold enqueue
    by_cases hfull : q.isFull = true
    · have hcount : q.dataCount = 256#64 := by
        unfold RingBuffer.isFull at hfull
        exact beq_iff_eq.mp hfull
      have hread : (q.read 1).2 = { q with readIndex := q.readIndex + 1#64 } := by
        unfold RingBuffer.read
        rw [hcount]
        rfl
      simp only [hfull, if_true, hread]
      apply hwrite
      unfold RingBuffer.isFull RingBuffer.dataCount
      unfold RingBuffer.dataCount at hcount
      rw [beq_eq_false_iff_ne, ← BitVec.sub_sub, hcount]
      decide
    · simp only [hfull, Bool.false_eq_true, if_false]
      exact hwrite q (Bool.eq_false_iff.mpr hfull)
  intro heq
  rw [heq] at hindex
  exact absurd (BitVec.self_eq_add_right.mp hindex) (by decide)

/-- **Main theorem.** A datagram to 127.x.y.z is delivered to no socket by the loopback interface
    alone, whatever the network devices are and do. -/
theorem not_delivers (d : Surroundings τ) {devices : ℕ} {interface : InterfaceId → Interface}
    {n : Sockets} {h : Host τ} {s owner : SocketId} {hdr : Msghdr} {target : InternetAddress}
    (htarget : (n.socket s).sendTarget hdr = .ok target)
    (hip : target.ip &&& ipv4 255 0 0 0 = ipv4 127 0 0 0) :
    ¬Delivers d { routingTable := bootRoutes devices, interface } n h s owner hdr := by
  rintro ⟨hqueue, hinvolved⟩
  generalize hd : (d.driver (interface LOOPBACK) { udp := n.portTable }).traced = d' at *
  -- nothing happens at all, or another interface is asked
  have hsent : (sendmsg d' { routingTable := bootRoutes devices, interface } n (h, []) s
      hdr).2.2.2 = (h, []) ∨ ∃ k, k ≠ LOOPBACK ∧ k ∈ (sendmsg d'
        { routingTable := bootRoutes devices, interface } n (h, []) s hdr).2.2.2.2 := by
    unfold sendmsg
    rw [← sendTarget_sendPort (n := n)] at htarget
    generalize n.sendPort s = port at htarget
    obtain ⟨r, n'⟩ := port
    cases r with
    | error e => exact .inl rfl
    | ok _ =>
      simp only [htarget]
      have htraced := ipv4Send_traced (d.driver (interface LOOPBACK) { udp := n.portTable })
        { routingTable := bootRoutes devices, interface } h
        (udpPacket (n'.socket s).boundAddress.port target.port hdr.iov.flatten) target.ip
        PROTOCOL_UDP true
      rw [hd] at htraced
      generalize ipv4Send d' _ (h, []) _ target.ip PROTOCOL_UDP true = sent at htraced ⊢
      obtain ⟨r, net', w⟩ := sent
      rcases htraced with hsame | ⟨k, hk, hmem⟩
      · cases r with
        | error e => exact .inl hsame
        | ok _ => exact .inl hsame
      · have hk := lookupRoute_boot hip hk
        cases r with
        | error e => exact .inr ⟨k, hk, hmem⟩
        | ok _ => exact .inr ⟨k, hk, hmem⟩
  rcases hsent with hsame | ⟨k, hk, hmem⟩
  · rw [hsame] at hqueue
    exact enqueue_ne _ _ hqueue.symm
  · exact hk (hinvolved k hmem)

/-- Nothing is resolved or sent but by the loopback interface, and the page that is allocated holds
    an Ethernet header. -/
def quietSurroundings : Surroundings Unit where
  arpLookup _ _ h := (.ok 0#48, h)
  sendPacket _ _ _ h := (.ok (), h)
  page _ k := if k = 12 then 8#8 else 0#8
  receive _ h := h

/-- Of two sockets one is bound to port 7. -/
def twoSockets : Sockets :=
  ((({} : Sockets).step .create).step .create).step (.bind 1 { port := 7#16 })

/-- Empty receive queues. -/
def emptyHost : Host Unit where
  queue _ := { data := fun _ => { srcAddr := 0#32, srcPort := 0#16, data := [] } }
  devices := ()

/-- Two bytes to port 7 of 127.0.0.1. -/
def greeting : Msghdr where
  name := some { ip := ipv4 127 0 0 1, port := 7#16 }
  iov := [[0x68#8, 0x69#8]]

/-- The other socket sends them along these routes. -/
def sendGreeting (routingTable : List Route) :
    Except NetErrno ℕ × Network × Sockets × Host Unit × List InterfaceId :=
  sendmsg (quietSurroundings.driver loopbackInterface { udp := twoSockets.portTable }).traced
    { routingTable, interface := fun _ => loopbackInterface } twoSockets (emptyHost, []) 0 greeting

/-- With a network device they are not delivered. -/
theorem not_delivers_greeting : ¬Delivers quietSurroundings
    { routingTable := bootRoutes 1, interface := fun _ => loopbackInterface } twoSockets emptyHost 0
    1 greeting := not_delivers quietSurroundings rfl (by decide)

/-- Without one they are sent nowhere. -/
theorem greeting_unreachable : (sendGreeting (bootRoutes 0)).1 = .error .hostUnreachable ∧
    ¬Delivers quietSurroundings
      { routingTable := bootRoutes 0, interface := fun _ => loopbackInterface } twoSockets emptyHost
      0 1 greeting := by
  refine ⟨by decide +kernel, fun h => ?_⟩
  exact absurd (congrArg RingBuffer.writeIndex h.1) (by decide +kernel)

/-- A route to 127.0.0.0 would deliver them. -/
example : (sendGreeting [{ loopbackRoute with destination := ipv4 127 0 0 0 }]).2.2.2.2 = [0, 0] ∧
    (((sendGreeting [{ loopbackRoute with destination := ipv4 127 0 0 0 }]).2.2.2.1.queue 1).read
      1).1 = [{ srcAddr := ipv4 127 0 0 1, srcPort := 32768#16, data := [0x68#8, 0x69#8] }] := by
  decide +kernel

end Fishix.Net
