import Fishix.Common.Chunks
import Fishix.Net.Basic

/-!
# Sending IPv4 packets

Model of `lookup_route`, `ipv4_send_fragment` and `ipv4_send` (dev/net.cpp:17-28, 163-228). What an
interface does with a packet, and how it finds a hardware address, is a `Driver` with a state of its
own, and the page of `alloc_packet` is there. The number of fragments is one more than the largest
fragment goes into the packet, so that there is an empty one where it goes without a remainder.

* `IsFragment.fits`: the `ASSERT` of `alloc_packet` (dev/net.cpp:244, dev/virtio.cpp:324).
* `fragments_partition_iff`: what the fragments are, and when they partition the packet.
-/

namespace Fishix.Net

open BitVec (ofNat toNat_ofNat)

/-! ## Routes -/

/-- What of `Interface` (dev/net.hpp:121-127) is used to send and to receive. -/
structure Interface where
  mac : Mac := 0#48
  mtu : U64
  ipv4 : Ipv4
  ipv4PacketId : BitVec 32 := 0#32
  deriving DecidableEq

/-- The number of an interface. -/
abbrev InterfaceId := ℕ

/-- `Route` (dev/net.hpp:153-157). -/
structure Route where
  interface : Option InterfaceId := none
  destination : Ipv4 := 0#32
  netmask : Ipv4 := 0#32
  gateway : Ipv4 := 0#32
  metric : ℤ := 0x7fffffff
  deriving DecidableEq

/-- `lookup_route` (dev/net.cpp:17-28). -/
def lookupRoute (routes : List Route) (ip : Ipv4) : Route :=
  routes.foldl (fun chosen route =>
    if ip &&& route.netmask ≠ route.destination &&& route.netmask then chosen
    else if route.metric < chosen.metric then route else chosen) {}

/-! ## Fragments -/

/-- What `ipv4_send_fragment` puts into the page behind the Ethernet header. -/
structure Packet where
  header : Ipv4Header
  data : List U8
  deriving DecidableEq

/-- What an interface does. -/
structure Driver (σ : Type) where
  /-- `arp_lookup`. -/
  arpLookup : InterfaceId → Ipv4 → σ → Except NetErrno Mac × σ
  /-- `send_packet`, awaited. -/
  sendPacket : InterfaceId → Packet → Mac → σ → Except NetErrno Unit × σ

/-- `ipv4_send_fragment` (dev/net.cpp:163-183) up to `send_packet`. `data` is what is behind the
    pointer. -/
def ipv4SendFragment (i : Interface) (data : List U8) (fragmentLength fragmentOffset : U16)
    (isLastFragment : Bool) (targetIp : Ipv4) (packetId : U16) (protocol : U8) : Packet :=
  let header : Ipv4Header :=
    { versionAndHeaderLength := VERSION_AND_HEADER_LENGTH
      packetLength := fragmentLength + 20#16
      id := packetId
      timeToLive := 0xff#8
      protocol
      srcAddr := i.ipv4
      dstAddr := targetIp }
  let header := header.setFlagsAndFragOffset
    (if isLastFragment then 0#16 else FLAG_MORE_FRAGMENTS) fragmentOffset
  { header := { header with headerChecksum := header.computeHeaderChecksum }
    data := data.take fragmentLength.toNat }

/-- `max_fragment_length` (dev/net.cpp:212). -/
def maxFragmentLength (mtu : U64) : U64 := alignDown (mtu - 20#64) 8#64

/-- The loop of `ipv4_send` (dev/net.cpp:215-226) with `n` turns left. `fragment` is
    `ipv4_send_fragment` from an offset on. -/
def sendFragments {σ : Type} (send : Packet → σ → Except NetErrno Unit × σ)
    (fragment : U64 → Bool → Packet) (maxLength : U64) : ℕ → U64 → σ → Except NetErrno Unit × σ
  | 0, _, s => (.ok (), s)
  | n + 1, fragmentOffset, s =>
    match send (fragment fragmentOffset (n = 0)) s with
    | (.error e, s) => (.error e, s)
    | (.ok _, s) => sendFragments send fragment maxLength n (fragmentOffset + maxLength) s

/-- A store to a `be16` field. -/
def setBe16 (data : List U8) (offset : ℕ) (x : U16) : List U8 :=
  (data.set offset (x.extractLsb' 8 8)).set (offset + 1) (x.extractLsb' 0 8)

/-- The checksum that `ipv4_send` fills in (dev/net.cpp:204-209). -/
def fillChecksum (data : List U8) (srcAddr targetIp : Ipv4) (protocol : U8)
    (computeChecksum : Bool) : List U8 :=
  let checksum := ipv4TransportChecksum data srcAddr targetIp protocol (ofNat 16 data.length)
  if computeChecksum then
    if protocol = PROTOCOL_UDP then setBe16 data 6 checksum
    else if protocol = PROTOCOL_TCP then setBe16 data 16 checksum
    else data
  else data

/-- The interfaces and the routes. -/
structure Network where
  routingTable : List Route := []
  interface : InterfaceId → Interface

section Send

variable {σ : Type}

/-- The fragment that `ipv4_send` makes at an offset (dev/net.cpp:218-221). -/
def fragmentAt (i : Interface) (data : List U8) (targetIp : Ipv4) (protocol : U8)
    (fragmentOffset : U64) (isLastFragment : Bool) : Packet :=
  let length := ofNat 64 data.length
  let fragmentLength := min (maxFragmentLength i.mtu).toNat (length - fragmentOffset).toNat
  ipv4SendFragment i (data.drop fragmentOffset.toNat) (ofNat 16 fragmentLength)
    (fragmentOffset.setWidth 16) isLastFragment targetIp (i.ipv4PacketId.setWidth 16) protocol

/-- `ipv4_send` (dev/net.cpp:185-228). -/
def ipv4Send (d : Driver σ) (net : Network) (s : σ) (data : List U8) (targetIp : Ipv4)
    (protocol : U8) (computeChecksum : Bool) : Except NetErrno Unit × Network × σ :=
  if targetIp = broadcastIpv4 then (.error .hostUnreachable, net, s)
  else
    let route := lookupRoute net.routingTable targetIp
    match route.interface with
    | none => (.error .hostUnreachable, net, s)
    | some k =>
      match d.arpLookup k (if route.gateway ≠ 0#32 then route.gateway else targetIp) s with
      | (.error e, s) => (.error e, net, s)
      | (.ok targetMac, s) =>
        let i := net.interface k
        let data := fillChecksum data i.ipv4 targetIp protocol computeChecksum
        let net := { net with
          interface := Function.update net.interface k
            { i with ipv4PacketId := i.ipv4PacketId + 1#32 } }
        let length := ofNat 64 data.length
        let maxLength := maxFragmentLength i.mtu
        let numFragments := length / maxLength + 1#64
        let (r, s) := sendFragments (d.sendPacket k · targetMac)
          (fragmentAt i data targetIp protocol) maxLength numFragments.toNat 0#64 s
        (r, net, s)

/-- The driver with a list of the packets that it is handed. -/
def Driver.logged (d : Driver σ) : Driver (σ × List Packet) where
  arpLookup k ip s :=
    let (r, s') := d.arpLookup k ip s.1
    (r, s', s.2)
  sendPacket k p mac s :=
    let (r, s') := d.sendPacket k p mac s.1
    (r, s', s.2 ++ [p])

end Send

/-! ## What fragments are to be -/

/-- The packets partition `data`, which goes to an interface with the given `mtu`. -/
structure Partition (data : List U8) (mtu : ℕ) (packets : List Packet) : Prop where
  nonempty : ∀ p ∈ packets, p.data ≠ []
  whole : (packets.map Packet.data).flatten = data
  offset : ∀ i p, packets[i]? = some p →
    p.header.getFragOffset.toNat = ((packets.take i).map (·.data.length)).sum
  aligned : ∀ p ∈ packets, p.header.getFragOffset.toNat % 8 = 0
  length : ∀ p ∈ packets, p.header.packetLength.toNat = p.data.length + 20
  fits : ∀ p ∈ packets, p.header.packetLength.toNat ≤ mtu
  flags : ∀ i p, packets[i]? = some p →
    p.header.getFlags = if i + 1 < packets.length then FLAG_MORE_FRAGMENTS else 0#16
  sameId : ∀ p ∈ packets, ∀ q ∈ packets, p.header.id = q.header.id
  single : data.length + 20 ≤ mtu → packets.length = 1

/-- The length of the packet is no multiple of the largest fragment, and the packet is not one that
    fits in `mtu` and has more than the largest fragment. -/
def Divides (length : ℕ) (mtu : U64) : Prop :=
  length % (maxFragmentLength mtu).toNat ≠ 0 ∧
    (length + 20 ≤ mtu.toNat → length < (maxFragmentLength mtu).toNat)

instance (length : ℕ) (mtu : U64) : Decidable (Divides length mtu) :=
  inferInstanceAs (Decidable (_ ∧ _))

/-! ## The packets that the loop hands over -/

theorem sendFragments_logged {σ : Type} {d : Driver σ} {k : InterfaceId} {mac : Mac}
    {fragment : U64 → Bool → Packet} {maxLength : U64} :
    ∀ {n : ℕ} {offset : U64} {s s' : σ} {log log' : List Packet},
      sendFragments (d.logged.sendPacket k · mac) fragment maxLength n offset (s, log) =
        (.ok (), s', log') →
      log' = log ++ (List.range n).map fun j =>
        fragment (offset + ofNat 64 j * maxLength) (j + 1 = n) := by
  intro n
  induction n with
  | zero =>
    intro offset s s' log log' h
    simp only [sendFragments, Prod.mk.injEq] at h
    simp [h.2.2]
  | succ n ih =>
    intro offset s s' log log' h
    simp only [sendFragments, Driver.logged] at h
    cases hsend : (d.sendPacket k (fragment offset (n = 0)) mac s).1 with
    | error e =>
      rw [hsend] at h
      cases h
    | ok u =>
      rw [hsend] at h
      rw [ih h, List.range_succ_eq_map, List.append_assoc, List.map_cons, List.map_map]
      congr 1
      refine congrArg₂ List.cons ?_ (List.map_congr_left fun j _ => ?_)
      · simp
      · show fragment (offset + maxLength + ofNat 64 j * maxLength) (j + 1 = n) =
          fragment (offset + ofNat 64 (j + 1) * maxLength) (j + 1 + 1 = n + 1)
        congr 1
        · rw [BitVec.ofNat_add, BitVec.add_mul, BitVec.one_mul, BitVec.add_assoc,
            BitVec.add_comm maxLength]
        · simp

variable {i : Interface} {data : List U8} {targetIp : Ipv4} {protocol : U8}

theorem toNat_maxFragmentLength {mtu : U64} (h : 28 ≤ mtu.toNat) :
    (maxFragmentLength mtu).toNat = (mtu.toNat - 20) / 8 * 8 := by
  have hsub : (mtu - 20#64).toNat = mtu.toNat - 20 := by
    rw [BitVec.toNat_sub_of_le (BitVec.le_def.mpr (by simpa using by omega))]
    rfl
  rw [maxFragmentLength, toNat_alignDown_eq, hsub]
  rfl

/-- A fragment of the packet: the piece number `j`. -/
structure IsFragment (i : Interface) (data : List U8) (j : ℕ) (isLast : Bool) (p : Packet) :
    Prop where
  data : p.data = chunk data (maxFragmentLength i.mtu).toNat j
  offset : p.header.getFragOffset.toNat = j * (maxFragmentLength i.mtu).toNat
  length : p.header.packetLength.toNat = p.data.length + 20
  flags : p.header.getFlags = if isLast then 0#16 else FLAG_MORE_FRAGMENTS
  id : p.header.id = i.ipv4PacketId.setWidth 16

/-- What `alloc_packet` asserts of a fragment. -/
theorem IsFragment.fits {j : ℕ} {isLast : Bool} {p : Packet} (hp : IsFragment i data j isLast p)
    (h : 28 ≤ i.mtu.toNat) : p.data.length + 20 ≤ i.mtu.toNat := by
  have hmax := toNat_maxFragmentLength h
  rw [hp.data, length_chunk]
  omega

theorem fragmentAt_isFragment (h : 28 ≤ i.mtu.toNat) (hlength : data.length ≤ 65515) {j : ℕ}
    (hj : j * (maxFragmentLength i.mtu).toNat ≤ data.length) (isLast : Bool) :
    IsFragment i data j isLast (fragmentAt i data targetIp protocol
      (0#64 + ofNat 64 j * maxFragmentLength i.mtu) isLast) := by
  have hmax := toNat_maxFragmentLength h
  have hoffset : (0#64 + ofNat 64 j * maxFragmentLength i.mtu).toNat =
      j * (maxFragmentLength i.mtu).toNat := by
    have hle : j ≤ j * (maxFragmentLength i.mtu).toNat := Nat.le_mul_of_pos_right j (by omega)
    rw [BitVec.zero_add, BitVec.toNat_mul, toNat_ofNat, Nat.mod_eq_of_lt (a := j) (by omega),
      Nat.mod_eq_of_lt (by omega)]
  have hlen : min (maxFragmentLength i.mtu).toNat (ofNat 64 data.length -
      (0#64 + ofNat 64 j * maxFragmentLength i.mtu)).toNat =
      (chunk data (maxFragmentLength i.mtu).toNat j).length := by
    have hdata : (ofNat 64 data.length).toNat = data.length := by
      rw [toNat_ofNat]
      exact Nat.mod_eq_of_lt (by omega)
    rw [BitVec.toNat_sub_of_le (by rw [BitVec.le_def]; omega), hdata, hoffset, length_chunk]
  have hshort : (chunk data (maxFragmentLength i.mtu).toNat j).length ≤ 65515 := by
    rw [length_chunk]
    omega
  have hfragment : (ofNat 16 (chunk data (maxFragmentLength i.mtu).toNat j).length).toNat =
      (chunk data (maxFragmentLength i.mtu).toNat j).length := by
    rw [toNat_ofNat]
    exact Nat.mod_eq_of_lt (by omega)
  have hdata : (fragmentAt i data targetIp protocol
      (0#64 + ofNat 64 j * maxFragmentLength i.mtu) isLast).data =
        chunk data (maxFragmentLength i.mtu).toNat j := by
    simp only [fragmentAt, ipv4SendFragment, hlen, hfragment, hoffset]
    rw [length_chunk, chunk, List.take_eq_take_iff, List.length_drop]
    omega
  have hword : ((0#64 + ofNat 64 j * maxFragmentLength i.mtu).setWidth 16).toNat =
      j * (maxFragmentLength i.mtu).toNat := by
    rw [BitVec.toNat_setWidth, hoffset]
    exact Nat.mod_eq_of_lt (by omega)
  refine ⟨hdata, ?_, ?_, ?_, rfl⟩
  · have hunits : ((0#64 + ofNat 64 j * maxFragmentLength i.mtu).setWidth 16).toNat % 8 =
        0 := by
      rw [hword, hmax, ← Nat.mul_assoc]
      exact Nat.mul_mod_left _ 8
    rw [← hword]
    exact congrArg BitVec.toNat (Ipv4Header.getFragOffset_set (h := {}) hunits)
  · rw [hdata]
    simp only [fragmentAt, ipv4SendFragment, hlen, Ipv4Header.setFlagsAndFragOffset]
    rw [BitVec.toNat_add, hfragment, show (20#16).toNat = 20 from rfl]
    exact Nat.mod_eq_of_lt (by omega)
  · exact Ipv4Header.getFlags_set (h := {}) (by cases isLast <;> decide)

theorem ipv4Send_packets {σ : Type} {d : Driver σ} {net net' : Network} {k : InterfaceId}
    {s s' : σ} {computeChecksum : Bool} {packets : List Packet}
    (hk : (lookupRoute net.routingTable targetIp).interface = some k)
    (h : ipv4Send d.logged net (s, []) data targetIp protocol computeChecksum =
      (.ok (), net', s', packets)) :
    let sent := fillChecksum data (net.interface k).ipv4 targetIp protocol computeChecksum
    let m := maxFragmentLength (net.interface k).mtu
    let n := (ofNat 64 sent.length / m + 1#64).toNat
    packets = (List.range n).map fun j =>
      fragmentAt (net.interface k) sent targetIp protocol (0#64 + ofNat 64 j * m)
        (j + 1 = n) := by
  intro sent m n
  unfold ipv4Send at h
  simp only [hk, Driver.logged] at h
  split at h
  · cases h
  · cases harp : (d.arpLookup k (if (lookupRoute net.routingTable targetIp).gateway ≠ 0#32 then
        (lookupRoute net.routingTable targetIp).gateway else targetIp) s).1 with
    | error e =>
      rw [harp] at h
      cases h
    | ok mac =>
      rw [harp] at h
      simp only [Prod.mk.injEq] at h
      exact (sendFragments_logged (Prod.ext h.1 h.2.2)).trans (List.nil_append _)

@[simp] theorem length_fillChecksum (srcAddr : Ipv4) (computeChecksum : Bool) :
    (fillChecksum data srcAddr targetIp protocol computeChecksum).length = data.length := by
  unfold fillChecksum setBe16
  split_ifs <;> simp

theorem toNat_numFragments (hlength : data.length ≤ 65515) :
    (ofNat 64 data.length / maxFragmentLength i.mtu + 1#64).toNat =
      data.length / (maxFragmentLength i.mtu).toNat + 1 := by
  have hdata : (ofNat 64 data.length).toNat = data.length := by
    rw [toNat_ofNat]
    exact Nat.mod_eq_of_lt (by omega)
  have hle := Nat.div_le_self data.length (maxFragmentLength i.mtu).toNat
  rw [BitVec.toNat_add, BitVec.toNat_udiv, hdata, show (1#64).toNat = 1 from rfl]
  exact Nat.mod_eq_of_lt (by omega)

/-- There are one more of the fragments than of the largest pieces in the packet. -/
theorem partition_iff {packets : List Packet} (h : 28 ≤ i.mtu.toNat)
    (hpackets : packets.length = data.length / (maxFragmentLength i.mtu).toNat + 1)
    (hfragment : ∀ j p, packets[j]? = some p → IsFragment i data j (j + 1 = packets.length) p) :
    Partition data i.mtu.toNat packets ↔ Divides data.length i.mtu := by
  have hmax := toNat_maxFragmentLength h
  unfold Divides
  generalize hm : (maxFragmentLength i.mtu).toNat = m at hpackets hmax ⊢
  have hpos : 0 < m := by omega
  have hdiv : data.length / m * m + data.length % m = data.length := Nat.div_add_mod' _ _
  have hmod : data.length % m < m := Nat.mod_lt _ hpos
  have hbefore : ∀ j < packets.length, j * m ≤ data.length / m * m := by
    intro j hj
    exact Nat.mul_le_mul_right m (by omega)
  have hmap : packets.map Packet.data = (List.range packets.length).map (chunk data m) := by
    apply List.ext_getElem (by simp)
    intro j hj _
    rw [List.length_map] at hj
    rw [List.getElem_map, List.getElem_map, List.getElem_range, ← hm]
    exact (hfragment j _ (List.getElem?_eq_getElem hj)).data
  have hindex : ∀ p ∈ packets, ∃ j < packets.length,
      IsFragment i data j (j + 1 = packets.length) p := by
    intro p hp
    obtain ⟨j, hj⟩ := List.mem_iff_getElem?.mp hp
    exact ⟨j, (List.getElem?_eq_some_iff.mp hj).1, hfragment j p hj⟩
  constructor
  · intro hpartition
    constructor
    · -- the last fragment is what is left behind the largest pieces
      have hlast : packets.length - 1 < packets.length :=
        Nat.sub_lt (hpackets ▸ Nat.succ_pos _) Nat.one_pos
      have hp := hfragment _ _ (List.getElem?_eq_getElem hlast)
      have hne := hpartition.nonempty _ (List.getElem_mem hlast)
      rw [hp.data, hm, chunk_ne_nil_iff data m hpos, hpackets, Nat.add_sub_cancel] at hne
      omega
    · intro hfits
      have hone := hpartition.single hfits
      rw [hpackets] at hone
      exact (Nat.div_eq_zero_iff_lt hpos).mp (Nat.succ.inj hone)
  · rintro ⟨hrest, hshort⟩
    constructor
    · intro p hp
      obtain ⟨j, hj, hp⟩ := hindex p hp
      have := hbefore j hj
      rw [hp.data, hm, chunk_ne_nil_iff data m hpos]
      omega
    · rw [hmap, flatten_chunks_of_le]
      rw [hpackets, Nat.succ_mul]
      omega
    · intro j p hp
      have hj : j < packets.length := (List.getElem?_eq_some_iff.mp hp).1
      have hle := hbefore j hj
      have htake : (packets.take j).map (·.data.length) =
          (List.range j).map fun i => (chunk data m i).length := by
        have hmap' := congrArg (fun l => (l.take j).map List.length) hmap
        simpa [← List.map_take, List.map_map, Function.comp_def, List.take_range,
          Nat.min_eq_left hj.le] using hmap'
      rw [htake, sum_length_chunks data m (by omega), (hfragment j p hp).offset, hm]
    · intro p hp
      obtain ⟨j, hj, hp⟩ := hindex p hp
      rw [hp.offset, hm, hmax, ← Nat.mul_assoc]
      exact Nat.mul_mod_left _ 8
    · intro p hp
      obtain ⟨j, hj, hp⟩ := hindex p hp
      exact hp.length
    · intro p hp
      obtain ⟨j, hj, hp⟩ := hindex p hp
      rw [hp.length]
      exact hp.fits h
    · intro j p hp
      have hj : j < packets.length := (List.getElem?_eq_some_iff.mp hp).1
      rw [(hfragment j p hp).flags]
      by_cases hlast : j + 1 = packets.length
      · simp [hlast]
      · rw [if_neg (by simpa using hlast), if_pos (by omega)]
    · intro p hp q hq
      obtain ⟨j, hj, hp⟩ := hindex p hp
      obtain ⟨j', hj', hq⟩ := hindex q hq
      rw [hp.id, hq.id]
    · intro hfits
      have := Nat.div_eq_of_lt (hshort hfits)
      omega

/-- **Main theorem.** The packets that a completed `ipv4_send` hands to an interface with an `mtu`
    of at least 28 partition the packet, exactly if it has a rest over the largest fragments and is
    not one that fits in `mtu` with more than the largest fragment. -/
theorem fragments_partition_iff {σ : Type} {d : Driver σ} {net net' : Network} {k : InterfaceId}
    {s s' : σ} {computeChecksum : Bool} {packets : List Packet}
    (hk : (lookupRoute net.routingTable targetIp).interface = some k)
    (hmtu : 28 ≤ (net.interface k).mtu.toNat) (hlength : data.length ≤ 65515)
    (h : ipv4Send d.logged net (s, []) data targetIp protocol computeChecksum =
      (.ok (), net', s', packets)) :
    Partition (fillChecksum data (net.interface k).ipv4 targetIp protocol computeChecksum)
      (net.interface k).mtu.toNat packets ↔ Divides data.length (net.interface k).mtu := by
  have hsent : (fillChecksum data (net.interface k).ipv4 targetIp protocol computeChecksum).length =
      data.length := length_fillChecksum _ _
  have hpackets := ipv4Send_packets hk h
  simp only [hsent] at hpackets
  have hcount := toNat_numFragments (i := net.interface k) hlength
  rw [← hsent]
  apply partition_iff hmtu
  · rw [hpackets, List.length_map, List.length_range, hcount, hsent]
  · intro j p hp
    have hj : j < packets.length := (List.getElem?_eq_some_iff.mp hp).1
    have hn : packets.length = (ofNat 64 data.length /
        maxFragmentLength (net.interface k).mtu + 1#64).toNat := by
      rw [hpackets, List.length_map, List.length_range]
    rw [hpackets, List.getElem?_map, List.getElem?_range (hn ▸ hj)] at hp
    rw [← Option.some.inj hp, ← hn]
    refine fragmentAt_isFragment hmtu (by rw [hsent]; exact hlength) ?_ _
    rw [hsent]
    refine le_trans (Nat.mul_le_mul_right _ ?_) (Nat.div_mul_le_self data.length _)
    omega

/-- An interface that takes every packet. -/
def openDriver : Driver Unit where
  arpLookup _ _ s := (.ok 0#48, s)
  sendPacket _ _ _ s := (.ok (), s)

/-- One interface with the given `mtu`, and a route to everything. -/
def oneInterface (mtu : U64) : Network where
  routingTable := [{ interface := some 0, metric := 100 }]
  interface _ := { mtu, ipv4 := ipv4 10 0 2 16 }

/-- A packet of `length` zeroes is sent. -/
def sendZeroes (mtu : U64) (length : ℕ) : Except NetErrno Unit × Network × Unit × List Packet :=
  ipv4Send openDriver.logged (oneInterface mtu) ((), []) (List.replicate length 0#8)
    (ipv4 10 0 2 2) 1#8 false

/-- The packets of a packet of `length` zeroes. -/
def sentPackets (mtu : U64) (length : ℕ) : List Packet := (sendZeroes mtu length).2.2.2

/-- Twenty bytes go in pieces of eight, the last one of four. -/
theorem fragments_partition_iff_rest :
    (sentPackets 28#64 20).map (fun p => (p.data.length, p.header.getFragOffset,
      p.header.getFlags)) = [(8, 0#16, 1#16), (8, 8#16, 1#16), (4, 16#16, 0#16)] ∧
    Partition (List.replicate 20 0#8) 28 (sentPackets 28#64 20) := by
  refine ⟨by decide +kernel, ?_⟩
  have hroute : (lookupRoute (oneInterface 28#64).routingTable (ipv4 10 0 2 2)).interface =
      some 0 := by decide +kernel
  have hok : (sendZeroes 28#64 20).1 = .ok () := by decide +kernel
  have hsend : sendZeroes 28#64 20 =
      (.ok (), (sendZeroes 28#64 20).2.1, (), sentPackets 28#64 20) := Prod.ext hok rfl
  exact (fragments_partition_iff hroute (by decide) (by decide) hsend).mpr (by decide +kernel)

/-- Sixteen bytes go in three fragments, the last one empty. -/
theorem empty_last_fragment :
    (sentPackets 28#64 16).map (·.data.length) = [8, 8, 0] ∧
      ¬Partition (List.replicate 16 0#8) 28 (sentPackets 28#64 16) := by
  have hlengths : (sentPackets 28#64 16).map (·.data.length) = [8, 8, 0] := by decide +kernel
  refine ⟨hlengths, fun hpartition => ?_⟩
  have hlast : 0 ∈ (sentPackets 28#64 16).map (·.data.length) := by
    rw [hlengths]
    decide
  obtain ⟨p, hp, hzero⟩ := List.mem_map.mp hlast
  exact hpartition.nonempty p hp (List.length_eq_zero_iff.mp hzero)

end Fishix.Net
