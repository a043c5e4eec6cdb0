import Fishix.Net.Send

/-!
# The checksum of what has a checksum

`partial_checksum` (dev/net.cpp:106-116) adds up the words of a segment as they lie in memory, and
both checksums fold the carries, take the complement and swap its bytes. Stored in a `be16` the
bytes are swapped again, so that the word in memory is the complement: the sum of the whole is then
a multiple of `2 ^ 16 - 1` and not zero, and its complement is zero.

* `partialChecksum_toNat`: the sum modulo `2 ^ 32`.
* `finishChecksum_eq_zero_iff`, `word_finishChecksum`: what becomes of a sum, and how it is stored.
* `checksums_verify`: segments and headers.
-/

namespace Fishix.Net

/-! ## Sums of words -/

/-- The word that two bytes are in memory. -/
def wordOf (lo hi : U8) : ℕ := lo.toNat + 256 * hi.toNat

/-- The sum of the words, and of an odd byte behind them. -/
def wordSum : List U8 → ℕ
  | [] => 0
  | [b] => b.toNat
  | lo :: hi :: rest => wordOf lo hi + wordSum rest

/-- What `sum` is in the course of `partial_checksum`, not reduced. -/
def accumulators (sum : ℕ) : List U8 → List ℕ
  | [] => [sum]
  | [b] => [sum, sum + b.toNat]
  | lo :: hi :: rest => sum :: accumulators (sum + wordOf lo hi) rest

/-- The bytes in front of a segment (dev/net.cpp:126-132). -/
def pseudoHeader (srcAddr dstAddr : Ipv4) (protocol : U8) (count : U16) : List U8 :=
  be32 srcAddr ++ be32 dstAddr ++ [0#8, protocol] ++ be16 count

section Sums

variable {sum : ℕ} {bytes : List U8} {lo hi : U8}

theorem toNat_append (lo hi : U8) : (hi ++ lo : U16).toNat = wordOf lo hi := by
  have hlo := lo.isLt
  unfold wordOf
  rw [BitVec.toNat_append, Nat.shiftLeft_eq, Nat.mul_comm,
    ← Nat.two_pow_add_eq_or_of_lt hlo, Nat.add_comm]

theorem wordOf_le (lo hi : U8) : wordOf lo hi ≤ 65535 := by
  have hlo := lo.isLt
  have hhi := hi.isLt
  unfold wordOf
  omega

/-- The sum that the code computes is that of the words modulo `2 ^ 32`. -/
theorem partialChecksum_toNat (sum : BitVec 32) (bytes : List U8) :
    (partialChecksum sum bytes).toNat = (sum.toNat + wordSum bytes) % 2 ^ 32 := by
  induction bytes using wordSum.induct generalizing sum with
  | case1 =>
    rw [wordSum, Nat.add_zero, Nat.mod_eq_of_lt sum.isLt]
    rfl
  | case2 b =>
    have hb := b.isLt
    rw [partialChecksum, wordSum, BitVec.toNat_add, BitVec.toNat_setWidth]
    omega
  | case3 lo hi rest ih =>
    have hword := wordOf_le lo hi
    rw [partialChecksum, wordSum, ih, BitVec.toNat_add, BitVec.toNat_setWidth, toNat_append]
    omega

theorem wordSum_le (bytes : List U8) :
    wordSum bytes ≤ bytes.length / 2 * 65535 + bytes.length % 2 * 255 := by
  induction bytes using wordSum.induct with
  | case1 => exact Nat.zero_le _
  | case2 b =>
    have hb := b.isLt
    rw [wordSum]
    simp
    omega
  | case3 lo hi rest ih =>
    have hword := wordOf_le lo hi
    rw [wordSum, List.length_cons, List.length_cons]
    omega

theorem wordSum_append (rest : List U8) :
    ∀ {front : List U8}, front.length % 2 = 0 →
      wordSum (front ++ rest) = wordSum front + wordSum rest
  | [], _ => (Nat.zero_add _).symm
  | [_], h => absurd h (by simp)
  | lo :: hi :: front, h => by
    have hfront : front.length % 2 = 0 := by
      rw [List.length_cons, List.length_cons] at h
      omega
    rw [List.cons_append, List.cons_append, wordSum, wordSum, wordSum_append rest hfront,
      Nat.add_assoc]

theorem accumulators_le {n : ℕ} (h : n ∈ accumulators sum bytes) : n ≤ sum + wordSum bytes := by
  induction bytes using wordSum.induct generalizing sum with
  | case1 =>
    rw [accumulators, List.mem_singleton] at h
    rw [wordSum]
    omega
  | case2 b =>
    rw [accumulators, List.mem_cons, List.mem_singleton] at h
    rw [wordSum]
    omega
  | case3 lo hi rest ih =>
    rw [accumulators, List.mem_cons] at h
    rw [wordSum]
    rcases h with rfl | h
    · omega
    · have := ih h
      omega

end Sums

/-! ## What becomes of a sum -/

section Finish

variable {sum : BitVec 32}

/-- The loop over the carries keeps a sum modulo `2 ^ 16 - 1`, and whether it is zero. -/
theorem foldCarries_spec (fuel : ℕ) (h : 0 ≤ sum.toInt) :
    0 ≤ (foldCarries fuel sum).toInt ∧
      (foldCarries fuel sum).toInt % 65535 = sum.toInt % 65535 ∧
      ((foldCarries fuel sum).toInt = 0 ↔ sum.toInt = 0) := by
  induction fuel generalizing sum with
  | zero => exact ⟨h, rfl, Iff.rfl⟩
  | succ fuel ih =>
    unfold foldCarries
    split_ifs with hcarry
    · have hnext := toInt_carry sum
      obtain ⟨hpos, hmod, hzero⟩ := @ih ((sum &&& 0xffff#32) + sum.sshiftRight 16) (by omega)
      refine ⟨hpos, hmod.trans ?_, hzero.trans ?_⟩
      · omega
      · omega
    · exact ⟨h, rfl, Iff.rfl⟩

theorem foldCarries_lt (h : 0 ≤ sum.toInt) : (foldCarries 4 sum).toInt < 65536 := by
  have hhigh := congrArg BitVec.toInt (foldCarries_high sum)
  rw [BitVec.toInt_sshiftRight, Int.shiftRight_eq_div_pow] at hhigh
  simp only [Nat.reducePow, BitVec.toInt_zero] at hhigh
  have hpos := (foldCarries_spec 4 h).1
  omega

/-- A word with its bytes swapped has its lower byte in front. -/
theorem extract_bswap16 (x : U16) :
    (bswap16 x).extractLsb' 8 8 = x.extractLsb' 0 8 ∧
      (bswap16 x).extractLsb' 0 8 = x.extractLsb' 8 8 := by
  constructor
  all_goals
    apply BitVec.eq_of_getLsbD_eq
    intro i hi
    simp only [bswap16, BitVec.getLsbD_extractLsb', BitVec.getLsbD_or, BitVec.getLsbD_ushiftRight,
      BitVec.getLsbD_shiftLeft]
  · have hhigh : x.getLsbD (8 + (8 + i)) = false := BitVec.getLsbD_of_ge _ _ (by omega)
    simp [hi, hhigh, show 8 + i < 16 by omega]
  · simp [hi]

/-- A word in memory, after it is stored with its bytes swapped. -/
theorem word_bswap16 (x : U16) :
    wordOf ((bswap16 x).extractLsb' 8 8) ((bswap16 x).extractLsb' 0 8) = x.toNat := by
  have hx := x.isLt
  rw [(extract_bswap16 x).1, (extract_bswap16 x).2, wordOf, BitVec.extractLsb'_toNat,
    BitVec.extractLsb'_toNat, Nat.shiftRight_eq_div_pow, Nat.shiftRight_eq_div_pow]
  omega

theorem bswap16_eq_zero_iff (x : U16) : bswap16 x = 0#16 ↔ x = 0#16 := by
  constructor
  · intro h
    have hword := word_bswap16 x
    rw [h] at hword
    exact BitVec.eq_of_toNat_eq hword.symm
  · rintro rfl
    rfl

theorem toNat_complement (h : 0 ≤ sum.toInt) :
    (((~~~(foldCarries 4 sum)).setWidth 16 : U16).toNat : ℤ) =
      65535 - (foldCarries 4 sum).toInt := by
  have hpos := (foldCarries_spec 4 h).1
  have hlt := foldCarries_lt h
  have hcond := BitVec.toInt_eq_toNat_cond (foldCarries 4 sum)
  rw [BitVec.toNat_setWidth, BitVec.toNat_not]
  split_ifs at hcond <;> omega

/-- The result is zero for a sum that is a multiple of `2 ^ 16 - 1` and not zero. -/
theorem finishChecksum_eq_zero_iff (h : 0 ≤ sum.toInt) :
    finishChecksum sum = 0#16 ↔ sum.toInt % 65535 = 0 ∧ sum.toInt ≠ 0 := by
  obtain ⟨hpos, hmod, hzero⟩ := foldCarries_spec 4 h
  have hlt := foldCarries_lt h
  have hcomplement := toNat_complement h
  rw [finishChecksum, bswap16_eq_zero_iff, ← BitVec.toNat_inj]
  simp only [BitVec.toNat_ofNat, Nat.zero_mod]
  omega

theorem word_finishChecksum (h : 0 ≤ sum.toInt) :
    let word := wordOf ((finishChecksum sum).extractLsb' 8 8) ((finishChecksum sum).extractLsb' 0 8)
    (sum.toInt + word) % 65535 = 0 ∧ sum.toInt + word ≠ 0 ∧ word ≤ 65535 := by
  obtain ⟨hpos, hmod, hzero⟩ := foldCarries_spec 4 h
  have hcomplement := toNat_complement h
  rw [finishChecksum, word_bswap16]
  refine ⟨?_, ?_, ?_⟩
  · omega
  · omega
  · omega

end Finish

/-! ## Stored sums -/

section Store

variable {bytes : List U8} {k : ℕ} {x : U16} {sum : ℕ}

/-- A store between two parts. -/
theorem setBe16_append (front rest : List U8) (lo hi : U8) (x : U16) :
    setBe16 (front ++ lo :: hi :: rest) front.length x = front ++ (be16 x ++ rest) := by
  rw [setBe16, be16, List.set_append_right _ _ (Nat.le_refl _), Nat.sub_self, List.set_cons_zero,
    List.set_append_right _ _ (Nat.le_succ _), Nat.succ_sub (Nat.le_refl _), Nat.sub_self,
    List.set_cons_succ, List.set_cons_zero]
  rfl

theorem length_setBe16 (bytes : List U8) (k : ℕ) (x : U16) :
    (setBe16 bytes k x).length = bytes.length := by
  rw [setBe16, List.length_set, List.length_set]

/-- A word adds up behind an even number of bytes. -/
theorem wordSum_be16 (rest : List U8) (x : U16) {front : List U8} (h : front.length % 2 = 0) :
    wordSum (front ++ (be16 x ++ rest)) =
      wordSum front + (wordOf (x.extractLsb' 8 8) (x.extractLsb' 0 8) + wordSum rest) := by
  rw [wordSum_append _ h]
  rfl

theorem wordSum_setBe16 (heven : k % 2 = 0) (h0 : bytes[k]? = some 0#8)
    (h1 : bytes[k + 1]? = some 0#8) :
    wordSum (setBe16 bytes k x) =
      wordSum bytes + wordOf (x.extractLsb' 8 8) (x.extractLsb' 0 8) := by
  obtain ⟨hk, h0⟩ := List.getElem?_eq_some_iff.mp h0
  obtain ⟨hk1, h1⟩ := List.getElem?_eq_some_iff.mp h1
  have hdrop : bytes.drop k = 0#8 :: 0#8 :: bytes.drop (k + 2) := by
    rw [List.drop_eq_getElem_cons hk, List.drop_eq_getElem_cons hk1, h0, h1]
  have hbytes : bytes.take k ++ 0#8 :: 0#8 :: bytes.drop (k + 2) = bytes := by
    rw [← hdrop, List.take_append_drop]
  have hfront : (bytes.take k).length = k := List.length_take_of_le hk.le
  have hstored := setBe16_append (bytes.take k) (bytes.drop (k + 2)) 0#8 0#8 x
  have hzero := @wordSum_be16 (bytes.drop (k + 2)) 0#16 (bytes.take k) (by omega)
  rw [hfront, hbytes] at hstored
  rw [hstored, wordSum_be16 _ _ (by omega)]
  change wordSum (bytes.take k ++ 0#8 :: 0#8 :: bytes.drop (k + 2)) =
    _ + (0 + wordSum (bytes.drop (k + 2))) at hzero
  rw [hbytes] at hzero
  omega

theorem partialChecksum_toInt (h : wordSum bytes < 2 ^ 31) :
    (partialChecksum 0#32 bytes).toInt = wordSum bytes := by
  have hsum := partialChecksum_toNat 0#32 bytes
  rw [BitVec.toNat_ofNat] at hsum
  rw [BitVec.toInt_eq_toNat_cond]
  split_ifs <;> omega

/-- The sum of all the words is zero after its complement is stored. -/
theorem finishChecksum_stored (heven : k % 2 = 0) (h0 : bytes[k]? = some 0#8)
    (h1 : bytes[k + 1]? = some 0#8) (hlength : bytes.length < 2 ^ 16 - 2) :
    finishChecksum (partialChecksum 0#32
      (setBe16 bytes k (finishChecksum (partialChecksum 0#32 bytes)))) = 0#16 := by
  set checksum := finishChecksum (partialChecksum 0#32 bytes) with hchecksum
  have hbound := wordSum_le bytes
  have hbound' := wordSum_le (setBe16 bytes k checksum)
  rw [length_setBe16] at hbound'
  have hsum := @partialChecksum_toInt bytes (by omega)
  have hword := @word_finishChecksum (partialChecksum 0#32 bytes) (by omega)
  have hsum' := @partialChecksum_toInt (setBe16 bytes k checksum) (by omega)
  have hstored := wordSum_setBe16 (x := checksum) heven h0 h1
  rw [← hchecksum] at hword
  rw [finishChecksum_eq_zero_iff (by omega)]
  omega

end Store

/-! ## Segments and headers -/

section Segments

variable {bytes : List U8} {srcAddr dstAddr : Ipv4} {protocol : U8} {count : U16}

theorem length_pseudoHeader : (pseudoHeader srcAddr dstAddr protocol count).length = 12 := rfl

/-- The sum goes on from one part to the next. -/
theorem partialChecksum_append {front : List U8} (h : front.length % 2 = 0) (rest : List U8) :
    partialChecksum (partialChecksum 0#32 front) rest = partialChecksum 0#32 (front ++ rest) := by
  apply BitVec.eq_of_toNat_eq
  rw [partialChecksum_toNat, partialChecksum_toNat, partialChecksum_toNat, wordSum_append _ h,
    BitVec.toNat_ofNat]
  omega

theorem ipv4TransportChecksum_eq :
    ipv4TransportChecksum bytes srcAddr dstAddr protocol count =
      finishChecksum
        (partialChecksum 0#32 (pseudoHeader srcAddr dstAddr protocol count ++ bytes)) := by
  rw [← partialChecksum_append (by rw [length_pseudoHeader])]
  rfl

/-- The values of `sum` in `ipv4_transport_checksum` and in its two `partial_checksum`s. -/
def transportSums (bytes : List U8) (srcAddr dstAddr : Ipv4) (protocol : U8) (count : U16) :
    List ℕ :=
  let header := pseudoHeader srcAddr dstAddr protocol count
  accumulators 0 header ++ accumulators 0 bytes ++ [wordSum header + wordSum bytes]

/-- An `int` holds them all. -/
theorem transportSums_lt (h : bytes.length ≤ 65515) {n : ℕ}
    (hn : n ∈ transportSums bytes srcAddr dstAddr protocol count) : n < 2 ^ 31 := by
  have hheader := wordSum_le (pseudoHeader srcAddr dstAddr protocol count)
  have hbytes := wordSum_le bytes
  rw [length_pseudoHeader] at hheader
  simp only [transportSums, List.mem_append, List.mem_singleton] at hn
  rcases hn with (hn | hn) | rfl
  · have := accumulators_le hn
    omega
  · have := accumulators_le hn
    omega
  · omega

theorem setBe16_pseudoHeader (k : ℕ) (x : U16) :
    setBe16 (pseudoHeader srcAddr dstAddr protocol count ++ bytes) (12 + k) x =
      pseudoHeader srcAddr dstAddr protocol count ++ setBe16 bytes k x := by
  have hlength : (pseudoHeader srcAddr dstAddr protocol count).length ≤ 12 + k :=
    Nat.le_add_right _ _
  rw [setBe16, List.set_append_right _ _ hlength,
    List.set_append_right _ _ (hlength.trans (Nat.le_succ _)), length_pseudoHeader,
    Nat.add_sub_cancel_left, Nat.succ_sub (Nat.le_add_right _ _), Nat.add_sub_cancel_left]
  rfl

theorem getElem?_pseudoHeader (k : ℕ) :
    (pseudoHeader srcAddr dstAddr protocol count ++ bytes)[12 + k]? = bytes[k]? := by
  have hbehind := @List.getElem?_append_right _ (pseudoHeader srcAddr dstAddr protocol count) bytes
    (12 + k) (Nat.le_add_right 12 k)
  rwa [length_pseudoHeader, Nat.add_sub_cancel_left] at hbehind

/-- A segment with its checksum has a zero one. -/
theorem transport_stored {k : ℕ} (heven : k % 2 = 0) (h0 : bytes[k]? = some 0#8)
    (h1 : bytes[k + 1]? = some 0#8) (hlength : bytes.length ≤ 65515) :
    ipv4TransportChecksum
      (setBe16 bytes k (ipv4TransportChecksum bytes srcAddr dstAddr protocol count))
      srcAddr dstAddr protocol count = 0#16 := by
  rw [ipv4TransportChecksum_eq, ipv4TransportChecksum_eq, ← setBe16_pseudoHeader]
  refine finishChecksum_stored (by omega) ?_ ?_ ?_
  · rw [getElem?_pseudoHeader, h0]
  · rw [Nat.add_assoc, getElem?_pseudoHeader, h1]
  · rw [List.length_append, length_pseudoHeader]
    omega

theorem header_stored {h : Ipv4Header} (hzero : h.headerChecksum = 0#16) :
    { h with headerChecksum := h.computeHeaderChecksum }.computeHeaderChecksum = 0#16 := by
  have hbytes : ({ h with headerChecksum := h.computeHeaderChecksum } : Ipv4Header).bytes =
      setBe16 h.bytes 10 h.computeHeaderChecksum := rfl
  rw [Ipv4Header.computeHeaderChecksum, hbytes, Ipv4Header.computeHeaderChecksum]
  refine finishChecksum_stored rfl ?_ ?_ ?_
  · rw [Ipv4Header.bytes, hzero]
    rfl
  · rw [Ipv4Header.bytes, hzero]
    rfl
  · change 20 < 2 ^ 16 - 2
    decide

/-- What is sent verifies, and no `int` overflows on either side: a segment of any bytes with its
    checksum at an even offset (6 for UDP, 16 for TCP), and a header of any fields. -/
theorem checksums_verify :
    (∀ (bytes : List U8) (k : ℕ) (srcAddr dstAddr : Ipv4) (protocol : U8),
      8 ≤ bytes.length → bytes.length ≤ 65515 → k % 2 = 0 →
      bytes[k]? = some 0#8 → bytes[k + 1]? = some 0#8 →
      let count := BitVec.ofNat 16 bytes.length
      let stored := setBe16 bytes k
        (ipv4TransportChecksum bytes srcAddr dstAddr protocol count)
      ipv4TransportChecksum stored srcAddr dstAddr protocol count = 0#16 ∧
      (∀ n ∈ transportSums bytes srcAddr dstAddr protocol count, n < 2 ^ 31) ∧
      (∀ n ∈ transportSums stored srcAddr dstAddr protocol count, n < 2 ^ 31)) ∧
    (∀ h : Ipv4Header, h.headerChecksum = 0#16 →
      let stored : Ipv4Header := { h with headerChecksum := h.computeHeaderChecksum }
      stored.computeHeaderChecksum = 0#16 ∧
      (∀ n ∈ accumulators 0 h.bytes, n < 2 ^ 31) ∧
      (∀ n ∈ accumulators 0 stored.bytes, n < 2 ^ 31)) := by
  constructor
  · intro bytes k srcAddr dstAddr protocol _ hlength heven h0 h1
    refine ⟨transport_stored heven h0 h1 hlength, fun n hn => transportSums_lt hlength hn,
      fun n hn => transportSums_lt ?_ hn⟩
    rw [length_setBe16]
    exact hlength
  · intro h hzero
    have hbound : ∀ h : Ipv4Header, ∀ n ∈ accumulators 0 h.bytes, n < 2 ^ 31 := by
      intro h n hn
      have hsum := wordSum_le h.bytes
      have hlength : h.bytes.length = 20 := rfl
      have := accumulators_le hn
      omega
    exact ⟨header_stored hzero, hbound h, hbound _⟩

/-- A UDP packet with three bytes, and the header in front of it. -/
theorem checksums_verify_datagram :
    ipv4TransportChecksum ([0#8, 7#8, 0#8, 9#8, 0#8, 11#8, 0x5e#8, 0x4e#8] ++ [0x68#8, 0x69#8, 0x21#8])
        (ipv4 10 0 2 15) (ipv4 10 0 2 2) PROTOCOL_UDP 11#16 = 0#16 ∧
      ({ versionAndHeaderLength := VERSION_AND_HEADER_LENGTH, packetLength := 31#16,
         timeToLive := 0xff#8, protocol := PROTOCOL_UDP, headerChecksum := 0xa3bd#16,
         srcAddr := ipv4 10 0 2 15, dstAddr := ipv4 10 0 2 2 } : Ipv4Header).computeHeaderChecksum =
        0#16 := by
  have hpacket := (checksums_verify.1
    ([0#8, 7#8, 0#8, 9#8, 0#8, 11#8, 0#8, 0#8] ++ [0x68#8, 0x69#8, 0x21#8]) 6 (ipv4 10 0 2 15)
    (ipv4 10 0 2 2) PROTOCOL_UDP (by decide) (by decide) rfl rfl rfl).1
  have hheader := (checksums_verify.2
    { versionAndHeaderLength := VERSION_AND_HEADER_LENGTH, packetLength := 31#16,
      timeToLive := 0xff#8, protocol := PROTOCOL_UDP, srcAddr := ipv4 10 0 2 15,
      dstAddr := ipv4 10 0 2 2 } rfl).1
  exact ⟨hpacket, hheader⟩

end Segments

end Fishix.Net
