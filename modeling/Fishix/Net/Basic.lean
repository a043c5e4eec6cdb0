import Fishix.Common.Word

/-!
# Addresses, headers and checksums

The headers of `dev/net.hpp` lines 8-119 as bytes in the order of the wire: a `BigEndian` field is
the word that it reads as. A `u16` that the checksums load from memory is little-endian, so that
`partial_checksum` adds up the words of the wire with their bytes swapped, and `bswap` turns the
result.

* `getFragOffset_set`, `getFlags_set`: `flags_and_frag_offset` keeps both of its parts.
* `foldCarries_high`: the loop over the carries ends within its bound.
-/

namespace Fishix.Net

abbrev U8 := BitVec 8
abbrev U16 := BitVec 16

/-- `Mac` (dev/net.hpp:8-17), the first byte in front. -/
abbrev Mac := BitVec 48

/-- `BROADCAST_MAC`. -/
def broadcastMac : Mac := 0xffffffffffff#48

/-- `Ipv4` (dev/net.hpp:20-28): the word that `address` reads as. -/
abbrev Ipv4 := BitVec 32

/-- `Ipv4(a0, a1, a2, a3)`. -/
def ipv4 (a0 a1 a2 a3 : BitVec 32) : Ipv4 := (a0 <<< 24) ||| (a1 <<< 16) ||| (a2 <<< 8) ||| a3

/-- `BROADCAST_IPV4`. -/
def broadcastIpv4 : Ipv4 := ipv4 0xff 0xff 0xff 0xff

/-- The errors of the send path. -/
inductive NetErrno
  /-- `-ENOMEM`. -/
  | noMemory
  /-- `-ENETUNREACH`. -/
  | netUnreachable
  /-- `-EHOSTUNREACH`. -/
  | hostUnreachable
  /-- `-EADDRINUSE`. -/
  | addrInUse
  /-- `-EDESTADDRREQ`. -/
  | destAddrReq
  deriving DecidableEq

/-! ## Bytes -/

/-- The bytes of a `be16`. -/
def be16 (x : U16) : List U8 := [x.extractLsb' 8 8, x.extractLsb' 0 8]

/-- The bytes of a `be32`. -/
def be32 (x : BitVec 32) : List U8 :=
  [x.extractLsb' 24 8, x.extractLsb' 16 8, x.extractLsb' 8 8, x.extractLsb' 0 8]

/-! ## Checksums -/

/-- `partial_checksum` (dev/net.cpp:106-116) of these bytes, added to `sum`. -/
def partialChecksum (sum : BitVec 32) : List U8 → BitVec 32
  | [] => sum
  | [b] => sum + b.setWidth 32
  | lo :: hi :: rest => partialChecksum (sum + (hi ++ lo).setWidth 32) rest

/-- The loop over the carries (dev/net.cpp:120-121, 135-136). -/
def foldCarries : ℕ → BitVec 32 → BitVec 32
  | 0, sum => sum
  | fuel + 1, sum =>
    if sum.sshiftRight 16 ≠ 0#32 then
      foldCarries fuel ((sum &&& 0xffff#32) + sum.sshiftRight 16)
    else sum

/-- What a turn of the loop makes of a sum. -/
theorem toInt_carry (sum : BitVec 32) :
    ((sum &&& 0xffff#32) + sum.sshiftRight 16).toInt = sum.toInt % 65536 + sum.toInt / 65536 := by
  have hlow : (sum &&& 0xffff#32).toNat = sum.toNat % 2 ^ 16 := by
    rw [BitVec.toNat_and, show (0xffff#32).toNat = 2 ^ 16 - 1 from rfl,
      Nat.and_two_pow_sub_one_eq_mod]
  have hhigh : (sum.sshiftRight 16).toInt = sum.toInt / 65536 := by
    rw [BitVec.toInt_sshiftRight, Int.shiftRight_eq_div_pow]
    rfl
  have hsum := BitVec.toInt_eq_toNat_cond sum
  have hpart := BitVec.toInt_eq_toNat_cond (sum &&& 0xffff#32)
  have hlt := sum.isLt
  rw [BitVec.toInt_add, hhigh]
  split_ifs at hsum hpart <;> rw [Int.bmod_eq_of_le (by omega) (by omega)] <;> omega

/-- The loop ends: after four turns nothing is carried. -/
theorem foldCarries_high (sum : BitVec 32) : (foldCarries 4 sum).sshiftRight 16 = 0#32 := by
  have hzero : ∀ x : BitVec 32, x.sshiftRight 16 = 0#32 ↔ 0 ≤ x.toInt ∧ x.toInt < 65536 := by
    intro x
    rw [← BitVec.toInt_inj, BitVec.toInt_sshiftRight, Int.shiftRight_eq_div_pow]
    simp only [Nat.reducePow, BitVec.toInt_zero]
    omega
  have hbound : -2147483648 ≤ sum.toInt ∧ sum.toInt < 2147483648 := by
    have hsum := BitVec.toInt_eq_toNat_cond sum
    have hlt := sum.isLt
    split_ifs at hsum <;> omega
  -- the first turn leaves at most seventeen bits, the third at most sixteen
  simp only [foldCarries]
  split_ifs with h1 h2 h3 h4
  all_goals
    simp only [ne_eq, not_not, hzero, toInt_carry] at *
    omega

/-- `klib::bswap` (klib/common.hpp:29-31). -/
def bswap16 (x : U16) : U16 := (x >>> 8) ||| (x <<< 8)

/-- What both checksums make of a sum; the loop takes four turns at most. -/
def finishChecksum (sum : BitVec 32) : U16 := bswap16 ((~~~(foldCarries 4 sum)).setWidth 16)

/-- `ipv4_transport_checksum` (dev/net.cpp:125-138) of the bytes at `addr`. -/
def ipv4TransportChecksum (bytes : List U8) (srcAddr dstAddr : Ipv4) (protocol : U8)
    (count : U16) : U16 :=
  let pseudoHeader := be32 srcAddr ++ be32 dstAddr ++ [0#8, protocol] ++ be16 count
  finishChecksum (partialChecksum (partialChecksum 0#32 pseudoHeader) bytes)

/-! ## `Ipv4Header` -/

/-- `Ipv4Header` (dev/net.hpp:66-76). -/
structure Ipv4Header where
  versionAndHeaderLength : U8 := 0#8
  dscpAndEcn : U8 := 0#8
  packetLength : U16 := 0#16
  id : U16 := 0#16
  flagsAndFragOffset : U16 := 0#16
  timeToLive : U8 := 0#8
  protocol : U8 := 0#8
  headerChecksum : U16 := 0#16
  srcAddr : Ipv4 := 0#32
  dstAddr : Ipv4 := 0#32
  deriving DecidableEq

/-- `Ipv4Header::VERSION_AND_HEADER_LENGTH`. -/
def VERSION_AND_HEADER_LENGTH : U8 := 0x45#8

def FLAG_MORE_FRAGMENTS : U16 := 1#16

def PROTOCOL_TCP : U8 := 6#8
def PROTOCOL_UDP : U8 := 17#8

namespace Ipv4Header

def bytes (h : Ipv4Header) : List U8 :=
  [h.versionAndHeaderLength, h.dscpAndEcn] ++ be16 h.packetLength ++ be16 h.id ++
    be16 h.flagsAndFragOffset ++ [h.timeToLive, h.protocol] ++ be16 h.headerChecksum ++
    be32 h.srcAddr ++ be32 h.dstAddr

/-- `get_flags` (dev/net.hpp:78). -/
def getFlags (h : Ipv4Header) : U16 := (h.flagsAndFragOffset >>> 13) &&& 7#16

/-- `get_frag_offset` (dev/net.hpp:79). -/
def getFragOffset (h : Ipv4Header) : U16 := (h.flagsAndFragOffset &&& 0x1fff#16) <<< 3

/-- `set_flags_and_frag_offset` (dev/net.hpp:80-82). -/
def setFlagsAndFragOffset (h : Ipv4Header) (flags fragOffset : U16) : Ipv4Header :=
  { h with flagsAndFragOffset := (flags <<< 13) ||| (fragOffset >>> 3) }

/-- `compute_header_checksum` (dev/net.cpp:118-123). -/
def computeHeaderChecksum (h : Ipv4Header) : U16 := finishChecksum (partialChecksum 0#32 h.bytes)

variable {h : Ipv4Header} {flags fragOffset : U16}

/-- The bits of a word below a power of two. -/
theorem getLsbD_of_lt {x : U16} {k i : ℕ} (hx : x.toNat < 2 ^ k) (hi : k ≤ i) :
    x.getLsbD i = false :=
  Nat.testBit_lt_two_pow (lt_of_lt_of_le hx (Nat.pow_le_pow_right (by omega) hi))

/-- An offset in units of eight bytes leaves the upper three bits to the flags. -/
theorem getFlags_set (hflags : flags.toNat < 8) :
    (h.setFlagsAndFragOffset flags fragOffset).getFlags = flags := by
  apply BitVec.eq_of_getLsbD_eq
  intro i hi
  have h7 : (7#16).getLsbD i = decide (i < 3) := by
    interval_cases i <;> rfl
  simp only [setFlagsAndFragOffset, getFlags, BitVec.getLsbD_and, BitVec.getLsbD_ushiftRight,
    BitVec.getLsbD_or, BitVec.getLsbD_shiftLeft, h7]
  by_cases hlow : i < 3
  · have hhigh : fragOffset.getLsbD (3 + (13 + i)) = false := BitVec.getLsbD_of_ge _ _ (by omega)
    simp [hhigh, hlow, show 13 + i < 16 by omega]
  · simp [hlow, getLsbD_of_lt (k := 3) (by simpa using hflags) (Nat.le_of_not_lt hlow)]

/-- The flags leave the lower bits to an offset in units of eight bytes. -/
theorem getFragOffset_set (hoffset : fragOffset.toNat % 8 = 0) :
    (h.setFlagsAndFragOffset flags fragOffset).getFragOffset = fragOffset := by
  apply BitVec.eq_of_getLsbD_eq
  intro i hi
  simp only [setFlagsAndFragOffset, getFragOffset, BitVec.getLsbD_shiftLeft, BitVec.getLsbD_and,
    BitVec.getLsbD_or, BitVec.getLsbD_ushiftRight]
  by_cases hlow : i < 3
  · have hbit : fragOffset.getLsbD i = false := by
      have hmod := Nat.testBit_mod_two_pow fragOffset.toNat 3 i
      rw [show 2 ^ 3 = 8 from rfl, hoffset] at hmod
      simpa [hlow, BitVec.getLsbD] using hmod.symm
    simp [hlow, hbit]
  · have hmask : (0x1fff#16).getLsbD (i - 3) = true := by
      interval_cases i <;> simp at hlow ⊢
    simp [hlow, hi, hmask, show i - 3 < 13 by omega, show 3 + (i - 3) = i by omega]

end Ipv4Header

end Fishix.Net
