import Mathlib

/-!
# Machine words and page rounding

`u64`, `usize` and `uptr` (klib/common.hpp:16-22) are `U64 := BitVec 64`: unsigned,
with wrapping arithmetic. `klib::align_up` and `klib::align_down`
(klib/algorithm.hpp:21-29) are kept in the form the source computes them, so
`align_up` of a word in the last page of the address space wraps to `0`
(`toNat_alignUp`).
-/

namespace Fishix

/-- `u64`, `usize`, `uptr`. -/
abbrev U64 := BitVec 64

/-- `PAGE_SIZE` (klib/common.hpp:6). -/
abbrev pageSize : U64 := 0x1000#64

/-- `klib::align_up` (klib/algorithm.hpp:21-24). -/
def alignUp (i alignment : U64) : U64 :=
  if i % alignment ≠ 0#64 then (i / alignment + 1#64) * alignment else i

/-- `klib::align_down` (klib/algorithm.hpp:26-29). -/
def alignDown (i alignment : U64) : U64 :=
  if i % alignment ≠ 0#64 then (i / alignment) * alignment else i

/-- `klib::max` (klib/algorithm.hpp:11-14). -/
def klibMax (a b : U64) : U64 := if a < b then b else a

/-- The word is a multiple of `PAGE_SIZE`. -/
def PageAligned (i : U64) : Prop := i.toNat % 4096 = 0

instance (i : U64) : Decidable (PageAligned i) := inferInstanceAs (Decidable (_ = _))

theorem toNat_alignUp (i : U64) :
    (alignUp i pageSize).toNat = (i.toNat + 4095) / 4096 * 4096 % 2 ^ 64 := by
  have hi := i.isLt
  unfold alignUp
  split_ifs with h
  · have hne : i.toNat % 4096 ≠ 0 := by
      intro h0
      apply h
      apply BitVec.eq_of_toNat_eq
      simpa [pageSize] using h0
    simp only [BitVec.toNat_mul, BitVec.toNat_add, BitVec.toNat_udiv, pageSize,
      BitVec.toNat_ofNat, Nat.reducePow, Nat.reduceMod]
    omega
  · have h0 : i.toNat % 4096 = 0 := by
      have := congrArg BitVec.toNat (not_not.mp h)
      simpa [pageSize] using this
    omega

theorem toNat_alignDown (i : U64) : (alignDown i pageSize).toNat = i.toNat / 4096 * 4096 := by
  have hi := i.isLt
  unfold alignDown
  split_ifs with h
  · simp only [BitVec.toNat_mul, BitVec.toNat_udiv, pageSize, BitVec.toNat_ofNat,
      Nat.reducePow, Nat.reduceMod]
    omega
  · have h0 : i.toNat % 4096 = 0 := by
      have := congrArg BitVec.toNat (not_not.mp h)
      simpa [pageSize] using this
    omega

theorem toNat_alignDown_eq (i a : U64) : (alignDown i a).toNat = i.toNat / a.toNat * a.toNat := by
  have hle : i.toNat / a.toNat * a.toNat ≤ i.toNat := Nat.div_mul_le_self _ _
  unfold alignDown
  split_ifs with h
  · rw [BitVec.toNat_mul, BitVec.toNat_udiv, Nat.mod_eq_of_lt (Nat.lt_of_le_of_lt hle i.isLt)]
  · have h0 : i.toNat % a.toNat = 0 := by
      simpa using congrArg BitVec.toNat (not_not.mp h)
    rw [Nat.div_mul_cancel (Nat.dvd_of_mod_eq_zero h0)]

/-- Rounding up stays below a multiple of the alignment. -/
theorem toNat_alignUp_le {i : U64} {m : ℕ} (hm : m % 64 = 0) (hi : i.toNat ≤ m) :
    (alignUp i 64#64).toNat ≤ m := by
  have h64 : (64#64).toNat = 64 := rfl
  unfold alignUp
  split_ifs with h
  · rw [BitVec.toNat_mul, BitVec.toNat_add, BitVec.toNat_udiv, h64]
    have hne : i.toNat % 64 ≠ 0 := by
      intro h0
      apply h
      apply BitVec.eq_of_toNat_eq
      simpa using h0
    have := i.isLt
    have h1 : (1#64).toNat = 1 := rfl
    rw [h1]
    refine Nat.le_trans (Nat.mod_le _ _) ?_
    rw [Nat.mod_eq_of_lt (by omega)]
    omega
  · exact hi

theorem alignUp_of_aligned {i : U64} (h : PageAligned i) : alignUp i pageSize = i := by
  apply BitVec.eq_of_toNat_eq
  rw [toNat_alignUp]
  have := i.isLt
  unfold PageAligned at h
  omega

theorem ofDigits_range (b value k : ℕ) :
    Nat.ofDigits b ((List.range k).map fun i => value / b ^ i % b) = value % b ^ k := by
  induction k with
  | zero => simp [Nat.mod_one]
  | succ k ih =>
    rw [List.range_succ, List.map_append, List.map_singleton, Nat.ofDigits_append, ih,
      List.length_map, List.length_range, Nat.ofDigits_singleton, Nat.mod_pow_succ]

end Fishix
