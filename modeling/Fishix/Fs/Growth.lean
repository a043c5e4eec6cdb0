import Fishix.Fs.Procfs
import Fishix.Fs.Vectored

/-!
# The capacity of a file

The loop of `grow_to` in `tmpfs` (fs/tmpfs.cpp:97-98) and in `procfs` (fs/procfs.cpp:101-102)
multiplies the capacity by four, modulo `2 ^ 64`. From `2 ^ 62` on it starts again at one, so that a
length above that is never reached, and `truncate` admits lengths up to `2 ^ 63 - 1`
(fs/vfs.cpp:1299, 1309).

* `Reached.isCapacity`: the capacities that come about.
* `growth_ends_iff`: the lengths with which the loops end.
-/

namespace Fishix.Fs

open Fishix.Mem (Panic)
open Tmpfs (IsCapacity nextCapacity_ok nextCapacity_isCapacity)

/-- The loop of `InfoNode::grow_to` (fs/procfs.cpp:101-102), in at most `turns` turns. -/
def Procfs.nextCapacity (size : U64) : ℕ → U64 → Except Panic U64 := Tmpfs.nextCapacity size

/-- A capacity that comes about, from zero on. -/
inductive Reached (nextCapacity : U64 → ℕ → U64 → Except Panic U64) : U64 → Prop
  | zero : Reached nextCapacity 0#64
  | grow {capacity capacity' length : U64} {turns : ℕ} (h : Reached nextCapacity capacity)
      (hnext : nextCapacity length turns capacity = .ok capacity') :
      Reached nextCapacity capacity'

/-- The loop ends with a capacity for `length` bytes. -/
def GrowthEnds (nextCapacity : U64 → ℕ → U64 → Except Panic U64) (length capacity : U64) : Prop :=
  ∃ turns capacity', nextCapacity length turns capacity = .ok capacity' ∧ length ≤ capacity'

theorem Reached.isCapacity {capacity : U64} (h : Reached Tmpfs.nextCapacity capacity) :
    IsCapacity capacity := by
  induction h with
  | zero => exact .inl rfl
  | grow _ hnext ih => exact (nextCapacity_isCapacity ih hnext).1

theorem growthEnds_iff {capacity length : U64} (h : Reached Tmpfs.nextCapacity capacity) :
    GrowthEnds Tmpfs.nextCapacity length capacity ↔ length.toNat ≤ 2 ^ 62 := by
  constructor
  · rintro ⟨turns, capacity', hnext, hle⟩
    -- whatever the loop ends with is at most `2 ^ 62`
    obtain ⟨hcapacity, -⟩ := nextCapacity_isCapacity h.isCapacity hnext
    exact (BitVec.le_def.mp hle).trans hcapacity.toNat_le
  · intro hlength
    obtain ⟨capacity', hnext, -, hle, -⟩ := nextCapacity_ok hlength h.isCapacity
    exact ⟨34, capacity', hnext, hle⟩

/-- **Growth.** From every capacity that comes about, the loops end with a capacity for the length
    exactly if the length is at most `2 ^ 62`. -/
theorem growth_ends_iff {capacity length : U64} :
    (Reached Tmpfs.nextCapacity capacity →
      (GrowthEnds Tmpfs.nextCapacity length capacity ↔ length.toNat ≤ 2 ^ 62)) ∧
    (Reached Procfs.nextCapacity capacity →
      (GrowthEnds Procfs.nextCapacity length capacity ↔ length.toNat ≤ 2 ^ 62)) :=
  ⟨growthEnds_iff, growthEnds_iff⟩

/-- An empty file, and a length that may be stored. -/
theorem growth_ends_empty :
    GrowthEnds Tmpfs.nextCapacity (BitVec.ofNat 64 (2 ^ 62)) 0#64 ∧
      GrowthEnds Procfs.nextCapacity (BitVec.ofNat 64 (2 ^ 62)) 0#64 :=
  ⟨(growth_ends_iff.1 .zero).mpr (by decide), (growth_ends_iff.2 .zero).mpr (by decide)⟩

/-- `ftruncate` of an empty file to one byte more. -/
theorem growth_diverges : ¬ ∀ capacity length : U64, Reached Tmpfs.nextCapacity capacity →
    length.toNat < 2 ^ 63 → GrowthEnds Tmpfs.nextCapacity length capacity := by
  intro h
  have hends := h 0#64 (BitVec.ofNat 64 (2 ^ 62 + 1)) .zero (by decide)
  rw [growthEnds_iff .zero] at hends
  exact absurd hends (by decide)

end Fishix.Fs
