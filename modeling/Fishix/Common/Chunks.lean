import Mathlib

/-!
# A list in pieces

The pieces of `m` elements that a list is cut into from its head on; the last one is what is left.

* `flatten_chunks`: the first pieces, one after the other, are the beginning of the list.
* `sum_length_chunks`: where a piece begins.
* `chunk_ne_nil_iff`: which pieces there are.
-/

namespace Fishix

variable {α : Type} (l : List α) (m : ℕ)

/-- The piece number `j`. -/
def chunk (j : ℕ) : List α := (l.drop (j * m)).take m

theorem length_chunk (j : ℕ) : (chunk l m j).length = min m (l.length - j * m) := by
  simp [chunk]

theorem chunk_ne_nil_iff {j : ℕ} (hm : 0 < m) : chunk l m j ≠ [] ↔ j * m < l.length := by
  rw [← List.length_pos_iff, length_chunk]
  omega

theorem flatten_chunks (n : ℕ) : ((List.range n).map (chunk l m)).flatten = l.take (n * m) := by
  induction n with
  | zero => simp
  | succ n ih =>
    rw [List.range_succ, List.map_append, List.flatten_append, ih, Nat.succ_mul, List.take_add]
    simp [chunk]

/-- As many pieces as cover the list are the list. -/
theorem flatten_chunks_of_le {n : ℕ} (h : l.length ≤ n * m) :
    ((List.range n).map (chunk l m)).flatten = l := by
  rw [flatten_chunks, List.take_of_length_le h]

/-- The pieces before number `j` are full ones. -/
theorem sum_length_chunks {j : ℕ} (h : j * m ≤ l.length) :
    ((List.range j).map fun i => (chunk l m i).length).sum = j * m := by
  have hflat := congrArg List.length (flatten_chunks l m j)
  rw [List.length_flatten, List.map_map, List.length_take, Nat.min_eq_left h] at hflat
  exact hflat

end Fishix
