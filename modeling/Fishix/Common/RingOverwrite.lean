import Fishix.Common.RingBuffer

/-!
# Writes that make room

`write_truncate` (klib/ring_buffer.hpp:61-65) drops old elements where there is no room for the new
ones. It drops as many as it is going to write, not as many as there is too little room for.

* `Carries.writeTruncate`: what it does to the elements written and read.
* `writeTruncate_contents`: what it leaves in the buffer, and when that is as much as there can be.
* `Stores`: the elements of a buffer whose size divides `2 ^ 64`, however many have been moved.
-/

namespace Fishix.RingBuffer

variable {α : Type} {size : ℕ}

section Operations

variable (b : RingBuffer α size)

/-- `write_truncate` (klib/ring_buffer.hpp:61-65). -/
def writeTruncate (buffer : List α) : ℕ × RingBuffer α size :=
  let b := if b.freeCount.toNat < buffer.length then (b.truncate buffer.length).2 else b
  b.write buffer

/-- The elements in the buffer, the oldest in front. -/
def contents : List α :=
  (List.range b.dataCount.toNat).map fun i => b.data ((b.readIndex.toNat + i) % size)

/-- The number of elements that `write_truncate` drops for `n` new ones. -/
def dropped (n : ℕ) : ℕ :=
  if b.freeCount.toNat < n then min n b.dataCount.toNat else 0

end Operations

variable {b : RingBuffer α size} {written taken buffer : List α}

section

variable (h : b.Carries written taken) (hsize : size < 2 ^ 64)

include h hsize

theorem Carries.contents : b.contents = written.drop taken.length := by
  have hle := h.length_le
  have hbefore : size ∣ 2 ^ 64 ∨ taken.length < 2 ^ 64 :=
    h.counts.imp_right fun hlt => by omega
  have hindex : ∀ i, (b.readIndex.toNat + i) % size = (taken.length + i) % size := by
    intro i
    rw [h.readIndex, Nat.add_mod, toNat_ofNat_mod hbefore, ← Nat.add_mod]
  unfold RingBuffer.contents
  simp only [hindex]
  rw [h.dataCount hsize, h.cells (by omega), List.take_of_length_le (by simp)]

/-- A write for which there is room appends everything. -/
theorem Carries.write_all (hroom : written.length + buffer.length ≤ taken.length + size)
    (hcounts : size ∣ 2 ^ 64 ∨ written.length + buffer.length < 2 ^ 64) :
    (b.write buffer).1 = buffer.length ∧ (b.write buffer).2.Carries (written ++ buffer) taken := by
  have hmin : min buffer.length (taken.length + size - written.length) = buffer.length := by omega
  obtain ⟨hcount, hcarries⟩ := h.write hsize buffer (by rwa [hmin])
  rw [hmin] at hcount
  rw [hcount, List.take_length] at hcarries
  exact ⟨hcount, hcarries⟩

/-- All new elements are written, and the oldest ones count as read. -/
theorem Carries.writeTruncate (hbuffer : buffer.length ≤ size)
    (hcounts : size ∣ 2 ^ 64 ∨ written.length + buffer.length < 2 ^ 64) :
    (b.writeTruncate buffer).1 = buffer.length ∧
      (b.writeTruncate buffer).2.Carries (written ++ buffer)
        (taken ++ (written.drop taken.length).take (b.dropped buffer.length)) := by
  have hle := h.length_le
  have hroom := h.room
  have hdata := h.dataCount hsize
  have hfree := h.freeCount hsize
  unfold RingBuffer.writeTruncate dropped
  by_cases hfull : b.freeCount.toNat < buffer.length
  · rw [if_pos hfull, if_pos hfull]
    have htake : (written.drop taken.length).take (min buffer.length b.dataCount.toNat) =
        (written.drop taken.length).take buffer.length := by
      rw [List.take_eq_take_iff, List.length_drop, hdata]
      omega
    rw [htake]
    refine (h.truncate hsize buffer.length).write_all hsize ?_ hcounts
    rw [List.length_append, List.length_take, List.length_drop]
    omega
  · rw [if_neg hfull, if_neg hfull, List.take_zero, List.append_nil]
    exact h.write_all hsize (by omega) hcounts

theorem Carries.length_contents : b.contents.length = b.dataCount.toNat := by
  rw [h.contents hsize, List.length_drop, h.dataCount hsize]

/-- As many elements are dropped as there is too little room for. -/
theorem Carries.dropped_eq_iff {n : ℕ} (hn : n ≤ size) : b.dropped n = n - b.freeCount.toNat ↔
      n ≤ b.freeCount.toNat ∨ b.freeCount.toNat = 0 ∨ n = size := by
  have hle := h.length_le
  have hroom := h.room
  have hdata := h.dataCount hsize
  have hfree := h.freeCount hsize
  unfold dropped
  split_ifs <;> omega

end

/-- **Overwriting.** The new elements stand behind what is left of the old ones. As few of these are
    dropped as can be, and the most recent elements are kept, exactly if there is room for the new
    ones, or the buffer was full, or they fill it. -/
theorem writeTruncate_contents (h : b.Carries written taken) (hsize : size < 2 ^ 64)
    (hbuffer : buffer.length ≤ size)
    (hcounts : size ∣ 2 ^ 64 ∨ written.length + buffer.length < 2 ^ 64) :
    (b.writeTruncate buffer).1 = buffer.length ∧
      (b.writeTruncate buffer).2.contents =
        b.contents.drop (b.dropped buffer.length) ++ buffer ∧
      (b.dropped buffer.length = buffer.length - b.freeCount.toNat ↔
        buffer.length ≤ b.freeCount.toNat ∨ b.freeCount.toNat = 0 ∨ buffer.length = size) ∧
      ((b.writeTruncate buffer).2.contents =
          (b.contents ++ buffer).drop (b.contents.length + buffer.length - size) ↔
        buffer.length ≤ b.freeCount.toNat ∨ b.freeCount.toNat = 0 ∨ buffer.length = size) := by
  obtain ⟨hcount, hnext⟩ := h.writeTruncate hsize hbuffer hcounts
  have hle := h.length_le
  have hroom := h.room
  have hdata := h.dataCount hsize
  have hfree := h.freeCount hsize
  have hlength := h.length_contents hsize
  have hdrop := h.dropped_eq_iff hsize hbuffer
  have hdropped : b.dropped buffer.length ≤ b.contents.length := by
    rw [hlength]
    unfold dropped
    split_ifs <;> omega
  have hcontents : (b.writeTruncate buffer).2.contents =
      b.contents.drop (b.dropped buffer.length) ++ buffer := by
    rw [hnext.contents hsize, h.contents hsize, List.length_append, List.length_take,
      List.length_drop, List.drop_append_of_le_length (by omega), ← List.drop_drop]
    rw [hlength, hdata] at hdropped
    rw [min_eq_left hdropped]
  refine ⟨hcount, hcontents, hdrop, ?_⟩
  rw [hcontents, ← hdrop, List.drop_append_of_le_length (by omega)]
  constructor
  · intro hsame
    have hlengths := congrArg List.length hsame
    simp only [List.length_append, List.length_drop] at hlengths
    omega
  · intro hsame
    rw [hsame]
    congr 2
    omega

/-- A buffer of four places with two elements. -/
def twoOfFour : RingBuffer ℕ 4 := (({ data := fun _ => 0 } : RingBuffer ℕ 4).write [1, 2]).2

theorem twoOfFour_carries : twoOfFour.Carries [1, 2] [] :=
  ((carries_empty fun _ => 0).write_all (by decide) (by decide) (.inl (by decide))).2

theorem writeTruncate_contents_twoOfFour :
    (twoOfFour.writeTruncate [3, 4, 5]).1 = 3 ∧
      (twoOfFour.writeTruncate [3, 4, 5]).2.contents = [3, 4, 5] := by
  obtain ⟨hcount, hcontents, -⟩ := @writeTruncate_contents _ _ twoOfFour [1, 2] [] [3, 4, 5]
    twoOfFour_carries (by decide) (by decide) (.inl (by decide))
  exact ⟨hcount, hcontents⟩

/-- Of the two elements one would have to go. -/
theorem writeTruncate_drops_more : ¬ ∀ (b : RingBuffer ℕ 4) (written taken buffer : List ℕ),
    b.Carries written taken → buffer.length ≤ 4 → (b.writeTruncate buffer).2.contents =
      (b.contents ++ buffer).drop (b.contents.length + buffer.length - 4) := by
  intro h
  have hmost := h twoOfFour [1, 2] [] [3, 4, 5] twoOfFour_carries (by decide)
  exact absurd hmost (by decide)

/-! ## The elements of a buffer -/

/-- The elements in the buffer are `q`, the oldest in front. -/
def Stores (b : RingBuffer α size) (q : List α) : Prop :=
  ∃ written taken, b.Carries written taken ∧ q = written.drop taken.length

theorem stores_empty (data : ℕ → α) : ({ data } : RingBuffer α size).Stores [] :=
  ⟨[], [], carries_empty data, rfl⟩

section Stores

variable {q : List α}

theorem Stores.length_le (h : b.Stores q) : q.length ≤ size := by
  obtain ⟨written, taken, hcarries, rfl⟩ := h
  have hroom := hcarries.room
  rw [List.length_drop]
  omega

variable (hsize : size < 2 ^ 64)
include hsize

section

variable (h : b.Stores q)

include h

theorem Stores.dataCount : b.dataCount.toNat = q.length := by
  obtain ⟨written, taken, hcarries, rfl⟩ := h
  rw [hcarries.dataCount hsize, List.length_drop]

theorem Stores.freeCount : b.freeCount.toNat = size - q.length := by
  obtain ⟨written, taken, hcarries, rfl⟩ := h
  have hle := hcarries.length_le
  rw [hcarries.freeCount hsize, List.length_drop]
  omega

theorem Stores.isEmpty_iff : b.isEmpty = true ↔ q = [] := by
  have hcount := h.dataCount hsize
  unfold isEmpty
  rw [beq_iff_eq, ← BitVec.toNat_inj, hcount]
  exact List.length_eq_zero_iff

theorem Stores.contents : b.contents = q := by
  obtain ⟨written, taken, hcarries, rfl⟩ := h
  exact hcarries.contents hsize

theorem Stores.read (count : ℕ) :
    (b.read count).1 = q.take count ∧ (b.read count).2.Stores (q.drop count) := by
  obtain ⟨written, taken, hcarries, rfl⟩ := h
  obtain ⟨hread, hnext⟩ := hcarries.read hsize count
  refine ⟨hread, written, _, hnext, ?_⟩
  rw [hread, List.length_append, List.length_take, List.length_drop, List.drop_drop]
  by_cases hcount : count ≤ written.length - taken.length
  · rw [min_eq_left hcount]
  · rw [List.drop_eq_nil_of_le (by omega), List.drop_eq_nil_of_le (by omega)]

theorem Stores.truncate_all : (b.truncate b.dataCount.toNat).2.Stores [] := by
  obtain ⟨written, taken, hcarries, rfl⟩ := h
  have hle := hcarries.length_le
  refine ⟨written, _, hcarries.truncate hsize _, ?_⟩
  rw [hcarries.dataCount hsize, List.length_append, List.length_take, List.length_drop,
    List.drop_eq_nil_of_le (by omega)]

end

variable (hdvd : size ∣ 2 ^ 64)
include hdvd

theorem Stores.write (h : b.Stores q) (buffer : List α) :
    (b.write buffer).2.Stores (q ++ buffer.take (size - q.length)) := by
  obtain ⟨written, taken, hcarries, rfl⟩ := h
  have hle := hcarries.length_le
  obtain ⟨hcount, hnext⟩ := hcarries.write hsize buffer (.inl hdvd)
  refine ⟨_, taken, hnext, ?_⟩
  rw [List.drop_append_of_le_length hle, hcount, List.length_drop,
    show taken.length + size - written.length = size - (written.length - taken.length) by omega,
    Nat.min_comm, ← List.take_eq_take_min]

theorem Stores.write_all (h : b.Stores q) {buffer : List α}
    (hroom : q.length + buffer.length ≤ size) : (b.write buffer).2.Stores (q ++ buffer) := by
  have hwrite := h.write hsize hdvd buffer
  rwa [List.take_of_length_le (by omega)] at hwrite

/-- Where there is room for it, an element is appended. -/
theorem Stores.writeTruncate_one (h : b.Stores q) (x : α) (hroom : q.length < size) :
    (b.writeTruncate [x]).2.Stores (q ++ [x]) := by
  have hfree := h.freeCount hsize
  unfold RingBuffer.writeTruncate
  have hnot : ¬b.freeCount.toNat < [x].length := by
    rw [hfree, List.length_singleton]
    omega
  rw [if_neg hnot]
  exact h.write_all hsize hdvd (by rw [List.length_singleton]; omega)

end Stores

end Fishix.RingBuffer
