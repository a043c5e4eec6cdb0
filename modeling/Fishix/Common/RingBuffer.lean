import Fishix.Common.Word

/-!
# `klib::RingBuffer`

Model of `klib/ring_buffer.hpp` lines 10-69: an array of `size` elements and two indices that only
grow, modulo `2 ^ 64`; the element with number `i` stands at `i % size`.

The abstract state of a buffer is two lists: everything that has been written and everything that
has been read. `Carries` says that the second is the beginning of the first, and that what is
between them stands in the array.

* `Carries.read`, `Carries.write`, `Carries.truncate`: what the operations do to the two lists.
* `Carries.isEmpty_iff`, `Carries.isFull_iff`: the two tests.

Where `size` is no divisor of `2 ^ 64`, the indices stop to agree with the array once they wrap, so
that `Carries` holds only as long as fewer than `2 ^ 64` elements have been written.
-/

namespace Fishix

open BitVec (ofNat toNat_ofNat)

/-- `klib::RingBuffer<T, size>` (klib/ring_buffer.hpp:10-22). -/
structure RingBuffer (α : Type) (size : ℕ) where
  readIndex : U64 := 0#64
  writeIndex : U64 := 0#64
  data : ℕ → α

namespace RingBuffer

variable {α : Type} {size : ℕ}

/-- The elements `offset` to `offset + count - 1` of an array. -/
def load (data : ℕ → α) (offset count : ℕ) : List α :=
  (List.range count).map fun i => data (offset + i)

/-- `memcpy(data + offset, buffer, …)`. -/
def store (data : ℕ → α) (offset : ℕ) (buffer : List α) : ℕ → α := fun i =>
  if offset ≤ i then buffer[i - offset]?.getD (data i) else data i

section Operations

variable (b : RingBuffer α size)

def dataCount : U64 := b.writeIndex - b.readIndex

def freeCount : U64 := ofNat 64 size - b.dataCount

def isEmpty : Bool := b.dataCount == 0#64

def isFull : Bool := b.dataCount == ofNat 64 size

/-- `read` (klib/ring_buffer.hpp:24-38): what it stores in `buffer`, and the buffer after it. -/
def read (count : ℕ) : List α × RingBuffer α size :=
  let count := min count b.dataCount.toNat
  if count = 0 then ([], b) else
    let firstPassOffset := b.readIndex.toNat % size
    let firstPassRemaining := size - firstPassOffset
    let firstPassCount := min count firstPassRemaining
    let buffer := load b.data firstPassOffset firstPassCount
    let buffer := if firstPassCount < count then
      buffer ++ load b.data 0 (count - firstPassCount) else buffer
    (buffer, { b with readIndex := b.readIndex + ofNat 64 count })

/-- `write` (klib/ring_buffer.hpp:40-53). -/
def write (buffer : List α) : ℕ × RingBuffer α size :=
  let count := min buffer.length b.freeCount.toNat
  let firstPassOffset := b.writeIndex.toNat % size
  let firstPassRemaining := size - firstPassOffset
  let firstPassCount := min count firstPassRemaining
  let data := store b.data firstPassOffset (buffer.take firstPassCount)
  let data := if firstPassCount < count then
    store data 0 ((buffer.drop firstPassCount).take (count - firstPassCount)) else data
  (count, { b with data, writeIndex := b.writeIndex + ofNat 64 count })

/-- `truncate` (klib/ring_buffer.hpp:55-59). -/
def truncate (count : ℕ) : ℕ × RingBuffer α size :=
  let count := min count b.dataCount.toNat
  (count, { b with readIndex := b.readIndex + ofNat 64 count })

end Operations

/-! ## Positions in the array -/

section Positions

variable {a k : ℕ}

/-- `k` places behind the place of `a`, over the end of the array at most once. -/
theorem add_mod_eq (hk : k < size) :
    (a + k) % size = if a % size + k < size then a % size + k else a % size + k - size := by
  have ha : a % size < size := Nat.mod_lt _ (by omega)
  rw [Nat.add_mod, Nat.mod_eq_of_lt hk]
  split_ifs with h
  · exact Nat.mod_eq_of_lt h
  · rw [Nat.mod_eq_sub_mod (by omega), Nat.mod_eq_of_lt (by omega)]

/-- An index that has wrapped still says the place, or has not wrapped. -/
theorem toNat_ofNat_mod (h : size ∣ 2 ^ 64 ∨ a < 2 ^ 64) :
    (ofNat 64 a).toNat % size = a % size := by
  rw [toNat_ofNat]
  rcases h with h | h
  · exact Nat.mod_mod_of_dvd a h
  · rw [Nat.mod_eq_of_lt h]

/-- Two passes load the elements one after the other around the array. -/
theorem load_twice (data : ℕ → α) {n : ℕ} (hn : n ≤ size) :
    (if min n (size - a % size) < n then
      load data (a % size) (min n (size - a % size)) ++ load data 0 (n - min n (size - a % size))
    else load data (a % size) (min n (size - a % size))) =
      (List.range n).map fun i => data ((a + i) % size) := by
  unfold load
  split_ifs with h
  · have hsum : n = (size - a % size) + (n - (size - a % size)) := by omega
    rw [show min n (size - a % size) = size - a % size by omega]
    conv_rhs => rw [hsum, List.range_add, List.map_append, List.map_map]
    congr 1
    · apply List.map_congr_left
      intro i hi
      have hi : i < size - a % size := List.mem_range.mp hi
      rw [add_mod_eq (by omega), if_pos (by omega)]
    · apply List.map_congr_left
      intro i hi
      have hi : i < n - (size - a % size) := List.mem_range.mp hi
      have hpos : a % size < size := Nat.mod_lt _ (by omega)
      show data (0 + i) = data ((a + (size - a % size + i)) % size)
      rw [add_mod_eq (by omega), if_neg (by omega)]
      congr 1
      omega
  · rw [show min n (size - a % size) = n by omega]
    apply List.map_congr_left
    intro i hi
    have hi : i < n := List.mem_range.mp hi
    rw [add_mod_eq (by omega), if_pos (by omega)]

section

variable (data : ℕ → α) {buffer : List α}

include data

theorem store_at {offset i : ℕ} (hle : offset ≤ i) (hlt : i - offset < buffer.length) :
    store data offset buffer i = buffer[i - offset] := by
  unfold store
  rw [if_pos hle, List.getElem?_eq_getElem hlt]
  rfl

theorem store_away {offset i : ℕ} (h : offset ≤ i → buffer.length ≤ i - offset) :
    store data offset buffer i = data i := by
  unfold store
  split_ifs with hle
  · rw [List.getElem?_eq_none (h hle)]
    rfl
  · rfl

/-- The array after two passes: the new elements stand behind `a`. -/
theorem store_twice_new {n : ℕ} (hn : n ≤ size) (hbuffer : n ≤ buffer.length) (hk : k < n) :
    (if min n (size - a % size) < n then
      store (store data (a % size) (buffer.take (min n (size - a % size)))) 0
        ((buffer.drop (min n (size - a % size))).take (n - min n (size - a % size)))
    else store data (a % size) (buffer.take (min n (size - a % size)))) ((a + k) % size) =
      buffer[k] := by
  have hpos : a % size < size := Nat.mod_lt _ (by omega)
  rw [add_mod_eq (by omega)]
  by_cases hfirst : a % size + k < size
  · -- before the end of the array: the second pass does not reach it
    have hpass : store data (a % size) (buffer.take (min n (size - a % size))) (a % size + k) =
        buffer[k] := by
      rw [store_at data (by omega) (by simp; omega)]
      simp
    rw [if_pos hfirst]
    split_ifs with h
    · rw [store_away _ (by simp; omega)]
      exact hpass
    · exact hpass
  · rw [if_neg hfirst, if_pos (by omega), store_at _ (by omega) (by simp; omega), List.getElem_take,
      List.getElem_drop]
    congr 1
    omega

/-- What is not within the `n` places behind `a` is as before. -/
theorem store_twice_old {n j : ℕ} (hj : j < size) (hn : n ≤ size)
    (hfar : ∀ k < n, j ≠ (a + k) % size) :
    (if min n (size - a % size) < n then
      store (store data (a % size) (buffer.take (min n (size - a % size)))) 0
        ((buffer.drop (min n (size - a % size))).take (n - min n (size - a % size)))
    else store data (a % size) (buffer.take (min n (size - a % size)))) j = data j := by
  have hpos : a % size < size := Nat.mod_lt _ (by omega)
  have hpass : store data (a % size) (buffer.take (min n (size - a % size))) j = data j := by
    apply store_away
    intro hle
    by_contra hlt
    have hlt : j - a % size < n := by
      simp at hlt
      omega
    refine hfar (j - a % size) hlt ?_
    rw [add_mod_eq (by omega), if_pos (by omega)]
    omega
  split_ifs with h
  · rw [store_away _, hpass]
    intro _
    by_contra hlt
    have hlt : size - a % size + j < n := by
      simp at hlt
      omega
    refine hfar (size - a % size + j) hlt ?_
    rw [add_mod_eq (by omega), if_neg (by omega)]
    omega
  · exact hpass

end

end Positions

/-! ## What has been written and read -/

/-- `written` has been written into the buffer and `read` been read from it. -/
structure Carries (b : RingBuffer α size) (written read : List α) : Prop where
  readIndex : b.readIndex = ofNat 64 read.length
  writeIndex : b.writeIndex = ofNat 64 written.length
  taken : read <+: written
  room : written.length ≤ read.length + size
  counts : size ∣ 2 ^ 64 ∨ written.length < 2 ^ 64
  cell : ∀ i, read.length ≤ i → ∀ h : i < written.length, b.data (i % size) = written[i]

theorem carries_empty (data : ℕ → α) : ({ data } : RingBuffer α size).Carries [] [] := by
  refine ⟨rfl, rfl, List.prefix_refl _, by simp, .inr (by simp), ?_⟩
  intro i _ h
  simp at h

variable {b : RingBuffer α size} {written taken : List α}

namespace Carries

theorem length_le (h : b.Carries written taken) : taken.length ≤ written.length := h.taken.length_le

/-- The elements that the indices stand for. -/
theorem cells (h : b.Carries written taken) {n : ℕ} (hn : taken.length + n ≤ written.length) :
    (List.range n).map (fun i => b.data ((taken.length + i) % size)) =
      (written.drop taken.length).take n := by
  apply List.ext_getElem
  · simp
    omega
  · intro i hi _
    have hi : i < n := by simpa using hi
    simp [h.cell (taken.length + i) (by omega) (by omega)]

/-- More has been taken out. -/
theorem advance (h : b.Carries written taken) {n : ℕ} (hn : taken.length + n ≤ written.length) :
    ({ b with readIndex := b.readIndex + ofNat 64 n } : RingBuffer α size).Carries written
      (taken ++ (written.drop taken.length).take n) := by
  have hlength : (taken ++ (written.drop taken.length).take n).length = taken.length + n := by
    simp
    omega
  refine ⟨?_, h.writeIndex, ?_, ?_, h.counts, ?_⟩
  · rw [hlength]
    show b.readIndex + _ = _
    rw [h.readIndex, BitVec.ofNat_add]
  · obtain ⟨rest, hrest⟩ := h.taken
    rw [← hrest, List.drop_left]
    exact (List.prefix_append_right_inj taken).mpr (List.take_prefix n rest)
  · have := h.room
    omega
  · intro i hi hlt
    exact h.cell i (by omega) hlt

section Counts

variable (hsize : size < 2 ^ 64)
include hsize

section

variable (h : b.Carries written taken)

include h

theorem dataCount : b.dataCount.toNat = written.length - taken.length := by
  have hle := h.length_le
  have hroom := h.room
  unfold RingBuffer.dataCount
  rw [h.readIndex, h.writeIndex, BitVec.toNat_sub, toNat_ofNat, toNat_ofNat]
  omega

theorem freeCount : b.freeCount.toNat = taken.length + size - written.length := by
  have hle := h.length_le
  have hroom := h.room
  unfold RingBuffer.freeCount
  rw [BitVec.toNat_sub, h.dataCount hsize, toNat_ofNat, Nat.mod_eq_of_lt hsize]
  omega

theorem isEmpty_iff : b.isEmpty = true ↔ taken = written := by
  have hcount := h.dataCount hsize
  unfold isEmpty
  rw [beq_iff_eq, ← BitVec.toNat_inj, hcount]
  show _ = 0 ↔ _
  constructor
  · intro hzero
    exact h.taken.eq_of_length_le (by omega)
  · intro heq
    rw [heq]
    omega

theorem isFull_iff : b.isFull = true ↔ written.length = taken.length + size := by
  have hcount := h.dataCount hsize
  have hle := h.length_le
  unfold isFull
  rw [beq_iff_eq, ← BitVec.toNat_inj, hcount, toNat_ofNat, Nat.mod_eq_of_lt hsize]
  omega

/-- A read returns the next elements, as many as asked for or there are. -/
theorem read (count : ℕ) :
    (b.read count).1 = (written.drop taken.length).take count ∧
      (b.read count).2.Carries written (taken ++ (b.read count).1) := by
  have hle := h.length_le
  have hroom := h.room
  have hread : (b.read count).1 = (written.drop taken.length).take
      (min count (written.length - taken.length)) := by
    unfold RingBuffer.read
    rw [h.dataCount hsize]
    by_cases hzero : min count (written.length - taken.length) = 0
    · simp [hzero]
    · simp only [hzero, if_false]
      have hbefore : size ∣ 2 ^ 64 ∨ taken.length < 2 ^ 64 :=
        h.counts.imp_right (fun hlt => by omega)
      rw [h.readIndex, toNat_ofNat_mod hbefore, load_twice b.data (by omega)]
      exact h.cells (by omega)
  have htake : (written.drop taken.length).take (min count (written.length - taken.length)) =
      (written.drop taken.length).take count := by
    rw [List.take_eq_take_iff]
    simp
  refine ⟨hread.trans htake, ?_⟩
  rw [hread]
  have hadvance := h.advance
    (show taken.length + min count (written.length - taken.length) ≤ written.length by omega)
  unfold RingBuffer.read
  rw [h.dataCount hsize]
  by_cases hzero : min count (written.length - taken.length) = 0
  · simpa [hzero] using h
  · simpa only [hzero, if_false] using hadvance

/-- What is dropped counts as read. -/
theorem truncate (count : ℕ) :
    (b.truncate count).2.Carries written (taken ++ (written.drop taken.length).take count) := by
  have hle := h.length_le
  have htake : (written.drop taken.length).take (min count (written.length - taken.length)) =
      (written.drop taken.length).take count := by
    rw [List.take_eq_take_iff]
    simp
  unfold RingBuffer.truncate
  rw [h.dataCount hsize, ← htake]
  exact h.advance (by omega)

/-- A write appends as many elements as there is room for. -/
theorem write (buffer : List α) (hcounts : size ∣ 2 ^ 64 ∨ written.length + min buffer.length
    (taken.length + size - written.length) < 2 ^ 64) :
    (b.write buffer).1 = min buffer.length (taken.length + size - written.length) ∧
      (b.write buffer).2.Carries (written ++ buffer.take (b.write buffer).1) taken := by
  have hle := h.length_le
  have hroom := h.room
  have hcount : (b.write buffer).1 =
      min buffer.length (taken.length + size - written.length) := by
    unfold RingBuffer.write
    rw [h.freeCount hsize]
  refine ⟨hcount, ?_⟩
  rw [hcount]
  have hlength : (written ++ buffer.take (min buffer.length
      (taken.length + size - written.length))).length =
      written.length + min buffer.length (taken.length + size - written.length) := by
    simp
  constructor
  · exact h.readIndex
  · rw [hlength]
    show b.writeIndex + _ = _
    rw [h.freeCount hsize, h.writeIndex, BitVec.ofNat_add]
  · exact h.taken.trans (List.prefix_append _ _)
  · omega
  · rw [hlength]
    exact hcounts
  · intro i hi hlt
    unfold RingBuffer.write
    simp only
    rw [h.freeCount hsize, h.writeIndex, toNat_ofNat_mod h.counts]
    have hsizepos : 0 < size := by omega
    by_cases hold : i < written.length
    · -- an old element: no new one has its place
      rw [store_twice_old b.data (Nat.mod_lt _ hsizepos) (by omega), List.getElem_append_left hold]
      · exact h.cell i hi hold
      · intro k hk heq
        have hmod : (written.length + k - i) % size = 0 := Nat.sub_mod_eq_zero_of_mod_eq heq.symm
        have hsmall : written.length + k - i < size := by omega
        rw [Nat.mod_eq_of_lt hsmall] at hmod
        omega
    · obtain ⟨k, rfl⟩ := Nat.exists_eq_add_of_le (Nat.le_of_not_lt hold)
      rw [store_twice_new b.data (by omega) (by omega) (by omega),
        List.getElem_append_right (by omega)]
      simp

end

end Counts

end Carries

end RingBuffer

end Fishix
