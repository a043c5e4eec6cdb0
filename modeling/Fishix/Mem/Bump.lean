import Fishix.Common.Outcome
import Fishix.Mem.Basic

/-!
# The kernel heap

`mem/bump.cpp`: `malloc` moves a pointer up, `free` does nothing, and `realloc` copies as many
bytes as the new block has out of the old one. The heap is one mapped range of zeroed pages
(mem/vmm.cpp:28-30, 68), so every address in it can be read and written; it ends below `2 ^ 64`,
and addresses are natural numbers here.

* `memcpy_byte`: a copy upwards leaves the bytes that lie below its target.
* `reallocate_ok`: what `reallocate` does where the heap has room.
* `reallocate_yields`: it stops only where the heap is full.
* `RoomFor.reallocate`: room for several blocks.
-/

namespace Fishix.Mem

/-- The heap (mem/bump.cpp:9-11) and what stands in it. -/
structure Heap where
  byte : ℕ → BitVec 8
  allocBase : ℕ
  totalSize : ℕ
  allocPtr : ℕ

namespace Heap

variable {h : Heap}

/-- The `allocate` of a block of `size` bytes starts here (mem/bump.cpp:24, mem/bump.hpp:6). -/
def next (h : Heap) : ℕ := (h.allocBase + h.allocPtr + 15) / 16 * 16

/-- The first address behind all blocks. -/
def top (h : Heap) : ℕ := h.allocBase + h.allocPtr

/-- `allocate` (mem/bump.cpp:18-28); `none` is null. -/
def allocate (h : Heap) (size : ℕ) : Except Panic (Option ℕ × Heap) :=
  if size = 0 then .ok (none, h)
  else do
    let allocPtr := h.next - h.allocBase + size
    assert (allocPtr < h.totalSize)
    .ok (some h.next, { h with allocPtr })

/-- `memcpy` within the heap, byte by byte upwards (klib/mem.asm:5-9). -/
def memcpy (h : Heap) (dst src size : ℕ) : Heap :=
  let step := fun (byte : ℕ → BitVec 8) i => Function.update byte (dst + i) (byte (src + i))
  { h with byte := (List.range size).foldl step h.byte }

/-- `memcpy` into the heap from outside. -/
def copyIn (h : Heap) (dst : ℕ) (buf : ℕ → BitVec 8) (size : ℕ) : Heap :=
  { h with byte := fun j => if dst ≤ j ∧ j < dst + size then buf (j - dst) else h.byte j }

/-- `memcpy` out of the heap. -/
def copyOut (h : Heap) (src size : ℕ) : List (BitVec 8) :=
  (List.range size).map fun i => h.byte (src + i)

/-- `reallocate` (mem/bump.cpp:34-47): `free` does nothing. -/
def reallocate (h : Heap) (ptr : Option ℕ) (size : ℕ) : Except Panic (Option ℕ × Heap) :=
  match ptr with
  | none => h.allocate size
  | some ptr =>
    if size = 0 then .ok (none, h)
    else do
      match ← h.allocate size with
      | (none, _) => .error .badPointer
      | (some newptr, h) => .ok (some newptr, h.memcpy newptr ptr size)

/-- The heap has room for one more block of `size` bytes. -/
def Room (h : Heap) (size : ℕ) : Prop := h.next - h.allocBase + size < h.totalSize

instance (h : Heap) (size : ℕ) : Decidable (h.Room size) := inferInstanceAs (Decidable (_ < _))

theorem top_le_next : h.top ≤ h.next := by
  unfold top next
  omega

theorem allocBase_le_next : h.allocBase ≤ h.next := by
  unfold next
  omega

/-- A copy upwards: bytes outside the target stay, and bytes of the source below the target
    arrive. -/
theorem memcpy_byte {dst src size : ℕ} :
    (∀ j, j < dst ∨ dst + size ≤ j → (h.memcpy dst src size).byte j = h.byte j) ∧
      ∀ i, i < size → src + i < dst → (h.memcpy dst src size).byte (dst + i) = h.byte (src + i) := by
  unfold memcpy
  simp only
  induction size with
  | zero => simp
  | succ n ih =>
    obtain ⟨hout, hin⟩ := ih
    rw [List.range_succ, List.foldl_append]
    simp only [List.foldl_cons, List.foldl_nil]
    constructor
    · intro j hj
      rw [Function.update_of_ne (by omega)]
      exact hout j (by omega)
    · intro i hi hlow
      by_cases hlast : i = n
      · subst hlast
        rw [Function.update_self]
        exact hout _ (by omega)
      · rw [Function.update_of_ne (by omega)]
        exact hin i (by omega) hlow

/-- Where there is room, `allocate` hands out a block behind all others. -/
theorem allocate_ok {size : ℕ} (hroom : h.Room size) (hsize : 0 < size) : h.allocate size =
    .ok (some h.next, { h with allocPtr := h.next - h.allocBase + size }) := by
  have hassert : assert (decide (h.next - h.allocBase + size < h.totalSize)) = .ok () := by
    unfold assert
    exact if_pos (decide_eq_true hroom)
  unfold allocate
  rw [if_neg (by omega)]
  simp only [hassert, ok_bind]

/-- Where there is room, `reallocate` hands out a block behind all others and moves to it what the
    old block holds. -/
theorem reallocate_ok {ptr : Option ℕ} {size held : ℕ} (hroom : h.Room size) (hsize : 0 < size)
    (hptr : ∀ p, ptr = some p → p + held ≤ h.top) (hheld : held ≤ size) :
    ∃ h', h.reallocate ptr size = .ok (some h.next, h') ∧ h'.top = h.next + size ∧
      h'.allocBase = h.allocBase ∧ h'.totalSize = h.totalSize ∧
      ∀ p, ptr = some p → ∀ i < held, h'.byte (h.next + i) = h.byte (p + i) := by
  have hallocate := allocate_ok hroom hsize
  have hnext := h.allocBase_le_next
  have htop : h.allocBase + (h.next - h.allocBase + size) = h.next + size := by omega
  cases ptr with
  | none => exact ⟨_, hallocate, htop, rfl, rfl, by simp⟩
  | some p =>
    have hp := hptr p rfl
    have hle := h.top_le_next
    let h1 : Heap := { h with allocPtr := h.next - h.allocBase + size }
    refine ⟨h1.memcpy h.next p size, ?_, htop, rfl, rfl, ?_⟩
    · unfold reallocate
      simp only [if_neg (show ¬size = 0 by omega), hallocate, ok_bind, h1]
    · intro p' hp' i hi
      obtain rfl := Option.some.inj hp'
      exact memcpy_byte.2 i (by omega) (by omega)

theorem allocate_yields {size : ℕ} (hsize : 0 < size) :
    Yields (fun r => (∃ p, r.1 = some p) ∧ r.2.totalSize = h.totalSize ∧ h.Room size)
      (fun e => e = .assertion ∧ ¬h.Room size) (h.allocate size) := by
  unfold allocate assert
  rw [if_neg (by omega)]
  simp only
  by_cases hroom : h.next - h.allocBase + size < h.totalSize
  · rw [if_pos (decide_eq_true hroom)]
    exact ⟨⟨_, rfl⟩, rfl, hroom⟩
  · rw [if_neg (by simpa using hroom)]
    exact ⟨rfl, hroom⟩

theorem reallocate_yields {ptr : Option ℕ} {size : ℕ} (hsize : 0 < size) :
    Yields (fun r => r.2.totalSize = h.totalSize ∧ h.Room size)
      (fun e => e = .assertion ∧ ¬h.Room size) (h.reallocate ptr size) := by
  cases ptr with
  | none => exact (allocate_yields hsize).mono (fun _ hr => hr.2) (fun _ he => he)
  | some p =>
    unfold reallocate
    simp only [if_neg (show ¬size = 0 by omega)]
    refine (allocate_yields hsize).bind fun r hr => ?_
    obtain ⟨newptr, h'⟩ := r
    obtain ⟨⟨q, rfl⟩, htotal⟩ := hr
    exact htotal

/-! ## Room for several blocks -/

/-- The heap has room for `n` more blocks of `size` bytes. -/
def RoomFor (h : Heap) (n size : ℕ) : Prop := h.allocPtr + n * (size + 15) < h.totalSize

instance (h : Heap) (n size : ℕ) : Decidable (h.RoomFor n size) :=
  inferInstanceAs (Decidable (_ < _))

variable {n k size : ℕ}

theorem RoomFor.pred (hroom : h.RoomFor (n + 1) size) : h.RoomFor n size := by
  unfold RoomFor at hroom ⊢
  rw [Nat.succ_mul] at hroom
  omega

theorem RoomFor.room (hroom : h.RoomFor (n + 1) size) (hk : k ≤ size) : h.Room k := by
  unfold RoomFor at hroom
  rw [Nat.succ_mul] at hroom
  unfold Room next
  omega

/-- One of them has been taken. -/
theorem RoomFor.reallocate {h' : Heap} {ptr ptr' : Option ℕ} (hroom : h.RoomFor (n + 1) size)
    (hk : k ≤ size) (hpos : 0 < k) (h1 : h.reallocate ptr k = .ok (ptr', h')) :
    h'.RoomFor n size := by
  have hallocate := allocate_ok (hroom.room hk) hpos
  have hptr : h'.allocPtr = h.next - h.allocBase + k ∧ h'.totalSize = h.totalSize := by
    cases ptr with
    | none =>
      obtain ⟨-, rfl⟩ := pure_pair (hallocate.symm.trans h1)
      exact ⟨rfl, rfl⟩
    | some p =>
      unfold Heap.reallocate at h1
      simp only [if_neg (show ¬k = 0 by omega), hallocate, ok_bind] at h1
      obtain ⟨-, rfl⟩ := pure_pair h1
      exact ⟨rfl, rfl⟩
  unfold RoomFor at hroom ⊢
  rw [Nat.succ_mul] at hroom
  rw [hptr.1, hptr.2]
  unfold next
  omega

end Heap

end Fishix.Mem
