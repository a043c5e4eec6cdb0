import Fishix.Mem.Bump
import Fishix.Userland.MemFd

/-!
# Regular files of `tmpfs`

Model of `fs/tmpfs.cpp` lines 93-121 and 155-164: `grow_to`, `read`, `write` and `truncate` of a
regular node, over the kernel heap that its `storage` points into. Between two calls the rest of the
kernel writes to the heap and allocates from it as it likes, outside this file's block.

What such a file is for is the zero-filled array `Reference` of `Userland/MemFd.lean`. `grow_to`
sets `size` before its callers look at it: `truncate` then clears nothing, and `write` never clears
what lies between the old end and its offset. `Fills` is that no step leaves such a gap.

* `Refines.grow`, `Refines.write`, `Refines.truncate`, `Refines.read`: one step for each operation.
* `tmpfs_refines`: the run.
* `regrown_shows_stale`: two bytes, cut to one and regrown to two.
-/

namespace Fishix.Fs.Tmpfs

open Fishix.Mem (Heap Panic)
open Fishix.Userland (Byte Reference Reply)
open BitVec (toNat_add le_def lt_def)

/-- `NodeData` (fs/tmpfs.hpp:17-21). -/
structure NodeData where
  storage : Option ℕ := none
  size : U64 := 0#64
  capacity : U64 := 0#64

/-- A regular file and the heap it lives in. -/
structure State where
  node : NodeData
  heap : Heap

/-- The loop of `grow_to` (fs/tmpfs.cpp:97-98), in at most `turns` turns. -/
def nextCapacity (size : U64) : ℕ → U64 → Except Panic U64
  | 0, _ => .error .diverges
  | turns + 1, capacity =>
    if capacity < size then nextCapacity size turns (klibMax 1#64 (capacity * 4#64))
    else .ok capacity

namespace State

/-- `Node::grow_to` (fs/tmpfs.cpp:93-101). A capacity goes through no more than 33 values until it
    is zero again. -/
def growTo (s : State) (length : U64) : Except Panic State :=
  let node := { s.node with size := length }
  if node.capacity < node.size then do
    let capacity ← nextCapacity node.size 34 node.capacity
    let (storage, heap) ← s.heap.reallocate node.storage capacity.toNat
    .ok { node := { node with capacity, storage }, heap }
  else .ok { s with node }

/-- The address `storage + offset`. -/
def addr (s : State) (offset : ℕ) : ℕ := s.node.storage.getD 0 + offset

/-- `Node::read` (fs/tmpfs.cpp:103-111): the bytes copied to `buf`, as many as it returns. -/
def read (s : State) (count offset : U64) : List Byte :=
  if offset ≥ s.node.size then []
  else
    let actualCount := if offset + count > s.node.size then s.node.size - offset else count
    s.heap.copyOut (s.addr offset.toNat) actualCount.toNat

/-- `Node::write` (fs/tmpfs.cpp:113-121). -/
def write (s : State) (buf : ℕ → Byte) (count offset : U64) : Except Panic (U64 × State) :=
  if count = 0#64 then .ok (0#64, s)
  else do
    let s ← (if offset + count > s.node.size then s.growTo (offset + count) else .ok s)
    .ok (count, { s with heap := s.heap.copyIn (s.addr offset.toNat) buf count.toNat })

/-- `Node::truncate` (fs/tmpfs.cpp:155-164). -/
def truncate (s : State) (length : U64) : Except Panic State := do
  let s ← (if length > s.node.size then do
      let s ← s.growTo length
      let heap := s.heap.copyIn (s.addr s.node.size.toNat) (fun _ => 0#8) (length - s.node.size).toNat
      .ok { s with heap }
    else .ok s)
  .ok { s with node := { s.node with size := length } }

/-- The rest of the kernel: what it writes outside the block of this file, and what it
    allocates. -/
def elsewhere (s : State) (byte : ℕ → Byte) (allocated : ℕ) : State :=
  { s with heap := { s.heap with
      allocPtr := s.heap.allocPtr + allocated
      byte := fun j =>
        if s.addr 0 ≤ j ∧ j < s.addr s.node.capacity.toNat then s.heap.byte j else byte j } }

end State

/-! ## Runs -/

inductive Op where
  /-- A call on this file. -/
  | file (o : Userland.Op)
  | elsewhere (byte : ℕ → Byte) (allocated : ℕ)

def step (s : State) : Op → Except Panic (List Reply × State)
  | .file (.read count offset) => .ok ([.bytes (s.read count offset)], s)
  | .file (.write buf count offset) => do
    let (n, s) ← s.write buf count offset
    .ok ([.value n], s)
  | .file (.truncate length) => do
    let s ← s.truncate length
    .ok ([.value 0#64], s)
  | .elsewhere byte allocated => .ok ([], s.elsewhere byte allocated)

/-- The replies of a sequence of operations and the final state. -/
def run : List Op → State → Except Panic (List Reply × State)
  | [], s => .ok ([], s)
  | o :: os, s => do
    let (reply, s) ← step s o
    let (replies, s) ← run os s
    .ok (reply ++ replies, s)

/-- What the array does at the same time. -/
def follow (a : Reference) : Op → List Reply × Reference
  | .file o => ([(a.step o).1], (a.step o).2)
  | .elsewhere _ _ => ([], a)

/-- The replies of the array, and its final state. -/
def followRun : List Op → Reference → List Reply × Reference
  | [], a => ([], a)
  | o :: os, a => ((follow a o).1 ++ (followRun os (follow a o).2).1, (followRun os (follow a o).2).2)

/-! ## When an operation keeps to the array -/

/-- `offset + count` is below `2 ^ 62`. -/
def Op.InBounds : Op → Prop
  | .file (.read count offset) => offset.toNat + count.toNat < 2 ^ 62
  | .file (.write _ count offset) => offset.toNat + count.toNat < 2 ^ 62
  | .file (.truncate _) => True
  | .elsewhere _ _ => True

/-- The heap has room when the file has to grow to `length`. -/
def State.Room (s : State) (length : U64) : Prop :=
  ∀ capacity, s.node.capacity < length → nextCapacity length 34 s.node.capacity = .ok capacity →
    s.heap.Room capacity.toNat

/-- No byte comes into the file that is not written by the same operation, and the heap has room. -/
def Op.Fills (s : State) : Op → Prop
  | .file (.read _ _) => True
  | .file (.write _ count offset) => count = 0#64 ∨ offset ≤ s.node.size ∧ s.Room (offset + count)
  | .file (.truncate length) => length ≤ s.node.size
  | .elsewhere _ _ => True

/-- Every operation of the run meets its condition in the state before it. -/
def RunFills : List Op → State → Prop
  | [], _ => True
  | o :: os, s => o.Fills s ∧ ∀ reply s', step s o = .ok (reply, s') → RunFills os s'

/-! ## Growth -/

/-- A capacity that `grow_to` sets. -/
def IsCapacity (c : U64) : Prop := c = 0#64 ∨ ∃ n ≤ 31, c.toNat = 4 ^ n

theorem nextCapacity_of_pow {size : U64} (hsize : size.toNat ≤ 2 ^ 62) :
    ∀ {turns n : ℕ} {c : U64}, n ≤ 31 → 32 ≤ turns + n → 0 < turns → c.toNat = 4 ^ n →
      ∃ c', nextCapacity size turns c = .ok c' ∧ IsCapacity c' ∧ size ≤ c' ∧ c ≤ c'
  | 0, _, _, _, _, hpos, _ => absurd hpos (Nat.lt_irrefl 0)
  | turns + 1, n, c, hn, hturns, _, hc => by
    unfold nextCapacity
    by_cases hlt : c < size
    · rw [if_pos hlt]
      have hlt' := lt_def.mp hlt
      have hn31 : n < 31 := by
        rcases Nat.lt_or_ge n 31 with h | h
        · exact h
        · have : n = 31 := by omega
          subst this
          norm_num at hc hsize
          omega
      have hpow : 4 ^ (n + 1) ≤ 4 ^ 31 := Nat.pow_le_pow_right (by norm_num) (by omega)
      have hnext : (klibMax 1#64 (c * 4#64)).toNat = 4 ^ (n + 1) := by
        have hmul : (c * 4#64).toNat = 4 ^ (n + 1) := by
          rw [BitVec.toNat_mul, hc]
          norm_num at hpow ⊢
          omega
        have hone : 1 < 4 ^ (n + 1) := Nat.one_lt_pow (by omega) (by norm_num)
        have hmax : 1#64 < c * 4#64 := by
          rw [lt_def, hmul]
          exact hone
        rw [klibMax, if_pos hmax, hmul]
      obtain ⟨c', hc', hcap, hsize', hle⟩ := nextCapacity_of_pow hsize
        (show n + 1 ≤ 31 by omega) (show 32 ≤ turns + (n + 1) by omega) (by omega) hnext
      refine ⟨c', hc', hcap, hsize', ?_⟩
      rw [le_def] at hle ⊢
      rw [hnext, pow_succ] at hle
      omega
    · rw [if_neg hlt]
      exact ⟨c, rfl, .inr ⟨n, hn, hc⟩, BitVec.not_lt.mp hlt, BitVec.le_refl _⟩

theorem nextCapacity_ok {size c : U64} (hsize : size.toNat ≤ 2 ^ 62) (hc : IsCapacity c) :
    ∃ c', nextCapacity size 34 c = .ok c' ∧ IsCapacity c' ∧ size ≤ c' ∧ c ≤ c' := by
  obtain rfl | ⟨n, hn, hc⟩ := hc
  · unfold nextCapacity
    by_cases hlt : 0#64 < size
    · rw [if_pos hlt]
      obtain ⟨c', hc', hcap, hsize', -⟩ := nextCapacity_of_pow hsize
        (show 0 ≤ 31 by omega) (show 32 ≤ 33 + 0 by omega) (by omega)
        (show (klibMax 1#64 (0#64 * 4#64)).toNat = 4 ^ 0 by decide)
      exact ⟨c', hc', hcap, hsize', le_def.mpr (Nat.zero_le _)⟩
    · rw [if_neg hlt]
      exact ⟨0#64, rfl, .inl rfl, BitVec.not_lt.mp hlt, BitVec.le_refl _⟩
  · exact nextCapacity_of_pow hsize hn (by omega) (by omega) hc

/-- The block of the file is below the top of the heap and as large as its capacity. -/
structure Stored (s : State) : Prop where
  capacity : IsCapacity s.node.capacity
  size_le : s.node.size ≤ s.node.capacity
  block : s.node.capacity ≠ 0#64 →
    ∃ p, s.node.storage = some p ∧ p + s.node.capacity.toNat ≤ s.heap.top
  empty : s.node.capacity = 0#64 → s.node.storage = none

/-- What the rest of the kernel allocates lies behind the block. -/
theorem Stored.elsewhere {s : State} (h : Stored s) (byte : ℕ → Byte) (allocated : ℕ) :
    Stored (s.elsewhere byte allocated) := by
  refine ⟨h.capacity, h.size_le, ?_, h.empty⟩
  intro hz
  obtain ⟨p, hp, htop⟩ := h.block hz
  refine ⟨p, hp, ?_⟩
  show p + s.node.capacity.toNat ≤ s.heap.allocBase + (s.heap.allocPtr + allocated)
  unfold Heap.top at htop
  omega

theorem growTo_ok {s : State} {length : U64} (h : Stored s) (hlength : length.toNat ≤ 2 ^ 62)
    (hroom : s.Room length) :
    ∃ s', s.growTo length = .ok s' ∧ s'.node.size = length ∧ Stored s' ∧
      ∀ i < s.node.size.toNat, s'.heap.byte (s'.addr i) = s.heap.byte (s.addr i) := by
  have hsize := le_def.mp h.size_le
  unfold State.growTo
  simp only
  by_cases hgrow : s.node.capacity < length
  · rw [if_pos hgrow]
    obtain ⟨c, hnext, hcap, hlen, hmore⟩ := nextCapacity_ok hlength h.capacity
    have hlen' := le_def.mp hlen
    have hmore' := le_def.mp hmore
    have hgrow' := lt_def.mp hgrow
    have hblock : ∀ p, s.node.storage = some p → p + s.node.capacity.toNat ≤ s.heap.top := by
      intro p hp
      by_cases hz : s.node.capacity = 0#64
      · rw [h.empty hz] at hp
        cases hp
      · obtain ⟨q, hq, htop⟩ := h.block hz
        rw [hq] at hp
        rw [← Option.some.inj hp]
        exact htop
    obtain ⟨heap, hrealloc, htop, -, -, hcopy⟩ := Heap.reallocate_ok (hroom c hgrow hnext)
      (by omega) hblock hmore'
    rw [hnext, ok_bind, hrealloc, ok_bind]
    refine ⟨_, rfl, rfl, ⟨hcap, hlen, ?_, ?_⟩, ?_⟩
    · intro _
      exact ⟨s.heap.next, rfl, htop.ge⟩
    · intro hz
      have hz' : c = 0#64 := hz
      rw [hz'] at hlen'
      simp only [BitVec.toNat_ofNat, Nat.zero_mod] at hlen'
      omega
    · intro i hi
      by_cases hz : s.node.capacity = 0#64
      · rw [hz] at hsize
        simp only [BitVec.toNat_ofNat, Nat.zero_mod] at hsize
        omega
      · obtain ⟨p, hp, -⟩ := h.block hz
        have := hcopy p hp i (by omega)
        simpa [State.addr, hp] using this
  · rw [if_neg hgrow]
    exact ⟨_, rfl, rfl, ⟨h.capacity, BitVec.not_lt.mp hgrow, h.block, h.empty⟩, fun _ _ => rfl⟩

theorem growTo_yields {s : State} {length : U64} (h : Stored s) (hlength : length.toNat ≤ 2 ^ 62) :
    Yields (fun s' => s.Room length ∧ s'.heap.totalSize = s.heap.totalSize ∧
        s'.node.capacity.toNat ≤ max s.node.capacity.toNat s.heap.totalSize)
      (· = .assertion) (s.growTo length) := by
  unfold State.growTo
  simp only
  by_cases hmore : s.node.capacity < length
  · obtain ⟨c, hnext, -, hlen, -⟩ := nextCapacity_ok hlength h.capacity
    have hpos : 0 < c.toNat := by
      have := lt_def.mp hmore
      have := le_def.mp hlen
      omega
    rw [if_pos hmore, hnext, ok_bind]
    refine ((Heap.reallocate_yields hpos).mono (fun _ hr => hr) (fun _ he => he.1)).bind ?_
    rintro ⟨storage, heap⟩ ⟨htotal, hroom⟩
    refine ⟨?_, htotal, le_max_of_le_right ?_⟩
    · intro c' _ hc'
      obtain rfl := Except.ok.inj (hnext.symm.trans hc')
      exact hroom
    · show c.toNat ≤ s.heap.totalSize
      unfold Heap.Room at hroom
      omega
  · rw [if_neg hmore]
    exact ⟨fun c hc _ => absurd hc hmore, rfl, le_max_left _ _⟩

/-! ## Refinement -/

/-- The file stands for the array `a`. -/
structure Refines (s : State) (a : Reference) : Prop extends Stored s where
  size : s.node.size.toNat = a.size
  bytes : ∀ i < a.size, s.heap.byte (s.addr i) = a.byte i

namespace Refines

variable {s : State} {a : Reference}

section

variable (h : Refines s a)

include h

theorem write {buf : ℕ → Byte} {count offset : U64} (hbounds : offset.toNat + count.toNat < 2 ^ 62)
    (hfills : count = 0#64 ∨ offset ≤ s.node.size ∧ s.Room (offset + count)) :
    ∃ s', s.write buf count offset = .ok (count, s') ∧
      Refines s' (a.write buf count.toNat offset.toNat) := by
  unfold State.write
  by_cases hz : count = 0#64
  · rw [if_pos hz]
    subst hz
    refine ⟨s, rfl, ⟨h.toStored, ?_, ?_⟩⟩
    · simpa [Reference.write] using h.size
    · intro i hi
      have hout : ¬Reference.Window 0 offset.toNat i := by
        unfold Reference.Window
        omega
      have hi' : i < a.size := by simpa [Reference.write] using hi
      simpa [Reference.write, hout] using h.bytes i hi'
  rw [if_neg hz]
  obtain ⟨hoffset, hroom⟩ := hfills.resolve_left hz
  have hoffset' := le_def.mp hoffset
  have hsum : (offset + count).toNat = offset.toNat + count.toNat := by
    rw [toNat_add]
    omega
  have hcount : count.toNat ≠ 0 := by
    intro h0
    apply hz
    apply BitVec.eq_of_toNat_eq
    simpa using h0
  have hsize := h.size
  -- the file is large enough for what is written, and the bytes it had are where they were
  obtain ⟨s1, hgrow, hnew, hstored, hkept⟩ : ∃ s1,
      (if offset + count > s.node.size then s.growTo (offset + count) else .ok s) = .ok s1 ∧
      s1.node.size.toNat = max a.size (offset.toNat + count.toNat) ∧ Stored s1 ∧
      ∀ i < a.size, s1.heap.byte (s1.addr i) = a.byte i := by
    split_ifs with hmore
    · obtain ⟨s1, hgrow, hnew, hstored, hkept⟩ := growTo_ok h.toStored (by omega) hroom
      have hmore' := lt_def.mp hmore
      refine ⟨s1, hgrow, ?_, hstored, ?_⟩
      · rw [hnew]
        omega
      · intro i hi
        rw [hkept i (by omega)]
        exact h.bytes i hi
    · have hmore' := le_def.mp (BitVec.not_lt.mp hmore)
      exact ⟨s, rfl, by omega, h.toStored, h.bytes⟩
  rw [hgrow, ok_bind]
  refine ⟨_, rfl, ⟨⟨hstored.capacity, hstored.size_le, hstored.block, hstored.empty⟩, ?_, ?_⟩⟩
  · simpa [Reference.write, hcount] using hnew
  · intro i hi
    have hi' : i < max a.size (offset.toNat + count.toNat) := by
      simpa [Reference.write, hcount] using hi
    have haddr : ∀ j, State.addr s1 j = State.addr s1 0 + j := by
      intro j
      simp [State.addr]
    show (s1.heap.copyIn (s1.addr offset.toNat) buf count.toNat).byte (s1.addr i) = _
    unfold Heap.copyIn Reference.write
    simp only
    rw [haddr i, haddr offset.toNat]
    by_cases hin : Reference.Window count.toNat offset.toNat i
    · rw [if_pos hin]
      obtain ⟨hlow, hhigh⟩ := hin
      rw [if_pos (by omega)]
      congr 1
      omega
    · rw [if_neg hin, ← haddr i]
      unfold Reference.Window at hin
      rw [if_neg (by rw [haddr i]; omega)]
      exact hkept i (by omega)

/-- `write` within the file or at its end stops only where the heap is full. -/
theorem write_yields {buf : ℕ → Byte} {count offset : U64}
    (hbounds : offset.toNat + count.toNat < 2 ^ 62) (hoffset : offset ≤ s.node.size) :
    Yields (fun r => Refines r.2 (a.write buf count.toNat offset.toNat) ∧
        r.2.heap.totalSize = s.heap.totalSize ∧
        r.2.node.capacity.toNat ≤ max s.node.capacity.toNat s.heap.totalSize)
      (· = .assertion) (s.write buf count offset) := by
  by_cases hz : count = 0#64
  · obtain ⟨s', hwrite, hrefines⟩ := @write _ _ h buf _ _ hbounds (.inl hz)
    rw [hwrite]
    refine ⟨hrefines, ?_⟩
    unfold State.write at hwrite
    rw [if_pos hz] at hwrite
    obtain ⟨-, rfl⟩ := pure_pair hwrite
    exact ⟨rfl, le_max_left _ _⟩
  have hsum : (offset + count).toNat = offset.toNat + count.toNat := by
    rw [toNat_add]
    omega
  have hgrow : Yields (fun s1 => (s.Room (offset + count)) ∧
      s1.heap.totalSize = s.heap.totalSize ∧
      s1.node.capacity.toNat ≤ max s.node.capacity.toNat s.heap.totalSize) (· = .assertion)
      (if offset + count > s.node.size then s.growTo (offset + count) else .ok s) := by
    split_ifs with hmore
    · exact growTo_yields h.toStored (by omega)
    · refine ⟨fun c hc _ => absurd ?_ hmore, rfl, le_max_left _ _⟩
      have := le_def.mp h.size_le
      have := lt_def.mp hc
      exact lt_def.mpr (by omega)
  have hwrite : s.write buf count offset = (do
      let s ← (if offset + count > s.node.size then s.growTo (offset + count) else .ok s)
      .ok (count, { s with heap := s.heap.copyIn (s.addr offset.toNat) buf count.toNat })) :=
    if_neg hz
  cases hs1 : (if offset + count > s.node.size then s.growTo (offset + count) else .ok s) with
  | error e =>
    rw [hs1] at hgrow
    rw [hwrite, hs1]
    exact hgrow
  | ok s1 =>
    obtain ⟨hroom, htotal⟩ := hgrow.ok hs1
    obtain ⟨s', hok, hrefines⟩ := @write _ _ h buf _ _ hbounds (.inr ⟨hoffset, hroom⟩)
    rw [hok]
    refine ⟨hrefines, ?_⟩
    rw [hwrite, hs1, ok_bind] at hok
    obtain ⟨-, rfl⟩ := pure_pair hok
    exact htotal

theorem truncate {length : U64} (hfills : length ≤ s.node.size) :
    ∃ s', s.truncate length = .ok s' ∧ Refines s' (a.truncate length.toNat) := by
  have hle := le_def.mp hfills
  have hsize := h.size
  unfold State.truncate
  rw [if_neg (BitVec.not_lt.mpr hfills)]
  refine ⟨_, rfl, ⟨⟨h.capacity, BitVec.le_trans hfills h.size_le, h.block, h.empty⟩, rfl, ?_⟩⟩
  intro i hi
  have hi' : i < length.toNat := hi
  have hbyte : s.heap.byte (s.addr i) = (a.truncate length.toNat).byte i := by
    simpa [Reference.truncate, hi'] using h.bytes i (by omega)
  exact hbyte

theorem read {count offset : U64} (hbounds : offset.toNat + count.toNat < 2 ^ 62) :
    s.read count offset = a.read count.toNat offset.toNat := by
  have hsize := h.size
  have hsum : (offset + count).toNat = offset.toNat + count.toNat := by
    rw [toNat_add]
    omega
  unfold State.read Reference.read
  by_cases hend : offset ≥ s.node.size
  · have := le_def.mp hend
    rw [if_pos hend, Nat.sub_eq_zero_of_le (by omega), Nat.min_zero]
    rfl
  · rw [if_neg hend]
    have hlt := lt_def.mp (BitVec.not_le.mp hend)
    have hsub : (s.node.size - offset).toNat = s.node.size.toNat - offset.toNat :=
      BitVec.toNat_sub_of_le (BitVec.le_of_lt (BitVec.not_le.mp hend))
    have hactual : (if offset + count > s.node.size then s.node.size - offset else count).toNat =
        min count.toNat (a.size - offset.toNat) := by
      split_ifs with hmore
      · have := lt_def.mp hmore
        omega
      · have := le_def.mp (BitVec.not_lt.mp hmore)
        omega
    show s.heap.copyOut (s.addr offset.toNat)
      (if offset + count > s.node.size then s.node.size - offset else count).toNat = _
    rw [hactual]
    unfold Heap.copyOut
    apply List.map_congr_left
    intro i hi
    rw [List.mem_range] at hi
    have haddr : s.addr offset.toNat + i = s.addr (offset.toNat + i) := by
      simp [State.addr, Nat.add_assoc]
    rw [haddr]
    exact h.bytes _ (by omega)

/-- What the rest of the kernel does is not noticed. -/
theorem elsewhere (byte : ℕ → Byte) (allocated : ℕ) : Refines (s.elsewhere byte allocated) a := by
  refine ⟨h.toStored.elsewhere byte allocated, h.size, ?_⟩
  intro i hi
  have hsize := h.size
  have hle := le_def.mp h.size_le
  show (if s.addr 0 ≤ s.addr i ∧ s.addr i < s.addr s.node.capacity.toNat then
    s.heap.byte (s.addr i) else byte (s.addr i)) = _
  rw [if_pos (by unfold State.addr; omega)]
  exact h.bytes i hi

/-- One operation: it returns, with the reply of the array. -/
theorem step {o : Op} (hbounds : o.InBounds) (hfills : o.Fills s) :
    ∃ s', Tmpfs.step s o = .ok ((follow a o).1, s') ∧ Refines s' (follow a o).2 := by
  cases o with
  | elsewhere byte allocated => exact ⟨_, rfl, h.elsewhere byte allocated⟩
  | file o =>
    cases o with
    | read count offset =>
      refine ⟨s, ?_, h⟩
      show Except.ok ([Reply.bytes (s.read count offset)], s) = _
      rw [h.read hbounds]
      rfl
    | write buf count offset =>
      obtain ⟨s', hwrite, hrefines⟩ := @write _ _ h buf _ _ hbounds hfills
      refine ⟨s', ?_, hrefines⟩
      show (s.write buf count offset >>= _) = _
      rw [hwrite]
      rfl
    | truncate length =>
      obtain ⟨s', htruncate, hrefines⟩ := h.truncate hfills
      refine ⟨s', ?_, hrefines⟩
      show (s.truncate length >>= _) = _
      rw [htruncate]
      rfl

theorem run {os : List Op} (hbounds : ∀ o ∈ os, o.InBounds) (hfills : RunFills os s) :
    ∃ s', Tmpfs.run os s = .ok ((followRun os a).1, s') ∧ Refines s' (followRun os a).2 := by
  induction os generalizing s a with
  | nil => exact ⟨s, rfl, h⟩
  | cons o os ih =>
    obtain ⟨s1, hstep, h1⟩ := h.step (hbounds o List.mem_cons_self) hfills.1
    obtain ⟨s2, hrun, h2⟩ := ih h1 (fun o ho => hbounds o (List.mem_cons_of_mem _ ho))
      (hfills.2 _ _ hstep)
    refine ⟨s2, ?_, h2⟩
    show (Tmpfs.step s o >>= _) = _
    rw [hstep, ok_bind]
    show (Tmpfs.run os s1 >>= _) = _
    rw [hrun]
    rfl

end

end Refines

/-- A new node (fs/tmpfs.cpp:33-36). -/
def State.created (heap : Heap) : State := { node := {}, heap }

theorem refines_created (heap : Heap) : Refines (.created heap) .empty where
  capacity := .inl rfl
  size_le := by simp [State.created]
  block := fun h => absurd rfl h
  empty := fun _ => rfl
  size := rfl
  bytes := fun _ hi => absurd hi (Nat.not_lt_zero _)

/-- **Main theorem.** In every run from a new file, whatever the rest of the kernel does between the
    calls, whose writes and truncates leave no gap and find room in the heap, every call returns and
    replies as the zero-filled array does, and the file ends with the size and bytes of the array. -/
theorem tmpfs_refines (heap : Heap) (os : List Op) (hbounds : ∀ o ∈ os, o.InBounds)
    (hfills : RunFills os (.created heap)) :
    ∃ s, run os (.created heap) = .ok ((followRun os .empty).1, s) ∧
      s.node.size.toNat = (followRun os .empty).2.size ∧
      ∀ i < (followRun os .empty).2.size, s.heap.byte (s.addr i) = (followRun os .empty).2.byte i := by
  obtain ⟨s, hrun, hrefines⟩ := (refines_created heap).run hbounds hfills
  exact ⟨s, hrun, hrefines.size, hrefines.bytes⟩

/-- A heap with nothing in it. -/
def emptyHeap : Heap :=
  { byte := fun _ => 0#8, allocBase := 0, totalSize := 2 ^ 30, allocPtr := 0 }

/-- Two bytes, and a third one behind them after the block has moved. -/
def appendByte : List Op :=
  [.file (.write (fun i => BitVec.ofNat 8 (i + 1)) 2#64 0#64), .elsewhere (fun _ => 7#8) 64,
    .file (.write (fun _ => 3#8) 3#64 2#64), .file (.read 5#64 1#64)]

theorem tmpfs_refines_appendByte :
    ∃ s, run appendByte (.created emptyHeap) =
      .ok ([.value 2#64, .value 3#64, .bytes [2#8, 3#8, 3#8, 3#8]], s) := by
  have hroom : ∀ (s : State) (length c : U64), nextCapacity length 34 s.node.capacity = .ok c →
      s.heap.Room c.toNat → s.Room length := by
    intro s length c hc hroom c' _ hc'
    rw [← Except.ok.inj (hc.symm.trans hc')]
    exact hroom
  have hfills : RunFills appendByte (.created emptyHeap) := by
    refine ⟨.inr ⟨by decide, hroom _ _ 4#64 rfl (by decide)⟩, ?_⟩
    rintro _ _ ⟨⟩
    refine ⟨trivial, ?_⟩
    rintro _ _ ⟨⟩
    refine ⟨.inr ⟨by decide, hroom _ _ 16#64 rfl (by decide)⟩, ?_⟩
    rintro _ _ ⟨⟩
    exact ⟨trivial, fun _ _ _ => trivial⟩
  obtain ⟨s, hrun, -⟩ := tmpfs_refines emptyHeap appendByte
    (by simp [appendByte, Op.InBounds]) hfills
  exact ⟨s, hrun⟩

/-- Two bytes are written, and the file is cut to one and grown to two again. -/
def cutAndRegrow : List Op :=
  [.file (.write (fun i => BitVec.ofNat 8 (i + 1)) 2#64 0#64), .file (.truncate 1#64),
    .file (.truncate 2#64), .file (.read 2#64 0#64)]

/-- The byte that was cut off is there again, where the array has a zero. -/
theorem regrown_shows_stale :
    (∃ s, run cutAndRegrow (.created emptyHeap) =
      .ok ([.value 2#64, .value 0#64, .value 0#64, .bytes [1#8, 2#8]], s)) ∧
    (followRun cutAndRegrow .empty).1 =
      [.value 2#64, .value 0#64, .value 0#64, .bytes [1#8, 0#8]] :=
  ⟨⟨_, rfl⟩, rfl⟩

end Fishix.Fs.Tmpfs
