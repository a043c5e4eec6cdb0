import Fishix.Common.Word
import Fishix.Common.Outcome
import Fishix.Mem.Basic

/-!
# Memory files

Model of `userland/memfd.cpp` lines 13-40 and 75-83: `grow_to`, `read`, `write` and
`truncate` of a `MemFD`, over the kernel memory its `address` points into.

Kernel memory is what `virt_alloc` and `map_anonymous` on the kernel page map hand out
(mem/vmm.cpp:491-494, 543-547): regions that read as zero until they are written, since the
first access to a page takes a zeroed frame. An access outside every region does not return.
Physical memory is not accounted for here.

`Reference` is what a memory file is for: a byte array that reads zero wherever nothing was
written. `grow_to` beyond `capacity` takes a new region and copies nothing into it, so the
file is such an array along every run in which no growth leaves a byte behind.

* `Refines.grow`, `Refines.write`, `Refines.truncate`, `Refines.read`: one step for each
  operation.
* `memFD_refines`: the run.
-/

namespace Fishix.Userland

open Fishix.Mem (Panic)
open BitVec (ofNat toNat_ofNat toNat_add le_def lt_def)

abbrev Byte := BitVec 8

/-! ## Kernel memory -/

/-- The kernel's mapped memory outside the page tables. -/
structure KernelMemory where
  byte : U64 → Byte
  /-- Base and length of the ranges of the kernel page map. -/
  regions : List (U64 × U64)
  /-- `kernel_virt_alloc_base` (mem/vmm.hpp:139). -/
  virtAllocBase : U64

namespace KernelMemory

/-- Some range of the kernel page map contains `virt`. -/
def Mapped (k : KernelMemory) (virt : U64) : Prop :=
  ∃ g ∈ k.regions, g.1 ≤ virt ∧ virt < g.1 + g.2

instance (k : KernelMemory) (virt : U64) : Decidable (k.Mapped virt) :=
  inferInstanceAs (Decidable (∃ g ∈ k.regions, g.1 ≤ virt ∧ virt < g.1 + g.2))

def load (k : KernelMemory) (virt : U64) : Except Panic Byte :=
  if k.Mapped virt then .ok (k.byte virt) else .error .badPointer

def store (k : KernelMemory) (virt : U64) (b : Byte) : Except Panic KernelMemory :=
  if k.Mapped virt then .ok { k with byte := Function.update k.byte virt b }
  else .error .badPointer

/-- `memcpy` out of kernel memory. -/
def copyOut (k : KernelMemory) (src : U64) (n : ℕ) : Except Panic (List Byte) :=
  (List.range n).mapM fun i => k.load (src + ofNat 64 i)

/-- `memcpy` into kernel memory. -/
def copyIn (k : KernelMemory) (dst : U64) (buf : ℕ → Byte) (n : ℕ) : Except Panic KernelMemory :=
  (List.range n).foldlM (fun k i => k.store (dst + ofNat 64 i) (buf i)) k

/-- `memset(dst, 0, n)`. -/
def clear (k : KernelMemory) (dst : U64) (n : ℕ) : Except Panic KernelMemory :=
  k.copyIn dst (fun _ => 0#8) n

/-- `virt_alloc` (mem/vmm.cpp:543-547). -/
def virtAlloc (k : KernelMemory) (length : U64) : U64 × KernelMemory :=
  (k.virtAllocBase, { k with virtAllocBase := k.virtAllocBase + alignUp length pageSize })

/-- `kernel_pagemap.map_anonymous` on addresses that `virt_alloc` returned. -/
def mapAnonymous (k : KernelMemory) (base length : U64) : KernelMemory :=
  { k with
    regions := (base, length) :: k.regions
    byte := fun virt => if base ≤ virt ∧ virt < base + length then 0#8 else k.byte virt }

end KernelMemory

/-! ## `MemFD` -/

/-- `MemFD` (userland/memfd.hpp:6-9). -/
structure MemFD where
  size : U64 := 0#64
  capacity : U64 := 0#64
  address : U64 := 0#64

/-- A memory file and the memory it lives in. -/
structure State where
  fd : MemFD
  mem : KernelMemory

/-- The state after `new MemFD()`. -/
def State.created (k : KernelMemory) : State := { fd := {}, mem := k }

namespace State

/-- `MemFD::grow_to` (userland/memfd.cpp:13-24). -/
def growTo (s : State) (length : U64) : Except Panic State :=
  if s.fd.capacity < length then do
    let capacity := alignUp length pageSize
    let (address, mem) := s.mem.virtAlloc capacity
    let mem := mem.mapAnonymous address capacity
    let mem ← (List.range (capacity / pageSize).toNat).foldlM
      (fun mem i => mem.store (address + ofNat 64 i * pageSize) 0#8) mem
    .ok { fd := { size := length, capacity, address }, mem }
  else .ok { s with fd := { s.fd with size := length } }

/-- `MemFD::read` (userland/memfd.cpp:26-32): the bytes copied to `buf`, as many as it returns. -/
def read (s : State) (count offset : U64) : Except Panic (List Byte) :=
  if offset ≥ s.fd.size then .ok []
  else
    let actualCount := if offset + count > s.fd.size then s.fd.size - offset else count
    s.mem.copyOut (s.fd.address + offset) actualCount.toNat

/-- `MemFD::write` (userland/memfd.cpp:34-40). -/
def write (s : State) (buf : ℕ → Byte) (count offset : U64) : Except Panic (U64 × State) :=
  if count = 0#64 then .ok (0#64, s)
  else do
    let s ← (if offset + count > s.fd.size then s.growTo (offset + count) else .ok s)
    let mem ← s.mem.copyIn (s.fd.address + offset) buf count.toNat
    .ok (count, { s with mem })

/-- `MemFD::truncate` (userland/memfd.cpp:75-83). -/
def truncate (s : State) (length : U64) : Except Panic State := do
  let s ← (if length > s.fd.size then s.growTo length
    else do
      let mem ← s.mem.clear (s.fd.address + length) (s.fd.size - length).toNat
      .ok { s with mem })
  .ok { s with fd := { s.fd with size := length } }

end State

/-! ## Runs -/

inductive Op where
  | read (count offset : U64)
  | write (buf : ℕ → Byte) (count offset : U64)
  | truncate (length : U64)

/-- What an operation returns: the bytes read, or the `isize`. -/
inductive Reply where
  | bytes (bs : List Byte)
  | value (n : U64)
deriving DecidableEq

def step (s : State) : Op → Except Panic (Reply × State)
  | .read count offset => do
    let bs ← s.read count offset
    .ok (.bytes bs, s)
  | .write buf count offset => do
    let (n, s) ← s.write buf count offset
    .ok (.value n, s)
  | .truncate length => do
    let s ← s.truncate length
    .ok (.value 0#64, s)

/-- The replies of a sequence of operations and the final state. -/
def run : List Op → State → Except Panic (List Reply × State)
  | [], s => .ok ([], s)
  | o :: os, s => do
    let (reply, s) ← step s o
    let (replies, s) ← run os s
    .ok (reply :: replies, s)

/-! ## The reference array -/

/-- A byte array that reads zero wherever nothing was written. -/
structure Reference where
  size : ℕ
  byte : ℕ → Byte
  zero_of_le : ∀ i, size ≤ i → byte i = 0#8

namespace Reference

def empty : Reference := { size := 0, byte := fun _ => 0#8, zero_of_le := fun _ _ => rfl }

/-- The `min(count, size - offset)` bytes from `offset` on. -/
def read (a : Reference) (count offset : ℕ) : List Byte :=
  (List.range (min count (a.size - offset))).map fun i => a.byte (offset + i)

/-- Position `i` is one of the `count` positions from `offset` on. -/
def Window (count offset i : ℕ) : Prop := offset ≤ i ∧ i < offset + count

instance (count offset i : ℕ) : Decidable (Window count offset i) :=
  inferInstanceAs (Decidable (_ ∧ _))

def write (a : Reference) (buf : ℕ → Byte) (count offset : ℕ) : Reference where
  size := if count = 0 then a.size else max a.size (offset + count)
  byte := fun i => if Window count offset i then buf (i - offset) else a.byte i
  zero_of_le := by
    intro i hi
    have hsize : a.size ≤ i ∧ ¬ Window count offset i := by
      unfold Window
      split_ifs at hi <;> omega
    rw [if_neg hsize.2]
    exact a.zero_of_le i hsize.1

def truncate (a : Reference) (length : ℕ) : Reference where
  size := length
  byte := fun i => if i < length then a.byte i else 0#8
  zero_of_le := fun i hi => if_neg (by omega)

def step (a : Reference) : Op → Reply × Reference
  | .read count offset => (.bytes (a.read count.toNat offset.toNat), a)
  | .write buf count offset => (.value count, a.write buf count.toNat offset.toNat)
  | .truncate length => (.value 0#64, a.truncate length.toNat)

/-- The replies of the reference array. -/
def run : List Op → Reference → List Reply
  | [], _ => []
  | o :: os, a => (a.step o).1 :: run os (a.step o).2

end Reference

/-! ## When an operation keeps to the array -/

/-- Growing to `length` stays within `capacity`, or nothing wraps around and every byte of the
    file outside `rewritten` is zero, so that nothing is lost with the old region. -/
def State.GrowsSafely (s : State) (length : U64) (rewritten : ℕ → Prop) : Prop :=
  length ≤ s.fd.capacity ∨
    (length.toNat + 4095 < 2 ^ 64 ∧
      s.mem.virtAllocBase.toNat + (alignUp length pageSize).toNat < 2 ^ 64 ∧
      ∀ i < s.fd.size.toNat, ¬ rewritten i →
        s.mem.byte (s.fd.address + ofNat 64 i) = 0#8)

/-- The condition on one operation: `offset + count` does not wrap around, and growth is safe. -/
def Op.Keeps (s : State) : Op → Prop
  | .read count offset => s.fd.size ≤ offset ∨ offset.toNat + count.toNat < 2 ^ 64
  | .write _ count offset => count = 0#64 ∨
      (offset.toNat + count.toNat < 2 ^ 64 ∧
        s.GrowsSafely (offset + count) (Reference.Window count.toNat offset.toNat))
  | .truncate length => s.GrowsSafely length fun _ => False

/-- Every operation of the run meets its condition in the state before it. -/
def RunKeeps : List Op → State → Prop
  | [], _ => True
  | o :: os, s => o.Keeps s ∧ ∀ reply s', step s o = .ok (reply, s') → RunKeeps os s'

/-! ## Loops over kernel memory -/

namespace KernelMemory

variable {k : KernelMemory}

theorem store_of_mapped {virt : U64} {b : Byte} (h : k.Mapped virt) :
    k.store virt b = .ok { k with byte := Function.update k.byte virt b } := if_pos h

/-- Same regions, same allocation pointer. -/
structure SameLayout (k k' : KernelMemory) : Prop where
  regions : k'.regions = k.regions
  virtAllocBase : k'.virtAllocBase = k.virtAllocBase

theorem SameLayout.mapped {k k' : KernelMemory} (h : SameLayout k k') (virt : U64) :
    k'.Mapped virt ↔ k.Mapped virt := by
  unfold Mapped
  rw [h.regions]

/-- A loop of stores to mapped addresses completes, and a byte is kept or is the one a store
    left there. -/
theorem foldlM_store {addr : ℕ → U64} {b : ℕ → Byte} (n : ℕ)
    (hmapped : ∀ i < n, k.Mapped (addr i)) :
    ∃ k', (List.range n).foldlM (fun k i => k.store (addr i) (b i)) k = .ok k' ∧
      SameLayout k k' ∧
      ∀ virt, (k'.byte virt = k.byte virt ∧ ∀ i < n, addr i ≠ virt) ∨
        ∃ i < n, addr i = virt ∧ k'.byte virt = b i := by
  induction n with
  | zero =>
    refine ⟨k, rfl, ⟨rfl, rfl⟩, fun virt => .inl ⟨rfl, ?_⟩⟩
    intro i hi
    omega
  | succ n ih =>
    obtain ⟨k1, hrun, hlayout, hbyte⟩ := ih fun i hi => hmapped i (by omega)
    have hstore := store_of_mapped (b := b n) ((hlayout.mapped _).mpr (hmapped n (by omega)))
    refine ⟨{ k1 with byte := Function.update k1.byte (addr n) (b n) }, ?_,
      ⟨hlayout.regions, hlayout.virtAllocBase⟩, ?_⟩
    · rw [List.range_succ, List.foldlM_append, hrun, ok_bind, List.foldlM_cons, hstore]
      rfl
    · intro virt
      show (Function.update k1.byte (addr n) (b n) virt = _ ∧ _) ∨
        ∃ i < n + 1, addr i = virt ∧ Function.update k1.byte (addr n) (b n) virt = b i
      by_cases hvirt : addr n = virt
      · refine .inr ⟨n, by omega, hvirt, ?_⟩
        rw [← hvirt, Function.update_self]
      · rw [Function.update_of_ne (Ne.symm hvirt)]
        obtain ⟨hsame, hnone⟩ | ⟨i, hi, haddr, hb⟩ := hbyte virt
        · refine .inl ⟨hsame, fun i hi => ?_⟩
          by_cases hin : i = n
          · rwa [hin]
          · exact hnone i (by omega)
        · exact .inr ⟨i, by omega, haddr, hb⟩

/-- Two positions of a buffer with the same address are the same. -/
theorem position_inj {dst : U64} {i j n : ℕ} (hn : n ≤ 2 ^ 64) (hi : i < n) (hj : j < n)
    (h : dst + ofNat 64 i = dst + ofNat 64 j) : i = j := by
  have h1 := congrArg BitVec.toNat ((BitVec.add_right_inj dst).mp h)
  simp only [toNat_ofNat] at h1
  omega

theorem position_add (dst offset : U64) (i : ℕ) :
    dst + offset + ofNat 64 i = dst + ofNat 64 (offset.toNat + i) := by
  rw [BitVec.add_assoc, BitVec.ofNat_add, BitVec.ofNat_toNat, BitVec.setWidth_eq]

/-- `memcpy` into a mapped buffer. -/
theorem copyIn_spec (dst : U64) (buf : ℕ → Byte) {n : ℕ} (hn : n ≤ 2 ^ 64)
    (hmapped : ∀ i < n, k.Mapped (dst + ofNat 64 i)) :
    ∃ k', k.copyIn dst buf n = .ok k' ∧ SameLayout k k' ∧
      (∀ virt, (∀ i < n, dst + ofNat 64 i ≠ virt) → k'.byte virt = k.byte virt) ∧
      ∀ i < n, k'.byte (dst + ofNat 64 i) = buf i := by
  obtain ⟨k', hrun, hlayout, hbyte⟩ := foldlM_store (b := buf) n hmapped
  refine ⟨k', hrun, hlayout, ?_, ?_⟩
  · intro virt hvirt
    obtain ⟨hsame, -⟩ | ⟨i, hi, haddr, -⟩ := hbyte virt
    · exact hsame
    · exact absurd haddr (hvirt i hi)
  · intro i hi
    obtain ⟨-, hnone⟩ | ⟨j, hj, haddr, hb⟩ := hbyte (dst + ofNat 64 i)
    · exact absurd rfl (hnone i hi)
    · rw [hb, position_inj hn hj hi haddr]

theorem copyOut_spec {src : U64} (n : ℕ)
    (hmapped : ∀ i < n, k.Mapped (src + ofNat 64 i)) :
    k.copyOut src n = .ok ((List.range n).map fun i => k.byte (src + ofNat 64 i)) := by
  unfold copyOut
  induction n with
  | zero => rfl
  | succ n ih =>
    have hlast : k.load (src + ofNat 64 n) = .ok (k.byte (src + ofNat 64 n)) :=
      if_pos (hmapped n (by omega))
    rw [List.range_succ, List.mapM_append, ih fun i hi => hmapped i (by omega), ok_bind,
      List.map_append]
    simp [hlast, pure, Except.pure]

end KernelMemory

/-! ## The file as the array -/

/-- The file stands for the array `a`: the bytes of its region are those of `a`, also the ones
    between `size` and `capacity`, which are zero. -/
structure Refines (s : State) (a : Reference) : Prop where
  size : s.fd.size.toNat = a.size
  size_le : s.fd.size.toNat ≤ s.fd.capacity.toNat
  mapped : ∀ i < s.fd.capacity.toNat, s.mem.Mapped (s.fd.address + ofNat 64 i)
  bytes : ∀ i < s.fd.capacity.toNat, s.mem.byte (s.fd.address + ofNat 64 i) = a.byte i

theorem refines_created (k : KernelMemory) : Refines (State.created k) Reference.empty where
  size := rfl
  size_le := Nat.le_refl _
  mapped := by
    intro i hi
    exact absurd hi (Nat.not_lt_zero i)
  bytes := by
    intro i hi
    exact absurd hi (Nat.not_lt_zero i)

section Step

open KernelMemory

variable {s : State} {a : Reference}

/-- The part of a grown file that `grow_to` promises: the size, and the bytes outside
    `rewritten`. -/
structure Grown (s' : State) (a : Reference) (length : U64) (rewritten : ℕ → Prop) : Prop where
  size : s'.fd.size = length
  size_le : length.toNat ≤ s'.fd.capacity.toNat
  mapped : ∀ i < s'.fd.capacity.toNat, s'.mem.Mapped (s'.fd.address + ofNat 64 i)
  bytes : ∀ i < s'.fd.capacity.toNat, ¬ rewritten i →
    s'.mem.byte (s'.fd.address + ofNat 64 i) = a.byte i

/-- The new region of `grow_to` reads zero. -/
theorem growTo_moves {length : U64} (hcap : s.fd.capacity < length)
    (hup : length.toNat + 4095 < 2 ^ 64)
    (hbase : s.mem.virtAllocBase.toNat + (alignUp length pageSize).toNat < 2 ^ 64) :
    ∃ s', s.growTo length = .ok s' ∧ s'.fd.size = length ∧
      length.toNat ≤ s'.fd.capacity.toNat ∧
      ∀ i < s'.fd.capacity.toNat, s'.mem.Mapped (s'.fd.address + ofNat 64 i) ∧
        s'.mem.byte (s'.fd.address + ofNat 64 i) = 0#8 := by
  have htoNat := toNat_alignUp length
  set capacity := alignUp length pageSize with hcapacity
  set base := s.mem.virtAllocBase with hvirt
  let k : KernelMemory := (s.mem.virtAlloc capacity).2.mapAnonymous base capacity
  have hinside : ∀ i < capacity.toNat,
      base ≤ base + ofNat 64 i ∧ base + ofNat 64 i < base + capacity := by
    intro i hi
    have : (base + ofNat 64 i).toNat = base.toNat + i := by
      rw [toNat_add, toNat_ofNat]
      omega
    rw [le_def, lt_def, this, toNat_add]
    omega
  have hmapped : ∀ i < capacity.toNat, k.Mapped (base + ofNat 64 i) :=
    fun i hi => ⟨(base, capacity), List.mem_cons_self, hinside i hi⟩
  have hzero : ∀ i < capacity.toNat, k.byte (base + ofNat 64 i) = 0#8 :=
    fun i hi => if_pos (hinside i hi)
  -- the loop stores a zero at the start of each page
  have hpages : ∀ i < (capacity / pageSize).toNat,
      k.Mapped (base + ofNat 64 i * pageSize) := by
    intro i hi
    have hdiv : (capacity / pageSize).toNat = capacity.toNat / 4096 := by
      simp [BitVec.toNat_udiv]
    have hmul : ofNat 64 i * pageSize = ofNat 64 (i * 4096) := by
      apply BitVec.eq_of_toNat_eq
      simp [BitVec.toNat_mul, toNat_ofNat]
    rw [hmul]
    exact hmapped (i * 4096) (by omega)
  obtain ⟨k', hrun, hlayout, hbyte⟩ := foldlM_store (b := fun _ => 0#8) _ hpages
  refine ⟨{ fd := { size := length, capacity, address := base }, mem := k' }, ?_, rfl, ?_, ?_⟩
  · unfold State.growTo
    rw [if_pos hcap]
    show ((List.range (capacity / pageSize).toNat).foldlM
      (fun mem i => mem.store (base + ofNat 64 i * pageSize) 0#8) k >>= _) = _
    rw [hrun]
    rfl
  · show length.toNat ≤ capacity.toNat
    omega
  · intro i hi
    refine ⟨(hlayout.mapped _).mpr (hmapped i hi), ?_⟩
    show k'.byte (base + ofNat 64 i) = 0#8
    obtain ⟨hsame, -⟩ | ⟨j, -, -, hb⟩ := hbyte (base + ofNat 64 i)
    · rw [hsame]
      exact hzero i hi
    · exact hb

/-- `grow_to` keeps the array outside `rewritten`. -/
theorem Refines.grow (h : Refines s a) {length : U64} {rewritten : ℕ → Prop}
    (hsafe : s.GrowsSafely length rewritten) :
    ∃ s', s.growTo length = .ok s' ∧ Grown s' a length rewritten := by
  by_cases hcap : length ≤ s.fd.capacity
  · refine ⟨{ s with fd := { s.fd with size := length } }, ?_, rfl, le_def.mp hcap,
      h.mapped, fun i hi _ => h.bytes i hi⟩
    unfold State.growTo
    rw [if_neg (BitVec.not_lt.mpr hcap)]
  · obtain hle | ⟨hup, hbase, hzero⟩ := hsafe
    · exact absurd hle hcap
    obtain ⟨s', hrun, hsize, hle, hnew⟩ := growTo_moves (BitVec.not_le.mp hcap) hup hbase
    refine ⟨s', hrun, hsize, hle, fun i hi => (hnew i hi).1, ?_⟩
    intro i hi hkeep
    rw [(hnew i hi).2]
    by_cases hin : i < s.fd.size.toNat
    · rw [← h.bytes i (by have := h.size_le; omega)]
      exact (hzero i hin hkeep).symm
    · exact (a.zero_of_le i (by have := h.size; omega)).symm

/-- Storing `buf` at the window completes a grown file to the written array. -/
theorem Grown.write {s' : State} {length offset count : U64} (buf : ℕ → Byte)
    (h : Grown s' a length (Reference.Window count.toNat offset.toNat))
    (hwrap : offset.toNat + count.toNat < 2 ^ 64) (hin : offset.toNat + count.toNat ≤ length.toNat)
    (hsize : length.toNat = (a.write buf count.toNat offset.toNat).size) :
    ∃ mem, s'.mem.copyIn (s'.fd.address + offset) buf count.toNat = .ok mem ∧
      Refines { s' with mem } (a.write buf count.toNat offset.toNat) := by
  have hpos := position_add s'.fd.address offset
  have hle := h.size_le
  obtain ⟨mem, hrun, hlayout, hkeep, hset⟩ := copyIn_spec (k := s'.mem)
    (s'.fd.address + offset) buf (n := count.toNat) (by omega) (by
      intro i hi
      rw [hpos]
      exact h.mapped _ (by omega))
  refine ⟨mem, hrun, ?_, ?_, fun i hi => (hlayout.mapped _).mpr (h.mapped i hi), ?_⟩
  · show s'.fd.size.toNat = _
    rw [h.size, hsize]
  · show s'.fd.size.toNat ≤ _
    rw [h.size]
    exact hle
  · intro i hi
    show mem.byte (s'.fd.address + ofNat 64 i) =
      if Reference.Window count.toNat offset.toNat i then buf (i - offset.toNat) else a.byte i
    have hcap := s'.fd.capacity.isLt
    split_ifs with hwin
    · have hi' : offset.toNat + (i - offset.toNat) = i := by
        have := hwin.1
        omega
      have := hset (i - offset.toNat) (by have := hwin.2; omega)
      rwa [hpos, hi'] at this
    · rw [← h.bytes i hi hwin]
      apply hkeep
      intro j hj heq
      rw [hpos] at heq
      have := position_inj (n := 2 ^ 64) (le_refl _) (by omega) (by omega) heq
      apply hwin
      unfold Reference.Window
      omega

theorem Refines.write (h : Refines s a) {buf : ℕ → Byte} {count offset : U64}
    (hkeeps : (Op.write buf count offset).Keeps s) :
    ∃ s', s.write buf count offset = .ok (count, s') ∧
      Refines s' (a.write buf count.toNat offset.toNat) := by
  unfold State.write
  by_cases hcount : count = 0#64
  · refine ⟨s, by rw [if_pos hcount, hcount], ?_⟩
    have hz : count.toNat = 0 := by simp [hcount]
    have hnone : ∀ i, ¬ Reference.Window count.toNat offset.toNat i := by
      intro i hw
      unfold Reference.Window at hw
      omega
    refine ⟨?_, h.size_le, h.mapped, fun i hi => ?_⟩
    · show _ = if count.toNat = 0 then a.size else _
      rw [if_pos hz]
      exact h.size
    · show _ = if _ then _ else a.byte i
      rw [if_neg (hnone i)]
      exact h.bytes i hi
  · rw [if_neg hcount]
    obtain hz | ⟨hwrap, hsafe⟩ := hkeeps
    · exact absurd hz hcount
    have hne : count.toNat ≠ 0 := fun h0 => hcount (BitVec.eq_of_toNat_eq h0)
    have hsum : (offset + count).toNat = offset.toNat + count.toNat := by
      rw [toNat_add]
      omega
    have hsize := h.size
    have hasize : (a.write buf count.toNat offset.toNat).size =
        max a.size (offset.toNat + count.toNat) := if_neg hne
    by_cases hgrow : offset + count > s.fd.size
    · have hlt := lt_def.mp hgrow
      obtain ⟨s1, hrun, hgrown⟩ := h.grow hsafe
      obtain ⟨mem, hcopy, hrefines⟩ := hgrown.write buf hwrap (by omega) (by omega)
      refine ⟨_, ?_, hrefines⟩
      rw [if_pos hgrow, hrun, ok_bind, hcopy]
      rfl
    · have hle := le_def.mp (BitVec.not_lt.mp hgrow)
      have hgrown : Grown s a s.fd.size (Reference.Window count.toNat offset.toNat) :=
        ⟨rfl, h.size_le, h.mapped, fun i hi _ => h.bytes i hi⟩
      obtain ⟨mem, hcopy, hrefines⟩ := hgrown.write buf hwrap (by omega) (by omega)
      refine ⟨_, ?_, hrefines⟩
      rw [if_neg hgrow, ok_bind, hcopy]
      rfl

theorem Refines.truncate (h : Refines s a) {length : U64}
    (hkeeps : (Op.truncate length).Keeps s) :
    ∃ s', s.truncate length = .ok s' ∧ Refines s' (a.truncate length.toNat) := by
  unfold State.truncate
  have hsize := h.size
  have hcap := h.size_le
  have hlast := s.fd.capacity.isLt
  by_cases hgrow : length > s.fd.size
  · have hlt := lt_def.mp hgrow
    obtain ⟨s1, hrun, hgrown⟩ := h.grow hkeeps
    refine ⟨{ s1 with fd := { s1.fd with size := length } }, ?_, rfl, hgrown.size_le,
      hgrown.mapped, ?_⟩
    · rw [if_pos hgrow, hrun]
      rfl
    · intro i hi
      show s1.mem.byte (s1.fd.address + ofNat 64 i) =
        if i < length.toNat then a.byte i else 0#8
      rw [hgrown.bytes i hi not_false]
      split_ifs with hin
      · rfl
      · exact a.zero_of_le i (by omega)
  · have hle := le_def.mp (BitVec.not_lt.mp hgrow)
    have hcount : (s.fd.size - length).toNat = s.fd.size.toNat - length.toNat :=
      BitVec.toNat_sub_of_le (BitVec.not_lt.mp hgrow)
    have hpos := position_add s.fd.address length
    obtain ⟨mem, hrun, hlayout, hkeep, hset⟩ := copyIn_spec (k := s.mem)
      (s.fd.address + length) (fun _ => 0#8) (n := (s.fd.size - length).toNat)
      (by omega) (by
        intro i hi
        rw [hpos]
        exact h.mapped _ (by omega))
    refine ⟨{ fd := { s.fd with size := length }, mem }, ?_, rfl, Nat.le_trans hle hcap,
      fun i hi => (hlayout.mapped _).mpr (h.mapped i hi), ?_⟩
    · rw [if_neg hgrow]
      unfold clear
      rw [hrun]
      rfl
    · intro i (hi : i < s.fd.capacity.toNat)
      show mem.byte (s.fd.address + ofNat 64 i) = if i < length.toNat then a.byte i else 0#8
      by_cases hcut : length.toNat ≤ i ∧ i < s.fd.size.toNat
      · have hi' : length.toNat + (i - length.toNat) = i := by omega
        have := hset (i - length.toNat) (by omega)
        rw [hpos, hi'] at this
        rw [this, if_neg (by omega)]
      · have hsame : mem.byte (s.fd.address + ofNat 64 i) = a.byte i := by
          rw [← h.bytes i hi]
          apply hkeep
          intro j hj heq
          rw [hpos] at heq
          have := position_inj (n := 2 ^ 64) (le_refl _) (by omega) (by omega) heq
          omega
        rw [hsame]
        split_ifs with hin
        · rfl
        · exact a.zero_of_le i (by omega)

theorem Refines.read (h : Refines s a) {count offset : U64}
    (hkeeps : (Op.read count offset).Keeps s) :
    s.read count offset = .ok (a.read count.toNat offset.toNat) := by
  have hsize := h.size
  have hcap := h.size_le
  unfold State.read Reference.read
  by_cases hend : offset ≥ s.fd.size
  · have := le_def.mp hend
    rw [if_pos hend, Nat.sub_eq_zero_of_le (by omega), Nat.min_zero]
    rfl
  · rw [if_neg hend]
    have hlt := lt_def.mp (BitVec.not_le.mp hend)
    have hwrap : offset.toNat + count.toNat < 2 ^ 64 := hkeeps.resolve_left hend
    have hsum : (offset + count).toNat = offset.toNat + count.toNat := by
      rw [toNat_add]
      omega
    have hsub : (s.fd.size - offset).toNat = s.fd.size.toNat - offset.toNat :=
      BitVec.toNat_sub_of_le (BitVec.le_of_lt (BitVec.not_le.mp hend))
    have hactual : (if offset + count > s.fd.size then s.fd.size - offset else count).toNat =
        min count.toNat (a.size - offset.toNat) := by
      split_ifs with hmore
      · have := lt_def.mp hmore
        omega
      · have := le_def.mp (BitVec.not_lt.mp hmore)
        omega
    have hpos := position_add s.fd.address offset
    show s.mem.copyOut (s.fd.address + offset)
      (if offset + count > s.fd.size then s.fd.size - offset else count).toNat = _
    rw [hactual, copyOut_spec]
    · congr 1
      apply List.map_congr_left
      intro i hi
      rw [List.mem_range] at hi
      rw [hpos]
      exact h.bytes _ (by omega)
    · intro i hi
      rw [hpos]
      exact h.mapped _ (by omega)

/-- One operation: it returns, with the reply of the array. -/
theorem Refines.step (h : Refines s a) {o : Op} (hkeeps : o.Keeps s) :
    ∃ s', Userland.step s o = .ok ((a.step o).1, s') ∧ Refines s' (a.step o).2 := by
  cases o with
  | read count offset =>
    refine ⟨s, ?_, h⟩
    show (s.read count offset >>= _) = _
    rw [h.read hkeeps]
    rfl
  | write buf count offset =>
    obtain ⟨s', hrun, hrefines⟩ := h.write hkeeps
    refine ⟨s', ?_, hrefines⟩
    show (s.write buf count offset >>= _) = _
    rw [hrun]
    rfl
  | truncate length =>
    obtain ⟨s', hrun, hrefines⟩ := h.truncate hkeeps
    refine ⟨s', ?_, hrefines⟩
    show (s.truncate length >>= _) = _
    rw [hrun]
    rfl

theorem Refines.run {os : List Op} (h : Refines s a) (hkeeps : RunKeeps os s) :
    ∃ s', Userland.run os s = .ok (a.run os, s') := by
  induction os generalizing s a with
  | nil => exact ⟨s, rfl⟩
  | cons o os ih =>
    obtain ⟨s1, hstep, h1⟩ := h.step hkeeps.1
    obtain ⟨s2, hrun⟩ := ih h1 (hkeeps.2 _ _ hstep)
    refine ⟨s2, ?_⟩
    show (Userland.step s o >>= _) = _
    rw [hstep, ok_bind]
    show (Userland.run os s1 >>= _) = _
    rw [hrun]
    rfl

end Step

/-- **Main theorem.** In every run from a new memory file whose operations meet their
    condition, every operation returns and replies as the zero-filled array does: a `read` with
    its `min(count, size - offset)` bytes. -/
theorem memFD_refines (k : KernelMemory) (os : List Op) (hkeeps : RunKeeps os (State.created k)) :
    ∃ s, run os (State.created k) = .ok (Reference.empty.run os, s) :=
  (refines_created k).run hkeeps

/-- Kernel memory with nothing mapped and `virt_alloc` at `0xFFFF900000000000`. -/
def emptyMemory : KernelMemory :=
  { byte := fun _ => 0#8, regions := [], virtAllocBase := 0xFFFF900000000000#64 }

/-- Growth, a cut and regrowth within the first region. -/
def cutAndRegrow : List Op :=
  [.write (fun i => ofNat 8 (i + 1)) 2#64 0#64, .truncate 1#64, .truncate 4096#64,
    .read 3#64 0#64]

theorem memFD_refines_cutAndRegrow :
    RunKeeps cutAndRegrow (State.created emptyMemory) ∧
      ∃ s, run cutAndRegrow (State.created emptyMemory) =
        .ok ([.value 2#64, .value 0#64, .value 0#64, .bytes [1#8, 0#8, 0#8]], s) := by
  have hkeeps : RunKeeps cutAndRegrow (State.created emptyMemory) := by
    refine ⟨.inr ⟨by decide, .inr ⟨by decide, by decide, ?_⟩⟩, ?_⟩
    · intro i hi
      exact absurd hi (Nat.not_lt_zero i)
    rintro _ _ ⟨⟩
    refine ⟨.inl (by decide), ?_⟩
    rintro _ _ ⟨⟩
    refine ⟨.inl (by decide), ?_⟩
    rintro _ _ ⟨⟩
    exact ⟨.inr (by decide), fun _ _ _ => trivial⟩
  refine ⟨hkeeps, ?_⟩
  obtain ⟨s, hrun⟩ := memFD_refines emptyMemory cutAndRegrow hkeeps
  exact ⟨s, hrun⟩

/-- One byte at the start of the file, then one byte on the next page. -/
def writeNextPage : List Op :=
  [.write (fun _ => 1#8) 1#64 0#64, .write (fun _ => 2#8) 1#64 4096#64, .read 1#64 0#64]

/-- The second write moves the file to a new region, and the byte at its start is lost. -/
theorem writeNextPage_loses_byte :
    ∃ s, run writeNextPage (State.created emptyMemory) =
        .ok ([.value 1#64, .value 1#64, .bytes [0#8]], s) ∧
      Reference.empty.run writeNextPage = [.value 1#64, .value 1#64, .bytes [1#8]] :=
  ⟨_, rfl, rfl⟩

end Fishix.Userland
