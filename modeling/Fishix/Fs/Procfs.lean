import Fishix.Fs.Tmpfs

/-!
# Nodes of `procfs`

Model of `fs/procfs.cpp` lines 97-174: an `InfoNode` has its text printed anew when it is read
from the start, character by character through a buffer of 1024 bytes, or for `cmdline` and
`environ` copied out of the memory of the process. `grow_to` is that of `tmpfs`.

A node keeps the text of the last read. A printed text overwrites its beginning and never sets
the size back, so that a shorter text has the rest of a longer one behind it (`overlay`).

* `generateContents_yields`, `read_yields`: what printing and reading leave in the node.
* `ofDigits_digits`: `%d` prints the number.
* `procfs_fresh`: when a read shows what was printed, and what `/proc/self` leads to.
* `self_stale`: process 5 after process 10.
-/

namespace Fishix.Fs.Procfs

open Fishix.Mem (Heap Panic)
open Fishix.Userland (Byte Reference)
open BitVec (ofNat toNat_ofNat le_def)

/-- `InfoNode::temp_buffer_size` (fs/procfs.hpp:26). -/
def tempBufferSize : ℕ := 1024

/-- `ARG_MAX` (fs/procfs.cpp:16). -/
def argMax : ℕ := 131072

/-- The arguments or the environment of a process (fs/procfs.cpp:321-347): `count` bytes are asked
    for, and `access_memory` delivers `bytes` of them, none on an error. -/
structure Window where
  count : U64
  bytes : List Byte
  count_le : count.toNat ≤ argMax
  length_le : bytes.length ≤ count.toNat

/-- What `print_contents` does at one read. Where `cmdline` and `environ` have nothing to show, it
    prints no character. -/
inductive Contents where
  | chars (cs : List Byte)
  | memory (w : Window)

/-- The bytes that a node shows if nothing else is in it. -/
def Contents.text : Contents → List Byte
  | .chars cs => cs
  | .memory w => w.bytes

/-- `InfoNode` (fs/procfs.hpp:8-36), its `NodeData` and the heap. -/
structure InfoNode where
  file : Tmpfs.State
  hasContents : Bool := false
  tempBuffer : ℕ → Byte := fun _ => 0#8
  tempWritten : ℕ := 0
  totalWritten : ℕ := 0

namespace InfoNode

/-- `grow_to` (fs/procfs.cpp:97-105). -/
def growTo (n : InfoNode) (length : U64) : Except Panic InfoNode := do
  let file ← n.file.growTo length
  .ok { n with file }

/-- `write_contents` (fs/procfs.cpp:107-114). -/
def writeContents (n : InfoNode) (buf : ℕ → Byte) (count offset : U64) : Except Panic InfoNode := do
  let (_, file) ← n.file.write buf count offset
  .ok { n with file }

/-- `flush_temp_buffer` (fs/procfs.cpp:152-156). -/
def flushTempBuffer (n : InfoNode) : Except Panic InfoNode := do
  let n ← n.writeContents n.tempBuffer (ofNat 64 n.tempWritten)
    (ofNat 64 n.totalWritten)
  .ok { n with totalWritten := n.totalWritten + n.tempWritten, tempWritten := 0 }

/-- `print_char` (fs/procfs.cpp:158-163). -/
def printChar (n : InfoNode) (c : Byte) : Except Panic InfoNode :=
  let n := { n with
    tempBuffer := Function.update n.tempBuffer n.tempWritten c
    tempWritten := n.tempWritten + 1 }
  if n.tempWritten = tempBufferSize then n.flushTempBuffer else .ok n

/-- `print_contents`: characters one after another, or the bytes of the process straight to
    `storage` (fs/procfs.cpp:327-332, 341-346). -/
def printContents (n : InfoNode) : Contents → Except Panic InfoNode
  | .chars cs => cs.foldlM printChar n
  | .memory w => do
    let n ← n.growTo w.count
    let heap := n.file.heap.copyIn (n.file.addr 0) (fun i => w.bytes.getD i 0#8) w.bytes.length
    let node := { n.file.node with size := ofNat 64 w.bytes.length }
    .ok { n with file := { node, heap } }

/-- `generate_contents` (fs/procfs.cpp:165-174); `temp` is what stands in the buffer on the
    stack. -/
def generateContents (n : InfoNode) (temp : ℕ → Byte) (c : Contents) : Except Panic InfoNode := do
  let n ← { n with tempBuffer := temp, tempWritten := 0, totalWritten := 0 }.printContents c
  n.flushTempBuffer

/-- `read` (fs/procfs.cpp:116-128): the bytes copied to `buf`, as many as it returns. -/
def read (n : InfoNode) (temp : ℕ → Byte) (c : Contents) (count offset : U64) :
    Except Panic (List Byte × InfoNode) := do
  let n ← (if !n.hasContents || offset = 0#64 then do
      let n ← n.generateContents temp c
      .ok { n with hasContents := true }
    else .ok n)
  .ok (n.file.read count offset, n)

/-- A node of the file system (fs/procfs.cpp:38). -/
def created (heap : Heap) : InfoNode := { file := .created heap }

end InfoNode

/-- `num_digits` (klib/algorithm.hpp:36-40), in at most `turns` turns: one less than the digits
    there are. -/
def numDigits (base : ℕ) : ℕ → ℕ → ℕ
  | 0, _ => 0
  | turns + 1, x => if x / base = 0 then 0 else numDigits base turns (x / base) + 1

/-- The digits that `%d` prints of a number that is not negative (klib/cstdio.hpp:113-124). -/
def digits (value : ℕ) : List Byte :=
  (List.range (numDigits 10 64 value + 1)).reverse.map fun di =>
    ofNat 8 ('0'.toNat + value / 10 ^ di % 10)

/-- The text of `/proc/self` (fs/procfs.cpp:199-201). -/
def selfContents (pid : ℕ) : Contents := .chars (digits pid)

/-! ## Runs -/

inductive Op where
  /-- A read by any process, with what there is to print at that time. -/
  | read (temp : ℕ → Byte) (c : Contents) (count offset : U64)
  /-- The rest of the kernel writes to its own part of the heap and allocates from it. -/
  | elsewhere (byte : ℕ → Byte) (allocated : ℕ)

def step (n : InfoNode) : Op → Except Panic InfoNode
  | .read temp c count offset => do
    let (_, n) ← n.read temp c count offset
    .ok n
  | .elsewhere byte allocated => .ok { n with file := n.file.elsewhere byte allocated }

/-! ## What stands in a node -/

/-- A text printed over the text that the node held. -/
def overlay (t cs : List Byte) : List Byte := cs ++ t.drop cs.length

/-- The text of a node after the contents have been generated. -/
def Contents.over (t : List Byte) : Contents → List Byte
  | .chars cs => overlay t cs
  | .memory w => w.bytes

/-- Whether a node has contents, and its text, after one step. -/
def follow (a : Bool × List Byte) : Op → Bool × List Byte
  | .read _ c _ offset => if !a.1 || offset = 0#64 then (true, c.over a.2) else a
  | .elsewhere _ _ => a

/-- The length of a node's text after the contents have been generated. -/
def Contents.overSize (size : ℕ) : Contents → ℕ
  | .chars cs => max size cs.length
  | .memory w => w.bytes.length

/-- `follow`, with the length of the text only. -/
def followSize (a : Bool × ℕ) : Op → Bool × ℕ
  | .read _ c _ offset => if !a.1 || offset = 0#64 then (true, c.overSize a.2) else a
  | .elsewhere _ _ => a

/-- The size of a new node after a sequence of steps: the length of the longest text so far or,
    where bytes have been copied straight to it, since then. -/
def sizeAfter (ops : List Op) : ℕ := (ops.foldl followSize (false, 0)).2

/-- A printed text is as long as what the node holds. -/
def Contents.Covers (size : ℕ) : Contents → Prop
  | .chars cs => size ≤ cs.length
  | .memory _ => True

theorem overlay_length (t cs : List Byte) : (overlay t cs).length = max t.length cs.length := by
  unfold overlay
  rw [List.length_append, List.length_drop]
  omega

theorem over_length (t : List Byte) (c : Contents) : (c.over t).length = c.overSize t.length := by
  cases c with
  | chars cs => exact overlay_length t cs
  | memory w => rfl

theorem over_eq_text_iff (t : List Byte) (c : Contents) :
    c.over t = c.text ↔ c.Covers t.length := by
  cases c with
  | memory w => exact iff_of_true rfl trivial
  | chars cs =>
    show cs ++ t.drop cs.length = cs ↔ t.length ≤ cs.length
    simp

theorem follow_size (ops : List Op) (a : Bool × List Byte) :
    ops.foldl followSize (a.1, a.2.length) =
      ((ops.foldl follow a).1, (ops.foldl follow a).2.length) := by
  induction ops generalizing a with
  | nil => rfl
  | cons o ops ih =>
    rw [List.foldl_cons, List.foldl_cons, ← ih (follow a o)]
    congr 1
    cases o with
    | elsewhere byte allocated => rfl
    | read temp c count offset =>
      simp only [followSize, follow]
      split_ifs
      · rw [over_length]
      · rfl

/-- A list written into another one within its bounds or at its end. -/
theorem splice_getElem {t cs : List Byte} {offset i : ℕ} (hoffset : offset ≤ t.length)
    (hi : i < (t.take offset ++ cs ++ t.drop (offset + cs.length)).length) :
    (t.take offset ++ cs ++ t.drop (offset + cs.length))[i] =
      if h : offset ≤ i ∧ i < offset + cs.length then cs[i - offset] else t.getD i 0#8 := by
  have htake : (t.take offset).length = offset := by
    rw [List.length_take]
    omega
  simp only [List.length_append, List.length_drop, htake] at hi
  simp only [List.getElem_append, List.length_append, htake]
  split_ifs with h1 h2 h3 h3 h3
  · omega
  · rw [List.getElem_take, List.getD_eq_getElem]
  · rfl
  · omega
  · omega
  · rw [List.getElem_drop, List.getD_eq_getElem _ _ (by omega)]
    congr 1
    omega

/-- The array that holds a text. -/
def array (t : List Byte) : Reference where
  size := t.length
  byte := fun i => t.getD i 0#8
  zero_of_le := by
    intro i hi
    exact List.getD_eq_default _ _ hi

/-- The node holds the text `t` in a block of the kernel's heap. -/
structure Holds (n : InfoNode) (t : List Byte) : Prop where
  refines : Tmpfs.Refines n.file (array t)
  heap : n.file.heap.totalSize ≤ 2 ^ 60
  capacity : n.file.node.capacity.toNat ≤ 2 ^ 60

theorem refines_congr {s : Tmpfs.State} {a b : Reference} (h : Tmpfs.Refines s a)
    (hsize : a.size = b.size) (hbyte : ∀ i < a.size, a.byte i = b.byte i) : Tmpfs.Refines s b := by
  refine ⟨h.toStored, h.size.trans hsize, ?_⟩
  intro i hi
  rw [← hsize] at hi
  rw [h.bytes i hi, hbyte i hi]

namespace Holds

variable {n : InfoNode} {t : List Byte}

section

variable (h : Holds n t)

include h

theorem size : n.file.node.size.toNat = t.length := h.refines.size

theorem length_le : t.length ≤ 2 ^ 60 := by
  have := le_def.mp h.refines.size_le
  have := h.size
  have := h.capacity
  omega

/-- The bytes of the node are its text. -/
theorem copyOut : n.file.heap.copyOut (n.file.addr 0) n.file.node.size.toNat = t := by
  apply List.ext_getElem
  · simp [Heap.copyOut, h.size]
  · intro i hi hi'
    have hbyte := h.refines.bytes i hi'
    simpa [Heap.copyOut, Tmpfs.State.addr, array, hi'] using hbyte

theorem read {count : U64} (hcount : count.toNat ≤ 2 ^ 60) :
    n.file.read count 0#64 = t.take count.toNat := by
  rw [h.refines.read (by simp; omega)]
  apply List.ext_getElem
  · simp [Reference.read, array]
  · intro i hi hi'
    have hlt : i < t.length := by
      rw [List.length_take] at hi'
      omega
    simp [Reference.read, array, hlt]

/-- Nothing else in the node and the heap has changed. -/
theorem congr {n' : InfoNode} (hfile : n'.file = n.file) : Holds n' t := by
  refine ⟨?_, ?_, ?_⟩
  all_goals rw [hfile]
  · exact h.refines
  · exact h.heap
  · exact h.capacity

/-- Bytes written within the text or at its end. -/
theorem writeContents {buf : ℕ → Byte} {cs : List Byte} {offset : ℕ}
    (hbuf : ∀ i (hi : i < cs.length), buf i = cs[i]) (hoffset : offset ≤ t.length)
    (hcount : cs.length ≤ tempBufferSize) :
    Yields (fun n' => Holds n' (t.take offset ++ cs ++ t.drop (offset + cs.length)) ∧
        n'.tempBuffer = n.tempBuffer ∧ n'.tempWritten = n.tempWritten ∧
        n'.totalWritten = n.totalWritten)
      (· = .assertion)
      (n.writeContents buf (ofNat 64 cs.length) (ofNat 64 offset)) := by
  have hlen := h.length_le
  unfold tempBufferSize at hcount
  have hcount' : (ofNat 64 cs.length).toNat = cs.length := by
    rw [toNat_ofNat]
    omega
  have hoffset' : (ofNat 64 offset).toNat = offset := by
    rw [toNat_ofNat]
    omega
  unfold InfoNode.writeContents
  refine (h.refines.write_yields (by omega) (le_def.mpr (by rw [hoffset', h.size]; omega))).bind ?_
  rintro ⟨_, file⟩ ⟨hrefines, htotal, hcap⟩
  rw [hcount', hoffset'] at hrefines
  refine ⟨⟨refines_congr hrefines ?_ ?_, ?_, ?_⟩, rfl, rfl, rfl⟩
  · simp only [Reference.write, array, List.length_append, List.length_take, List.length_drop]
    split_ifs <;> omega
  · intro i hi
    have hi' : i < (t.take offset ++ cs ++ t.drop (offset + cs.length)).length := by
      simp only [Reference.write, array] at hi
      simp only [List.length_append, List.length_take, List.length_drop]
      split_ifs at hi <;> omega
    show (if Reference.Window cs.length offset i then buf (i - offset) else t.getD i 0#8) =
      (t.take offset ++ cs ++ t.drop (offset + cs.length)).getD i 0#8
    rw [List.getD_eq_getElem _ _ hi', splice_getElem hoffset]
    by_cases hin : Reference.Window cs.length offset i
    · have hin' : offset ≤ i ∧ i < offset + cs.length := hin
      rw [if_pos hin, dif_pos hin', hbuf]
    · have hin' : ¬(offset ≤ i ∧ i < offset + cs.length) := hin
      rw [if_neg hin, dif_neg hin']
  · exact htotal.trans_le h.heap
  · show file.node.capacity.toNat ≤ 2 ^ 60
    exact hcap.trans (max_le h.capacity h.heap)

/-- `grow_to` and a copy to the start of the block: the text is what was copied. -/
theorem memory (w : Window) :
    Yields (fun n' => Holds n' w.bytes ∧ n'.tempWritten = n.tempWritten ∧
        n'.totalWritten = n.totalWritten)
      (· = .assertion) (n.printContents (.memory w)) := by
  have hcount : w.count.toNat ≤ 2 ^ 62 := w.count_le.trans (by decide)
  have hlen := w.length_le
  show Yields _ _ (n.growTo w.count >>= _)
  unfold InfoNode.growTo
  cases hgrow : n.file.growTo w.count with
  | error e =>
    have hyields := Tmpfs.growTo_yields h.refines.toStored hcount
    rw [hgrow] at hyields
    exact hyields
  | ok file =>
    obtain ⟨hroom, htotal, hcap⟩ := (Tmpfs.growTo_yields h.refines.toStored hcount).ok hgrow
    obtain ⟨file', hok, hsize, hstored, -⟩ := Tmpfs.growTo_ok h.refines.toStored hcount hroom
    obtain rfl := Except.ok.inj (hgrow.symm.trans hok)
    have hlen' : (ofNat 64 w.bytes.length).toNat = w.bytes.length := by
      rw [toNat_ofNat]
      omega
    have hle := le_def.mp hstored.size_le
    rw [hsize] at hle
    refine ⟨⟨⟨⟨hstored.capacity, ?_, hstored.block, hstored.empty⟩, hlen', ?_⟩, ?_, ?_⟩, rfl, rfl⟩
    · show ofNat 64 w.bytes.length ≤ file.node.capacity
      rw [le_def, hlen']
      omega
    · intro i hi
      have hi' : i < w.bytes.length := hi
      show (if file.addr 0 ≤ file.addr i ∧ file.addr i < file.addr 0 + w.bytes.length then
        w.bytes.getD (file.addr i - file.addr 0) 0#8 else _) = w.bytes.getD i 0#8
      rw [if_pos (by unfold Tmpfs.State.addr; omega)]
      congr 1
      unfold Tmpfs.State.addr
      omega
    · exact htotal.trans_le h.heap
    · exact hcap.trans (max_le h.capacity h.heap)

end

end Holds

/-! ## Printing -/

/-- What the buffer brings to the text. -/
theorem overlay_flush (t : List Byte) {done : List Byte} {k : ℕ} (hk : k ≤ done.length) :
    (overlay t (done.take k)).take k ++ done.drop k ++
      (overlay t (done.take k)).drop (k + (done.drop k).length) = overlay t done := by
  have htake : (done.take k).length = k := by
    rw [List.length_take]
    omega
  have hlen : k + (done.drop k).length = done.length := by
    rw [List.length_drop]
    omega
  unfold overlay
  rw [hlen, htake, List.take_append_of_le_length htake.ge, List.take_take, min_self,
    List.take_append_drop, List.drop_append, htake, List.drop_eq_nil_of_le (by omega),
    List.nil_append, List.drop_drop]
  congr 2
  omega

/-- `done` has been printed over the text `t`, the last characters still in the buffer. -/
structure Printing (t done : List Byte) (n : InfoNode) : Prop where
  flushed : Holds n (overlay t (done.take n.totalWritten))
  pending : n.totalWritten + n.tempWritten = done.length
  buffer : ∀ i (hi : n.totalWritten + i < done.length),
    n.tempBuffer i = done[n.totalWritten + i]

namespace Printing

variable {n : InfoNode} {t done : List Byte}

theorem flush (h : Printing t done n) (hsize : n.tempWritten ≤ tempBufferSize) :
    Yields (fun n' => Printing t done n' ∧ n'.tempWritten = 0) (· = .assertion)
      n.flushTempBuffer := by
  have hpending := h.pending
  have hchunk : (done.drop n.totalWritten).length = n.tempWritten := by
    rw [List.length_drop]
    omega
  have htake : (done.take n.totalWritten).length = n.totalWritten := by
    rw [List.length_take]
    omega
  have hbuf : ∀ i (hi : i < (done.drop n.totalWritten).length),
      n.tempBuffer i = (done.drop n.totalWritten)[i] := by
    intro i hi
    rw [h.buffer i (by rw [List.length_drop] at hi; omega), List.getElem_drop]
  have hoffset : n.totalWritten ≤ (overlay t (done.take n.totalWritten)).length := by
    rw [overlay_length]
    omega
  have hwrite := h.flushed.writeContents hbuf hoffset (by omega)
  rw [hchunk] at hwrite
  unfold InfoNode.flushTempBuffer
  refine hwrite.bind fun n' hn' => ?_
  obtain ⟨hholds, -, htemp, htotal⟩ := hn'
  refine ⟨⟨?_, ?_, ?_⟩, rfl⟩
  · show Holds _ (overlay t (done.take (n'.totalWritten + n'.tempWritten)))
    rw [htemp, htotal, hpending, List.take_length,
      ← overlay_flush t (show n.totalWritten ≤ done.length by omega), hchunk]
    exact hholds.congr rfl
  · show n'.totalWritten + n'.tempWritten + 0 = done.length
    omega
  · intro i hi
    have hi' : n'.totalWritten + n'.tempWritten + i < done.length := hi
    omega

theorem printChar (h : Printing t done n) (hsize : n.tempWritten < tempBufferSize) (c : Byte) :
    Yields (fun n' => Printing t (done ++ [c]) n' ∧ n'.tempWritten < tempBufferSize) (· = .assertion)
      (n.printChar c) := by
  have hpending := h.pending
  have hnext : Printing t (done ++ [c]) { n with
      tempBuffer := Function.update n.tempBuffer n.tempWritten c
      tempWritten := n.tempWritten + 1 } := by
    refine ⟨?_, ?_, ?_⟩
    · show Holds _ (overlay t ((done ++ [c]).take n.totalWritten))
      rw [List.take_append_of_le_length (by omega)]
      exact h.flushed.congr rfl
    · show n.totalWritten + (n.tempWritten + 1) = (done ++ [c]).length
      rw [List.length_append, List.length_singleton]
      omega
    · intro i hi
      have hi' : n.totalWritten + i < (done ++ [c]).length := hi
      show Function.update n.tempBuffer n.tempWritten c i = (done ++ [c])[n.totalWritten + i]
      rw [List.length_append, List.length_singleton] at hi'
      by_cases hlast : i = n.tempWritten
      · subst hlast
        rw [Function.update_self, List.getElem_append_right (by omega)]
        simp
      · rw [Function.update_of_ne hlast, h.buffer i (by omega), List.getElem_append_left]
  unfold InfoNode.printChar
  simp only
  by_cases hfull : n.tempWritten + 1 = tempBufferSize
  · rw [if_pos hfull]
    refine (hnext.flush (by show n.tempWritten + 1 ≤ _; omega)).mono ?_ (fun _ he => he)
    rintro n' ⟨hn', hempty⟩
    exact ⟨hn', by rw [hempty]; decide⟩
  · rw [if_neg hfull]
    exact ⟨hnext, by show n.tempWritten + 1 < _; omega⟩

end Printing

/-- After `generate_contents` the node holds what was printed, and behind it what is left of a
    longer text. -/
theorem generateContents_yields {n : InfoNode} {t : List Byte} (h : Holds n t) (temp : ℕ → Byte)
    (c : Contents) :
    Yields (fun n' => Holds n' (c.over t)) (· = .assertion) (n.generateContents temp c) := by
  have hstart : Holds { n with tempBuffer := temp, tempWritten := 0, totalWritten := 0 } t :=
    h.congr rfl
  unfold InfoNode.generateContents
  cases c with
  | chars cs =>
    have hloop : Yields (fun n' => Printing t cs n' ∧ n'.tempWritten < tempBufferSize)
        (· = .assertion) (cs.foldlM InfoNode.printChar
          { n with tempBuffer := temp, tempWritten := 0, totalWritten := 0 }) := by
      refine yields_foldlM (R := fun done n' => Printing t done n' ∧ n'.tempWritten < tempBufferSize)
        ?_ ?_
      · intro pre c post n' _ hn'
        exact hn'.1.printChar hn'.2 c
      · refine ⟨⟨hstart, rfl, ?_⟩, show 0 < tempBufferSize by decide⟩
        intro i hi
        exact absurd hi (Nat.not_lt_zero _)
    refine hloop.bind fun n' hn' => ?_
    refine (hn'.1.flush hn'.2.le).mono ?_ (fun _ he => he)
    rintro n'' ⟨hprinted, hempty⟩
    have hdone := hprinted.pending
    have hflushed := hprinted.flushed
    rw [hempty, Nat.add_zero] at hdone
    rw [hdone, List.take_length] at hflushed
    exact hflushed
  | memory w =>
    refine (hstart.memory w).bind fun n' hn' => ?_
    obtain ⟨hholds, htemp, htotal⟩ := hn'
    -- nothing has been printed, so nothing is flushed
    have hprinting : Printing w.bytes [] n' := by
      refine ⟨?_, ?_, ?_⟩
      · rw [List.take_nil]
        exact hholds
      · rw [htemp, htotal]
        rfl
      · intro i hi
        exact absurd hi (Nat.not_lt_zero _)
    refine (hprinting.flush (htemp.trans_le (show 0 ≤ tempBufferSize by decide))).mono ?_ (fun _ he => he)
    rintro n'' ⟨hprinted, -⟩
    have hflushed := hprinted.flushed
    rw [List.take_nil] at hflushed
    exact hflushed

/-! ## Reading -/

variable {n : InfoNode} {a : Bool × List Byte}

/-- A read by any process: what it leaves in the node, and what it returns of it. -/
theorem read_yields (hcontents : n.hasContents = a.1) (h : Holds n a.2) (temp : ℕ → Byte)
    (c : Contents) (count offset : U64) :
    Yields (fun r => r.2.hasContents = (follow a (.read temp c count offset)).1 ∧
        Holds r.2 (follow a (.read temp c count offset)).2 ∧ r.1 = r.2.file.read count offset)
      (· = .assertion) (n.read temp c count offset) := by
  unfold InfoNode.read follow
  rw [hcontents]
  by_cases hgen : (!a.1 || decide (offset = 0#64)) = true
  · simp only [if_pos hgen]
    refine Yields.bind (P := fun n' => n'.hasContents = true ∧ Holds n' (c.over a.2)) ?_ ?_
    · refine (generateContents_yields h temp c).bind fun n' hn' => ?_
      exact ⟨rfl, hn'.congr rfl⟩
    · intro n' hn'
      exact ⟨hn'.1, hn'.2, rfl⟩
  · simp only [if_neg hgen]
    exact ⟨hcontents, h, rfl⟩

theorem Holds.elsewhere {t : List Byte} (h : Holds n t) (byte : ℕ → Byte) (allocated : ℕ) :
    Holds { n with file := n.file.elsewhere byte allocated } t :=
  ⟨h.refines.elsewhere byte allocated, h.heap, h.capacity⟩

theorem step_holds {o : Op} {n' : InfoNode} (hcontents : n.hasContents = a.1) (h : Holds n a.2)
    (hstep : step n o = .ok n') :
    n'.hasContents = (follow a o).1 ∧ Holds n' (follow a o).2 := by
  cases o with
  | elsewhere byte allocated =>
    obtain rfl := Except.ok.inj hstep
    exact ⟨hcontents, h.elsewhere byte allocated⟩
  | read temp c count offset =>
    obtain ⟨⟨bytes, n1⟩, hread, hn'⟩ := bind_ok hstep
    obtain rfl := Except.ok.inj hn'
    obtain ⟨hflag, hholds, -⟩ := (read_yields hcontents h temp c count offset).ok hread
    exact ⟨hflag, hholds⟩

theorem run_holds {ops : List Op} {n' : InfoNode} (hcontents : n.hasContents = a.1)
    (h : Holds n a.2) (hrun : ops.foldlM step n = .ok n') :
    n'.hasContents = (ops.foldl follow a).1 ∧ Holds n' (ops.foldl follow a).2 := by
  induction ops generalizing n a with
  | nil =>
    obtain rfl := Except.ok.inj hrun
    exact ⟨hcontents, h⟩
  | cons o ops ih =>
    rw [List.foldlM_cons, bind_ok_iff] at hrun
    obtain ⟨n1, hstep, hrun⟩ := hrun
    obtain ⟨hflag, hholds⟩ := step_holds hcontents h hstep
    exact ih hflag hholds hrun

/-- The kernel's heap as it is set up (mem/vmm.cpp:32). -/
def heapSize : ℕ := 12 * 1024 * 1024 * 1024

theorem holds_created {heap : Heap} (hheap : heap.totalSize = heapSize) :
    Holds (.created heap) [] := by
  refine ⟨refines_congr (Tmpfs.refines_created heap) rfl ?_, ?_, ?_⟩
  · intro i hi
    exact absurd hi (Nat.not_lt_zero _)
  · show heap.totalSize ≤ 2 ^ 60
    rw [hheap]
    decide
  · show (0 : ℕ) ≤ 2 ^ 60
    decide

/-- The size of the node and its bytes are those of the text. -/
def Fresh (n : InfoNode) (text : List Byte) : Prop :=
  n.file.node.size.toNat = text.length ∧
    n.file.heap.copyOut (n.file.addr 0) n.file.node.size.toNat = text

theorem Holds.fresh_iff {t text : List Byte} (h : Holds n t) : Fresh n text ↔ t = text := by
  unfold Fresh
  rw [h.copyOut, h.size]
  constructor
  · exact fun hfresh => hfresh.2
  · rintro rfl
    exact ⟨rfl, rfl⟩

theorem numDigits_le (base turns x : ℕ) : numDigits base turns x ≤ turns := by
  induction turns generalizing x with
  | zero => exact Nat.le_refl 0
  | succ turns ih =>
    unfold numDigits
    split_ifs
    · omega
    · have := ih (x / base)
      omega

theorem digits_length (value : ℕ) : (digits value).length < 128 := by
  have := numDigits_le 10 64 value
  simp only [digits, List.length_map, List.length_reverse, List.length_range]
  omega

theorem lt_pow_numDigits {base turns x : ℕ} (hbase : 1 < base) (hx : x < base ^ turns) :
    x < base ^ (numDigits base turns x + 1) := by
  induction turns generalizing x with
  | zero =>
    have hx' : x = 0 := by simpa using hx
    rw [hx']
    exact Nat.pow_pos (by omega)
  | succ turns ih =>
    unfold numDigits
    split_ifs with hzero
    · have := (Nat.div_eq_zero_iff_lt (by omega)).mp hzero
      simpa using this
    · have := ih (Nat.div_lt_of_lt_mul (by rwa [pow_succ'] at hx))
      rw [pow_succ']
      rw [Nat.mul_comm]
      exact (Nat.div_lt_iff_lt_mul (by omega)).mp this

/-- The digits, the last one first, are those of the number. -/
theorem ofDigits_digits {value : ℕ} (hvalue : value < 2 ^ 64) :
    Nat.ofDigits 10 ((digits value).reverse.map fun c => c.toNat - '0'.toNat) = value := by
  have hpow := lt_pow_numDigits (show 1 < 10 by decide)
    (hvalue.trans (show 2 ^ 64 < 10 ^ 64 by norm_num))
  have hchar : ∀ d : ℕ, (ofNat 8 ('0'.toNat + d % 10)).toNat - '0'.toNat = d % 10 := by
    intro d
    have hzero : '0'.toNat = 48 := rfl
    rw [toNat_ofNat, hzero]
    omega
  unfold digits
  simp only [← List.map_reverse, List.reverse_reverse, List.map_map, Function.comp_def, hchar]
  rw [ofDigits_range, Nat.mod_eq_of_lt hpow]

theorem ofDigits_digits_ten :
    Nat.ofDigits 10 ((digits 10).reverse.map fun c => c.toNat - '0'.toNat) = 10 :=
  ofDigits_digits (by norm_num)

/-- **Main theorem.** After any sequence of reads of a node, by whichever processes and with
    whatever there was to print, and of other work on the kernel's heap, a read at offset 0 returns
    unless the heap is full, and the node then has the size and the bytes of what was printed
    exactly when the text is not shorter than what the node held. What `/proc/self` leads to is the
    number of the process under the same condition. -/
theorem procfs_fresh {heap : Heap} (hheap : heap.totalSize = heapSize) {ops : List Op}
    {n : InfoNode} (hrun : ops.foldlM step (.created heap) = .ok n) :
    (∀ temp c count, Yields (fun r => Fresh r.2 c.text ↔ c.Covers (sizeAfter ops)) (· = .assertion)
      (n.read temp c count 0#64)) ∧
    ∀ temp pid, Yields (fun r => r.1 = digits pid ↔ sizeAfter ops ≤ (digits pid).length)
      (· = .assertion) (n.read temp (selfContents pid) 128#64 0#64) := by
  obtain ⟨hcontents, hholds⟩ := run_holds (a := (false, [])) rfl (holds_created hheap) hrun
  have hsize : (ops.foldl follow (false, [])).2.length = sizeAfter ops := by
    unfold sizeAfter
    rw [show ((false, 0) : Bool × ℕ) = (false, ([] : List Byte).length) from rfl,
      follow_size ops (false, [])]
  refine ⟨?_, ?_⟩
  · intro temp c count
    refine (read_yields hcontents hholds temp c count 0#64).mono ?_ (fun _ he => he)
    rintro r ⟨-, hnode, -⟩
    have hover : (follow (ops.foldl follow (false, [])) (.read temp c count 0#64)).2 =
        c.over (ops.foldl follow (false, [])).2 := by
      simp [follow]
    rw [hnode.fresh_iff, hover, over_eq_text_iff, hsize]
  · intro temp pid
    refine (read_yields hcontents hholds temp (selfContents pid) 128#64 0#64).mono ?_
      (fun _ he => he)
    rintro r ⟨-, hnode, hreply⟩
    have hover : (follow (ops.foldl follow (false, [])) (.read temp (selfContents pid) 128#64 0#64)).2 =
        overlay (ops.foldl follow (false, [])).2 (digits pid) := by
      simp [follow, selfContents, Contents.over]
    rw [hreply, hnode.read (by decide), hover, ← hsize]
    have hshort := digits_length pid
    have hlen := overlay_length (ops.foldl follow (false, [])).2 (digits pid)
    constructor
    · intro htake
      have := congrArg List.length htake
      rw [List.length_take, hlen] at this
      have h128 : (128#64).toNat = 128 := rfl
      omega
    · intro hcovers
      have hself : overlay (ops.foldl follow (false, [])).2 (digits pid) = digits pid :=
        (over_eq_text_iff _ (selfContents pid)).mpr hcovers
      rw [hself, List.take_of_length_le]
      exact hshort.le

/-- The kernel's heap with nothing in it. -/
def emptyHeap : Heap :=
  { byte := fun _ => 0#8, allocBase := 0, totalSize := heapSize, allocPtr := 0 }

/-- Process 345 resolves `/proc/self`, and something else is allocated. -/
def resolvedBy345 : List Op :=
  [.read (fun _ => 0#8) (selfContents 345) 128#64 0#64, .elsewhere (fun _ => 7#8) 64]

theorem procfs_fresh_resolvedBy345 : ∃ n, resolvedBy345.foldlM step (.created emptyHeap) = .ok n ∧
    ∀ temp pid, Yields (fun r => r.1 = digits pid ↔ 3 ≤ (digits pid).length) (· = .assertion)
      (n.read temp (selfContents pid) 128#64 0#64) := by
  obtain ⟨n, hrun, -⟩ := exists_ok_of_map
    (show (resolvedBy345.foldlM step (.created emptyHeap)).map (·.hasContents) = .ok true by
      decide +kernel)
  exact ⟨n, hrun, (procfs_fresh rfl hrun).2⟩

/-- Process 10 resolves `/proc/self`, and then process 5 is led to process 50. -/
theorem self_stale : ∃ n r,
    step (.created emptyHeap) (.read (fun _ => 0#8) (selfContents 10) 128#64 0#64) = .ok n ∧
      n.read (fun _ => 0#8) (selfContents 5) 128#64 0#64 = .ok r ∧ r.1 = digits 50 ∧
      r.1 ≠ digits 5 ∧ ¬Fresh r.2 (digits 5) := by
  obtain ⟨r, hrun, hr⟩ := exists_ok_of_map
    (show (step (.created emptyHeap) (.read (fun _ => 0#8) (selfContents 10) 128#64 0#64) >>=
        fun n => n.read (fun _ => 0#8) (selfContents 5) 128#64 0#64).map
        (fun r => (r.1, r.2.file.node.size.toNat)) = .ok (digits 50, 2) by decide +kernel)
  obtain ⟨n, hfirst, hsecond⟩ := bind_ok hrun
  obtain ⟨hbytes, hsize⟩ := Prod.mk.inj hr
  refine ⟨n, r, hfirst, hsecond, hbytes, ?_, ?_⟩
  · rw [hbytes]
    decide
  · intro hfresh
    have hone := hfresh.1
    rw [hsize] at hone
    exact absurd hone (by decide)

end Fishix.Fs.Procfs
