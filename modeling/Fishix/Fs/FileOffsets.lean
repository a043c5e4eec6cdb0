import Fishix.Fs.ReadOnly
import Fishix.Fs.Vectored

/-!
# Offsets of a `tmpfs` file

Model of `read`, `write`, `pread64`, `pwrite64` and `lseek` (fs/vfs.cpp:472-505, 542-551) on a
regular file of `tmpfs`. Offset and count come from user space as they are, and
`Node::read` and `Node::write` add them modulo `2 ^ 64`, both in the bounds test and in the length
handed to `grow_to` (fs/tmpfs.cpp:103-121). A sum that wraps around looks small: the test passes and
`count` bytes are copied from or to `storage + offset`. A storage that is replaced is copied with the
size of the new one, which is larger (mem/bump.cpp:45).

A capacity is zero or a power of four, so `2 ^ 62` is the largest size a file can have.

* `readOk_iff`, `writeOk_iff`: one call of the node.
* `lt_growReads`: the bytes behind a storage that is replaced are read.
* `File.step_stored`: what every call keeps.
* `calls_contained_iff`: any sequence of calls.
* `pread_escapes`: `pread64` at offset one.
-/

namespace Fishix.Fs.FileOffsets

open Fishix.Mem (Heap Panic)
open Fishix.Userland (Byte)
open Fishix.Fs.Tmpfs (NodeData State Stored IsCapacity)
open BitVec (ofNat toNat_add le_def lt_def)

/-! ## One call of the node -/

/-- The `n` bytes from `storage + offset` on lie in the storage. -/
def Within (node : NodeData) (offset : U64) (n : ℕ) : Prop :=
  ∀ i < n, offset + ofNat 64 i < node.capacity

/-- The largest size that `capacity` can reach. -/
def maxSize : ℕ := 2 ^ 62

/-- What `Node::read` is to do. -/
structure ReadOk (s : State) (count offset : U64) : Prop where
  inside : Within s.node offset (s.read count offset).length
  returns : (s.read count offset).length =
    if offset < s.node.size then min count.toNat (s.node.size.toNat - offset.toNat) else 0

/-- How many bytes `grow_to` reads from the old storage on. `reallocate` knows only the size of the
    new block (mem/bump.cpp:44-45). -/
def growReads (s : State) (length : U64) : ℕ :=
  match s.growTo length with
  | .error _ => 0
  | .ok s' =>
    if s.node.capacity < length ∧ s.node.storage.isSome then s'.node.capacity.toNat else 0

/-- What `Node::write` is to do. -/
structure WriteOk (s : State) (buf : ℕ → Byte) (count offset : U64) : Prop where
  grows : count ≠ 0#64 → s.node.size < offset + count →
    Within s.node 0#64 (growReads s (offset + count))
  inside : ∀ n s', s.write buf count offset = .ok (n, s') → Within s'.node offset n.toNat
  refused : count ≠ 0#64 → maxSize < offset.toNat + count.toNat →
    ∃ e, s.write buf count offset = .ok (e, s) ∧ e.msb

/-- The bytes asked for end at an address. -/
def ReadFits (s : State) (count offset : U64) : Prop :=
  s.node.size ≤ offset ∨ offset.toNat + count.toNat < 2 ^ 64

/-- A file that has storage gets a larger one, for which the heap has room. -/
def Regrows (s : State) (length : U64) : Prop :=
  s.node.capacity ≠ 0#64 ∧ s.node.capacity < length ∧ s.Room length

/-- Nothing is to be written, or it ends where a file can end and storage is not replaced. -/
def WriteFits (s : State) (count offset : U64) : Prop :=
  count = 0#64 ∨ offset.toNat + count.toNat ≤ maxSize ∧ ¬Regrows s (offset + count)

instance (s : State) (count offset : U64) : Decidable (ReadFits s count offset) :=
  inferInstanceAs (Decidable (_ ∨ _))

section Node

variable {s : State} {count offset : U64}

theorem isCapacity_le {c : U64} (h : IsCapacity c) : c.toNat ≤ maxSize := h.toNat_le

theorem toNat_add_of_le {n i : ℕ} (hn : offset.toNat + n ≤ 2 ^ 64) (hi : i < n) :
    (offset + ofNat 64 i).toNat = offset.toNat + i := by
  rw [toNat_add, BitVec.toNat_ofNat]
  omega

/-- Bytes that end below the capacity lie in the storage. -/
theorem within_of_le {node : NodeData} {n : ℕ} (h : offset.toNat + n ≤ node.capacity.toNat) :
    Within node offset n := by
  intro i hi
  have hlt := node.capacity.isLt
  rw [lt_def, toNat_add_of_le (by omega) hi]
  omega

/-- Bytes in the storage end below its capacity. -/
theorem Within.le {node : NodeData} {n : ℕ} (h : Within node offset n)
    (hn : n ≠ 0) : offset.toNat + n ≤ node.capacity.toNat := by
  by_contra hlt
  have hfirst := h 0 (Nat.pos_of_ne_zero hn)
  rw [lt_def, BitVec.add_zero] at hfirst
  have hcap := node.capacity.isLt
  -- the byte at the capacity is copied too
  have hend := h (node.capacity.toNat - offset.toNat) (by omega)
  rw [lt_def, toNat_add_of_le (n := node.capacity.toNat - offset.toNat + 1) (by omega)
    (by omega)] at hend
  omega

theorem length_read (s : State) (count offset : U64) :
    (s.read count offset).length =
      if offset ≥ s.node.size then 0
      else (if offset + count > s.node.size then s.node.size - offset else count).toNat := by
  unfold State.read Heap.copyOut
  split_ifs <;> simp

/-- Where offset and count do not wrap around, the bound of a read is that of the file. -/
theorem length_read_of_fits (hfits : ReadFits s count offset) :
    (s.read count offset).length =
      if offset < s.node.size then min count.toNat (s.node.size.toNat - offset.toNat) else 0 := by
  rw [length_read]
  by_cases hend : offset ≥ s.node.size
  · rw [if_pos hend, if_neg (BitVec.not_lt.mpr hend)]
  have hlt := BitVec.not_le.mp hend
  have hlt' := lt_def.mp hlt
  have hsum : (offset + count).toNat = offset.toNat + count.toNat := by
    rw [toNat_add]
    exact Nat.mod_eq_of_lt (hfits.resolve_left hend)
  have hsub : (s.node.size - offset).toNat = s.node.size.toNat - offset.toNat :=
    BitVec.toNat_sub_of_le (BitVec.le_of_lt hlt)
  rw [if_neg hend, if_pos hlt]
  split_ifs with hmore
  · have := lt_def.mp hmore
    omega
  · have := le_def.mp (BitVec.not_lt.mp hmore)
    omega

/-- `Node::read` keeps to the file if and only if offset and count do not wrap around. -/
theorem readOk_iff (h : Stored s) : ReadOk s count offset ↔ ReadFits s count offset := by
  have hsize := le_def.mp h.size_le
  constructor
  · intro hok
    by_contra hnot
    obtain ⟨hlt, hwrap⟩ := not_or.mp hnot
    have hlt := BitVec.not_le.mp hlt
    have hlt' := lt_def.mp hlt
    have hreturns := hok.returns
    have hsum : (offset + count).toNat = offset.toNat + count.toNat - 2 ^ 64 := by
      rw [toNat_add]
      omega
    -- the sum has come out small, so that all of `count` is copied
    have hsmall : ¬offset + count > s.node.size := by
      rw [gt_iff_lt, lt_def, hsum]
      omega
    rw [length_read, if_neg (BitVec.not_le.mpr hlt), if_neg hsmall, if_pos hlt] at hreturns
    omega
  · intro hfits
    refine ⟨?_, length_read_of_fits hfits⟩
    rw [length_read_of_fits hfits]
    split_ifs with hlt
    · have := lt_def.mp hlt
      exact within_of_le (by omega)
    · exact fun i hi => absurd hi (Nat.not_lt_zero i)

/-! ## Growth -/

/-- A write that returns: nothing was to be written, or the file has all the room it asked for by
    the sum. -/
theorem write_stored {s s' : State} {buf : ℕ → Byte} {count offset n : U64} (h : Stored s)
    (hw : s.write buf count offset = .ok (n, s')) :
    n = count ∧ Stored s' ∧ (count ≠ 0#64 → offset + count ≤ s'.node.size) := by
  unfold State.write at hw
  by_cases hz : count = 0#64
  · rw [if_pos hz] at hw
    cases hw
    exact ⟨hz.symm, h, absurd hz⟩
  rw [if_neg hz] at hw
  obtain ⟨s1, hs1, hw⟩ := bind_ok hw
  cases hw
  split_ifs at hs1 with hmore
  · obtain ⟨hstored, hsize⟩ := h.growTo hs1
    refine ⟨rfl, ⟨hstored.capacity, hstored.size_le, hstored.block, hstored.empty⟩, fun _ => ?_⟩
    exact BitVec.le_of_eq hsize.symm
  · cases hs1
    exact ⟨rfl, ⟨h.capacity, h.size_le, h.block, h.empty⟩, fun _ => BitVec.not_lt.mp hmore⟩

theorem toNat_sum (hle : offset.toNat + count.toNat ≤ maxSize) :
    (offset + count).toNat = offset.toNat + count.toNat := by
  unfold maxSize at hle
  rw [toNat_add]
  omega

/-- A storage that is not replaced is not read, and nothing is read where there is none. -/
theorem growReads_eq_zero {length : U64} (h : Stored s) (hlength : length.toNat ≤ maxSize)
    (hkeeps : ¬Regrows s length) : growReads s length = 0 := by
  unfold growReads
  cases hgrow : s.growTo length with
  | error e => rfl
  | ok s' =>
    obtain ⟨hroom, -⟩ := (Tmpfs.growTo_yields h hlength).ok hgrow
    refine if_neg ?_
    rintro ⟨hmore, hstorage⟩
    refine hkeeps ⟨fun hz => ?_, hmore, hroom⟩
    rw [h.empty hz] at hstorage
    cases hstorage

/-- Bytes behind the old storage are read when it is replaced. -/
theorem lt_growReads {length : U64} (h : Stored s) (hlength : length.toNat ≤ maxSize)
    (hregrows : Regrows s length) : s.node.capacity.toNat < growReads s length := by
  obtain ⟨hz, hmore, hroom⟩ := hregrows
  obtain ⟨p, hp, -⟩ := h.block hz
  obtain ⟨s', hgrow, hsize, hstored, -⟩ := Tmpfs.growTo_ok h hlength hroom
  have hle := le_def.mp (hsize ▸ hstored.size_le)
  have hlt := lt_def.mp hmore
  unfold growReads
  rw [hgrow]
  simp only [hmore, hp, Option.isSome_some, and_self, if_true]
  omega

/-- `Node::write` keeps to the storage, and fails where the file cannot grow, if and only if it is
    not asked for the latter and does not have its storage replaced. -/
theorem writeOk_iff (h : Stored s) (buf : ℕ → Byte) :
    WriteOk s buf count offset ↔ WriteFits s count offset := by
  constructor
  · intro hok
    by_cases hz : count = 0#64
    · exact .inl hz
    have hle : offset.toNat + count.toNat ≤ maxSize := by
      by_contra hbig
      obtain ⟨e, hw, -⟩ := hok.refused hz (Nat.not_le.mp hbig)
      obtain ⟨rfl, -, -⟩ := write_stored h hw
      have hcount : e.toNat ≠ 0 := fun h0 => hz (BitVec.eq_of_toNat_eq (by simpa using h0))
      have hin := (hok.inside e s hw).le hcount
      have := isCapacity_le h.capacity
      omega
    refine .inr ⟨hle, fun hregrows => ?_⟩
    have hreads := lt_growReads h (by rw [toNat_sum hle]; exact hle) hregrows
    have hsize := le_def.mp h.size_le
    have hmore := lt_def.mp hregrows.2.1
    have hin := (hok.grows hz (lt_def.mpr (by omega))).le (by omega)
    simp only [BitVec.toNat_ofNat, Nat.zero_mod, Nat.zero_add] at hin
    omega
  · intro hfits
    constructor
    · intro hz _
      obtain ⟨hle, hkeeps⟩ := hfits.resolve_left hz
      rw [growReads_eq_zero h (by rw [toNat_sum hle]; exact hle) hkeeps]
      exact fun i hi => absurd hi (Nat.not_lt_zero i)
    · intro n s' hw
      obtain ⟨rfl, hstored, hroom⟩ := write_stored h hw
      by_cases hz : n = 0#64
      · subst hz
        exact fun i hi => absurd hi (Nat.not_lt_zero i)
      have hsum := toNat_sum (hfits.resolve_left hz).1
      have hsize := le_def.mp (hroom hz)
      have hcap := le_def.mp hstored.size_le
      exact within_of_le (by omega)
    · intro hz hbig
      exact absurd (hfits.resolve_left hz).1 (Nat.not_le.mpr hbig)

end Node

/-! ## Calls -/

/-- A file, its descriptions, and the descriptor slots that refer to them. -/
structure File where
  node : State
  description : DescriptionId → OpenDescription
  slot : ℕ → Option DescriptionId

inductive Call where
  | read (fd : ℕ) (count : U64)
  | write (fd : ℕ) (buf : ℕ → Byte) (count : U64)
  | pread64 (fd : ℕ) (count offset : U64)
  | pwrite64 (fd : ℕ) (buf : ℕ → Byte) (count offset : U64)
  | lseek (fd : ℕ) (offset : U64) (whence : Whence)
  | ftruncate (fd : ℕ) (length : U64)
  /-- What `open`, `close`, `dup` and `fcntl` do to the table. -/
  | table (description : DescriptionId → OpenDescription) (slot : ℕ → Option DescriptionId)
  /-- The rest of the kernel. -/
  | elsewhere (byte : ℕ → Byte) (allocated : ℕ)

namespace File

def cursor (f : File) (d : DescriptionId) : U64 := (f.description d).cursor

def setCursor (f : File) (d : DescriptionId) (cursor : U64) : File :=
  { f with description := Function.update f.description d { f.description d with cursor } }

/-- `seek_to_end_if_append` (fs/vfs.cpp:329-335). -/
def seekToEndIfAppend (f : File) (d : DescriptionId) : File :=
  if (f.description d).flags &&& oAppend ≠ 0#64 then
    match FileNode.seek (.tmpfs f.node) (f.cursor d) 0#64 .end_ with
    | some ret => if ret.msb then f else f.setCursor d ret
    | none => f
  else f

/-- `description->cursor += ret` behind `if (ret < 0) return ret`. -/
def advance (f : File) (d : DescriptionId) (ret : U64) : File :=
  if ret.msb then f else f.setCursor d (f.cursor d + ret)

/-- `get_file_description`: nothing happens where there is none. -/
def withDescription (f : File) (fd : ℕ) (k : DescriptionId → Except Panic File) :
    Except Panic File :=
  match f.slot fd with
  | none => .ok f
  | some d => k d

/-- The file behind a call. -/
def step (f : File) : Call → Except Panic File
  | .read fd count => f.withDescription fd fun d =>
      .ok (f.advance d (ofNat 64 (f.node.read count (f.cursor d)).length))
  | .write fd buf count => f.withDescription fd fun d => do
      let f := f.seekToEndIfAppend d
      let (ret, node) ← f.node.write buf count (f.cursor d)
      .ok ({ f with node }.advance d ret)
  | .pread64 fd _ _ => f.withDescription fd fun _ => .ok f
  | .pwrite64 fd buf count offset => f.withDescription fd fun _ => do
      let (_, node) ← f.node.write buf count offset
      .ok { f with node }
  | .lseek fd offset whence => f.withDescription fd fun d =>
      match FileNode.seek (.tmpfs f.node) (f.cursor d) offset whence with
      | none => .ok f
      | some ret => .ok (if ret.msb then f else f.setCursor d ret)
  | .ftruncate fd length =>
      if length.msb then .ok f
      else f.withDescription fd fun _ => do
        let node ← f.node.truncate length
        .ok { f with node }
  | .table description slot => .ok { f with description, slot }
  | .elsewhere byte allocated => .ok { f with node := f.node.elsewhere byte allocated }

/-- The call keeps to the storage, and does what its offsets ask for. -/
def Contained (f : File) : Call → Prop
  | .read fd count => ∀ d, f.slot fd = some d → ReadOk f.node count (f.cursor d)
  | .write fd buf count => ∀ d, f.slot fd = some d →
      WriteOk f.node buf count ((f.seekToEndIfAppend d).cursor d)
  | .pread64 fd count offset => ∀ d, f.slot fd = some d → ReadOk f.node count offset
  | .pwrite64 fd buf count offset => ∀ d, f.slot fd = some d → WriteOk f.node buf count offset
  | _ => True

/-- The condition on the cursor or offset and the count of a call. -/
def Fits (f : File) : Call → Prop
  | .read fd count => ∀ d, f.slot fd = some d → ReadFits f.node count (f.cursor d)
  | .write fd _ count => ∀ d, f.slot fd = some d →
      WriteFits f.node count ((f.seekToEndIfAppend d).cursor d)
  | .pread64 fd count offset => ∀ d, f.slot fd = some d → ReadFits f.node count offset
  | .pwrite64 fd _ count offset => ∀ d, f.slot fd = some d → WriteFits f.node count offset
  | _ => True

/-- Every call of the run is contained in the state before it. -/
def RunContained : List Call → File → Prop
  | [], _ => True
  | c :: cs, f => f.Contained c ∧ ∀ f', f.step c = .ok f' → RunContained cs f'

/-- Every call of the run meets its condition in the state before it. -/
def RunFits : List Call → File → Prop
  | [], _ => True
  | c :: cs, f => f.Fits c ∧ ∀ f', f.step c = .ok f' → RunFits cs f'

/-- A new file behind any descriptors. -/
def created (heap : Heap) (description : DescriptionId → OpenDescription)
    (slot : ℕ → Option DescriptionId) : File :=
  { node := .created heap, description, slot }

theorem contained_iff {f : File} (h : Stored f.node) (c : Call) : f.Contained c ↔ f.Fits c := by
  cases c with
  | read fd count => exact forall₂_congr fun d _ => readOk_iff h
  | write fd buf count => exact forall₂_congr fun d _ => writeOk_iff h buf
  | pread64 fd count offset => exact forall₂_congr fun d _ => readOk_iff h
  | pwrite64 fd buf count offset => exact forall₂_congr fun d _ => writeOk_iff h buf
  | lseek fd offset whence => rfl
  | ftruncate fd length => rfl
  | table description slot => rfl
  | elsewhere byte allocated => rfl

end File

/-! ## Runs -/

theorem truncate_stored {s s' : State} {length : U64} (h : Stored s)
    (ht : s.truncate length = .ok s') : Stored s' := by
  unfold State.truncate at ht
  obtain ⟨s1, hs1, rfl⟩ := bind_pure_ok ht
  split_ifs at hs1 with hmore
  · obtain ⟨s2, hgrow, rfl⟩ := bind_pure_ok hs1
    obtain ⟨hstored, hsize⟩ := h.growTo hgrow
    have hle : length ≤ s2.node.capacity := hsize ▸ hstored.size_le
    exact ⟨hstored.capacity, hle, hstored.block, hstored.empty⟩
  · cases hs1
    exact ⟨h.capacity, BitVec.le_trans (BitVec.not_lt.mp hmore) h.size_le, h.block, h.empty⟩

namespace File

theorem node_advance (f : File) (d : DescriptionId) (ret : U64) :
    (f.advance d ret).node = f.node := by
  unfold advance
  split_ifs <;> rfl

theorem node_seekToEndIfAppend (f : File) (d : DescriptionId) :
    (f.seekToEndIfAppend d).node = f.node := by
  unfold seekToEndIfAppend
  split_ifs
  · simp only [FileNode.seek]
    split_ifs <;> rfl
  · rfl

/-- A call through a descriptor leaves the file, or does what it does through a description. -/
theorem withDescription_ok {f f' : File} {fd : ℕ} {k : DescriptionId → Except Panic File}
    (h : f.withDescription fd k = .ok f') : f' = f ∨ ∃ d, k d = .ok f' := by
  unfold withDescription at h
  cases hslot : f.slot fd with
  | none =>
    rw [hslot] at h
    exact .inl (Except.ok.inj h).symm
  | some d =>
    rw [hslot] at h
    exact .inr ⟨d, h⟩

/-- Every call that returns leaves the storage as large as its capacity. -/
theorem step_stored {f f' : File} {c : Call} (h : Stored f.node) (hstep : f.step c = .ok f') :
    Stored f'.node := by
  cases c with
  | read fd count =>
    rcases withDescription_ok hstep with rfl | ⟨d, hd⟩
    · exact h
    · cases hd
      rw [node_advance]
      exact h
  | write fd buf count =>
    rcases withDescription_ok hstep with rfl | ⟨d, hd⟩
    · exact h
    · obtain ⟨⟨ret, node⟩, hw, rfl⟩ := bind_pure_ok hd
      rw [node_seekToEndIfAppend] at hw
      rw [node_advance]
      exact (write_stored h hw).2.1
  | pread64 fd count offset =>
    rcases withDescription_ok hstep with rfl | ⟨d, hd⟩
    · exact h
    · rw [← Except.ok.inj hd]
      exact h
  | pwrite64 fd buf count offset =>
    rcases withDescription_ok hstep with rfl | ⟨d, hd⟩
    · exact h
    · obtain ⟨⟨ret, node⟩, hw, rfl⟩ := bind_pure_ok hd
      exact (write_stored h hw).2.1
  | lseek fd offset whence =>
    rcases withDescription_ok hstep with rfl | ⟨d, hd⟩
    · exact h
    · split at hd
      · rw [← Except.ok.inj hd]
        exact h
      · rw [← Except.ok.inj hd]
        split_ifs
        · exact h
        · exact h
  | ftruncate fd length =>
    simp only [step] at hstep
    split_ifs at hstep
    · rw [← Except.ok.inj hstep]
      exact h
    rcases withDescription_ok hstep with rfl | ⟨d, hd⟩
    · exact h
    · obtain ⟨node, ht, rfl⟩ := bind_pure_ok hd
      exact truncate_stored h ht
  | table description slot =>
    rw [← Except.ok.inj hstep]
    exact h
  | elsewhere byte allocated =>
    rw [← Except.ok.inj hstep]
    exact h.elsewhere byte allocated

theorem runContained_iff {cs : List Call} {f : File} (h : Stored f.node) :
    RunContained cs f ↔ RunFits cs f := by
  induction cs generalizing f with
  | nil => rfl
  | cons c cs ih =>
    exact and_congr (contained_iff h c) (forall₂_congr fun f' hf' => ih (step_stored h hf'))

end File

/-- **Main theorem.** In every run of calls from a new file, with any descriptors, offsets, counts
    and cursors, and whatever the rest of the kernel does between the calls: every read and write
    keeps to the storage, every read returns what is there, and every write the file cannot hold
    fails, if and only if no read of something in the file has an offset and a count whose sum wraps
    around, and no write of something ends beyond the largest size or gets a larger storage for one
    that is there. -/
theorem calls_contained_iff (heap : Heap) (description : DescriptionId → OpenDescription)
    (slot : ℕ → Option DescriptionId) (cs : List Call) :
    File.RunContained cs (.created heap description slot) ↔
      File.RunFits cs (.created heap description slot) :=
  File.runContained_iff (Tmpfs.refines_created heap).toStored

/-- Two bytes are written, and all of them but the first are asked for. -/
def readBehind : List Call :=
  [.pwrite64 0 (fun _ => 1#8) 2#64 0#64, .pread64 0 (BitVec.allOnes 64) 1#64]

/-- One descriptor, on a new file. -/
def oneDescriptor : File :=
  .created Tmpfs.emptyHeap (fun _ => { flags := 0#64 }) fun fd => if fd = 0 then some 0 else none

/-- The sum is zero, and `2 ^ 64 - 1` bytes are copied out of a file of two. -/
theorem pread_escapes : ¬File.RunContained readBehind oneDescriptor := by
  intro h
  have hstored : Stored oneDescriptor.node := (Tmpfs.refines_created _).toStored
  rw [readBehind, File.runContained_iff hstored] at h
  have hread := (h.2 _ rfl).1 0 rfl
  revert hread
  decide

end Fishix.Fs.FileOffsets
