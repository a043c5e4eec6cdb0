import Fishix.Fs.Descriptors
import Fishix.Fs.Tmpfs

/-!
# Writing through a descriptor

Model of the calls that write through a descriptor (fs/vfs.cpp:482-540, 1307-1314) with `lseek`,
`F_SETFL` (fs/vfs.cpp:655-657) and `dup`, on a regular file of `tmpfs` or on a memory file. `mmap`
only changes the address space.

None of them asks `can_write` (fs/vfs.hpp:166), so the access mode is kept and never looked at.
The values of the `O_` flags are those of Linux.

* `Idle.write`, `IdleAll.writev`, `truncate_size`: what writes back what is there changes nothing.
* `readOnly_unchanged`: a file that is only reached through read-only descriptions.
* `readOnly_written`: `pwrite64` through one.
-/

namespace Fishix.Fs

open Fishix.Mem (Panic)
open Fishix.Userland (Byte)

/-! ## Model -/

/-- The node of a regular file. -/
inductive FileNode where
  | tmpfs (s : Tmpfs.State)
  | memFD (s : Userland.State)

inductive Whence
  | set | cur | end_ | data | hole | other
  deriving DecidableEq

/-- `struct iovec`. -/
structure Iovec where
  base : ℕ → Byte
  len : U64

namespace FileNode

def size : FileNode → U64
  | .tmpfs s => s.node.size
  | .memFD s => s.fd.size

/-- The byte at a position of the file. -/
def byte : FileNode → ℕ → Byte
  | .tmpfs s, i => s.heap.byte (s.addr i)
  | .memFD s, i => s.mem.byte (s.fd.address + BitVec.ofNat 64 i)

def contents (n : FileNode) : List Byte := (List.range n.size.toNat).map n.byte

/-- `VNode::write`. -/
def write (n : FileNode) (buf : ℕ → Byte) (count offset : U64) : Except Panic (U64 × FileNode) :=
  match n with
  | .tmpfs s => (s.write buf count offset).map fun r => (r.1, .tmpfs r.2)
  | .memFD s => (s.write buf count offset).map fun r => (r.1, .memFD r.2)

/-- `VNode::truncate`. -/
def truncate (n : FileNode) (length : U64) : Except Panic FileNode :=
  match n with
  | .tmpfs s => (s.truncate length).map .tmpfs
  | .memFD s => (s.truncate length).map .memFD

/-- `VNode::seek` (fs/tmpfs.cpp:123-143, userland/memfd.cpp:42-61); `none` for an errno. -/
def seek (n : FileNode) (position offset : U64) : Whence → Option U64
  | .set => some offset
  | .cur => some (position + offset)
  | .end_ => some (n.size + offset)
  | .data => if offset ≥ n.size then none else some offset
  | .hole => if offset ≥ n.size then none else some n.size
  | .other => none

/-- `VNode::writev` (fs/vfs.cpp:96-110): the return value and the node. An `isize` below zero has
    its highest bit set. -/
def writev (n : FileNode) : List Iovec → U64 → U64 → Except Panic (U64 × FileNode)
  | [], _, transferred => .ok (transferred, n)
  | iov :: iovs, offset, transferred =>
    if iov.len = 0#64 then n.writev iovs offset transferred
    else do
      let (ret, n) ← n.write iov.base iov.len offset
      if ret.msb then return (if transferred ≠ 0#64 then transferred else ret, n)
      else if ret.slt iov.len then return (transferred + ret, n)
      else n.writev iovs (offset + ret) (transferred + ret)

end FileNode

/-- What a `FileDescription` (fs/vfs.hpp:145-173) keeps for these calls. -/
structure OpenDescription where
  cursor : U64 := 0#64
  flags : U64
  deriving DecidableEq

def oAccMode : U64 := 3#64
def oRdOnly : U64 := 0#64
def oAppend : U64 := 0x400#64

/-- `O_APPEND | O_ASYNC | O_DIRECT | O_NOATIME | O_NONBLOCK` (fs/vfs.cpp:628). -/
def setflMask : U64 := 0x46c00#64

/-- A file, its descriptions, and the descriptor slots that refer to them. -/
structure OpenFile where
  node : FileNode
  description : DescriptionId → OpenDescription
  slot : ℕ → Option DescriptionId

inductive FdOp
  | write (fd : ℕ) (buf : ℕ → Byte) (count : U64)
  | writev (fd : ℕ) (iovs : List Iovec)
  | pwrite64 (fd : ℕ) (buf : ℕ → Byte) (count offset : U64)
  | pwritev (fd : ℕ) (iovs : List Iovec) (offsetLow offsetHigh : U64)
  | ftruncate (fd : ℕ) (length : U64)
  | lseek (fd : ℕ) (offset : U64) (whence : Whence)
  | setfl (fd : ℕ) (arg : U64)
  | dup (oldfd newfd : ℕ)
  | mmap (fd : ℕ)

namespace OpenFile

def update (f : OpenFile) (d : DescriptionId) (g : OpenDescription → OpenDescription) : OpenFile :=
  { f with description := Function.update f.description d (g (f.description d)) }

/-- `seek_to_end_if_append` (fs/vfs.cpp:329-335). -/
def seekToEndIfAppend (f : OpenFile) (d : DescriptionId) : OpenFile :=
  if (f.description d).flags &&& oAppend ≠ 0#64 then
    match f.node.seek (f.description d).cursor 0#64 .end_ with
    | some ret => if ret.msb then f else f.update d fun x => { x with cursor := ret }
    | none => f
  else f

/-- `description->cursor += ret` behind `if (ret < 0) return ret`. -/
def wrote (f : OpenFile) (d : DescriptionId) (r : U64 × FileNode) : Option U64 × OpenFile :=
  let f := { f with node := r.2 }
  (some r.1, if r.1.msb then f else f.update d fun x => { x with cursor := x.cursor + r.1 })

/-- `get_file_description`, and `EBADF` where there is none. -/
def withDescription (f : OpenFile) (fd : ℕ)
    (k : DescriptionId → Except Panic (Option U64 × OpenFile)) : Except Panic (Option U64 × OpenFile) :=
  match f.slot fd with
  | none => .ok (none, f)
  | some d => k d

/-- One call: what it returns, `none` for an errno, and the file behind it. -/
def call (f : OpenFile) : FdOp → Except Panic (Option U64 × OpenFile)
  | .write fd buf count => f.withDescription fd fun d =>
      let f := f.seekToEndIfAppend d
      (f.node.write buf count (f.description d).cursor).map (f.wrote d)
  | .writev fd iovs => f.withDescription fd fun d =>
      let f := f.seekToEndIfAppend d
      (f.node.writev iovs (f.description d).cursor 0#64).map (f.wrote d)
  | .pwrite64 fd buf count offset => f.withDescription fd fun _ =>
      (f.node.write buf count offset).map fun r => (some r.1, { f with node := r.2 })
  | .pwritev fd iovs offsetLow offsetHigh => f.withDescription fd fun _ =>
      (f.node.writev iovs (offsetHigh <<< 32 ||| offsetLow) 0#64).map fun r =>
        (some r.1, { f with node := r.2 })
  | .ftruncate fd length =>
      if length.msb then .ok (none, f)
      else f.withDescription fd fun _ =>
        (f.node.truncate length).map fun n => (some 0#64, { f with node := n })
  | .lseek fd offset whence => f.withDescription fd fun d =>
      match f.node.seek (f.description d).cursor offset whence with
      | none => .ok (none, f)
      | some ret =>
        .ok (some ret, if ret.msb then f else f.update d fun x => { x with cursor := ret })
  | .setfl fd arg => f.withDescription fd fun d =>
      .ok (some 0#64, f.update d fun x =>
        { x with flags := (x.flags &&& ~~~setflMask) ||| (arg &&& setflMask) })
  | .dup oldfd newfd => f.withDescription oldfd fun d =>
      .ok (some (BitVec.ofNat 64 newfd), { f with slot := Function.update f.slot newfd (some d) })
  | .mmap fd => f.withDescription fd fun _ => .ok (some 0#64, f)

def step (f : OpenFile) (op : FdOp) : Except Panic OpenFile := (f.call op).map (·.2)

/-- Every descriptor was opened `O_RDONLY`. -/
def ReadOnly (f : OpenFile) : Prop :=
  ∀ fd d, f.slot fd = some d → (f.description d).flags &&& oAccMode = oRdOnly

end OpenFile

/-! ## Calls that write nothing new -/

section Same

variable {buf : ℕ → Byte} {count offset ret : U64}

theorem not_grow {size : U64} (h : offset.toNat + count.toNat ≤ size.toNat) : ¬offset + count > size := by
  intro hgt
  have hlt := size.isLt
  have : size.toNat < (offset + count).toNat := hgt
  rw [BitVec.toNat_add] at this
  omega

theorem Tmpfs.write_same {s s' : Tmpfs.State}
    (h : count = 0#64 ∨ (offset.toNat + count.toNat ≤ s.node.size.toNat ∧
      ∀ i < count.toNat, buf i = s.heap.byte (s.addr (offset.toNat + i))))
    (hw : s.write buf count offset = .ok (ret, s')) : ret = count ∧ s' = s := by
  unfold Tmpfs.State.write at hw
  by_cases hzero : count = 0#64
  · rw [if_pos hzero] at hw
    cases hw
    exact ⟨hzero.symm, rfl⟩
  obtain ⟨hin, hsame⟩ := h.resolve_left hzero
  rw [if_neg hzero, if_neg (not_grow hin), ok_bind] at hw
  cases hw
  have hheap : s.heap.copyIn (s.addr offset.toNat) buf count.toNat = s.heap := by
    unfold Mem.Heap.copyIn
    congr 1
    funext j
    split_ifs with hj
    · rw [hsame _ (by omega)]
      congr 1
      unfold Tmpfs.State.addr at hj ⊢
      omega
    · rfl
  rw [hheap]
  exact ⟨rfl, rfl⟩

theorem memFD_write_same {s s' : Userland.State}
    (h : count = 0#64 ∨ (offset.toNat + count.toNat ≤ s.fd.size.toNat ∧
      ∀ i < count.toNat,
        buf i = s.mem.byte (s.fd.address + BitVec.ofNat 64 (offset.toNat + i))))
    (hw : s.write buf count offset = .ok (ret, s')) : ret = count ∧ s' = s := by
  unfold Userland.State.write at hw
  by_cases hzero : count = 0#64
  · rw [if_pos hzero] at hw
    cases hw
    exact ⟨hzero.symm, rfl⟩
  obtain ⟨hin, hsame⟩ := h.resolve_left hzero
  rw [if_neg hzero, if_neg (not_grow hin), ok_bind] at hw
  obtain ⟨mem, hmem, hw⟩ := bind_ok hw
  cases hw
  -- every store finds the byte it leaves
  have hkeep : mem = s.mem := by
    refine foldlM_ok_invariant (fun k => k = s.mem) rfl ?_ hmem
    intro i k k' hi hk hstore
    subst hk
    unfold Userland.KernelMemory.store at hstore
    split_ifs at hstore
    cases hstore
    rw [hsame i (List.mem_range.mp hi), Userland.KernelMemory.position_add,
      Function.update_eq_self]
  rw [hkeep]
  exact ⟨rfl, rfl⟩

theorem Tmpfs.truncate_same {s s' : Tmpfs.State} (h : s.truncate s.node.size = .ok s') : s' = s := by
  unfold Tmpfs.State.truncate at h
  rw [if_neg (fun hgt : s.node.size > s.node.size => Nat.lt_irrefl _ hgt), ok_bind] at h
  exact (Except.ok.inj h).symm

theorem memFD_truncate_same {s s' : Userland.State} (h : s.truncate s.fd.size = .ok s') : s' = s := by
  unfold Userland.State.truncate at h
  rw [if_neg (fun hgt : s.fd.size > s.fd.size => Nat.lt_irrefl _ hgt)] at h
  obtain ⟨s1, h1, h⟩ := bind_ok h
  obtain ⟨mem, hmem, h1⟩ := bind_ok h1
  unfold Userland.KernelMemory.clear Userland.KernelMemory.copyIn at hmem
  rw [BitVec.sub_self] at hmem
  cases hmem
  cases h1
  exact (Except.ok.inj h).symm

end Same

namespace FileNode

/-- Nothing is written, or what stands there already. -/
def Idle (n : FileNode) (buf : ℕ → Byte) (count offset : U64) : Prop :=
  count = 0#64 ∨ (offset.toNat + count.toNat ≤ n.size.toNat ∧
    ∀ i < count.toNat, buf i = n.byte (offset.toNat + i))

/-- The same for all parts of a vector. -/
def IdleAll (n : FileNode) : List Iovec → U64 → Prop
  | [], _ => True
  | iov :: iovs, offset => n.Idle iov.base iov.len offset ∧ n.IdleAll iovs (offset + iov.len)

variable {n n' : FileNode} {buf : ℕ → Byte} {count offset ret : U64}

theorem Idle.write (h : n.Idle buf count offset) (hw : n.write buf count offset = .ok (ret, n')) :
    ret = count ∧ n' = n := by
  cases n with
  | tmpfs s =>
    obtain ⟨⟨ret', s'⟩, hs, hr⟩ := exists_ok_of_map hw
    cases hr
    obtain ⟨hret, rfl⟩ := Tmpfs.write_same h hs
    exact ⟨hret, rfl⟩
  | memFD s =>
    obtain ⟨⟨ret', s'⟩, hs, hr⟩ := exists_ok_of_map hw
    cases hr
    obtain ⟨hret, rfl⟩ := memFD_write_same h hs
    exact ⟨hret, rfl⟩

theorem truncate_size (h : n.truncate n.size = .ok n') : n' = n := by
  cases n with
  | tmpfs s =>
    obtain ⟨s', hs, rfl⟩ := exists_ok_of_map h
    rw [Tmpfs.truncate_same hs]
  | memFD s =>
    obtain ⟨s', hs, rfl⟩ := exists_ok_of_map h
    rw [memFD_truncate_same hs]

theorem IdleAll.writev : ∀ {iovs : List Iovec} {offset transferred : U64}, n.IdleAll iovs offset →
    n.writev iovs offset transferred = .ok (ret, n') → n' = n
  | [], offset, transferred, _, hw => (pure_pair hw).2.symm
  | iov :: iovs, offset, transferred, ⟨hidle, hrest⟩, hw => by
    unfold FileNode.writev at hw
    by_cases hzero : iov.len = 0#64
    · rw [if_pos hzero] at hw
      rw [hzero, BitVec.add_zero] at hrest
      exact hrest.writev hw
    · rw [if_neg hzero] at hw
      obtain ⟨⟨r, n1⟩, h1, h2⟩ := bind_ok hw
      obtain ⟨rfl, hn⟩ := hidle.write h1
      simp only [hn] at h2
      by_cases hneg : iov.len.msb
      · rw [if_pos hneg] at h2
        exact (pure_pair h2).2.symm
      · rw [if_neg hneg] at h2
        by_cases hshort : iov.len.slt iov.len
        · rw [if_pos hshort] at h2
          exact (pure_pair h2).2.symm
        · rw [if_neg hshort] at h2
          exact hrest.writev h2

end FileNode

namespace OpenFile

variable {f f' : OpenFile} {d : DescriptionId}

/-- No call writes anything new: every write is idle at the offset it goes to, and `ftruncate`
    keeps the size. -/
def Quiet (f : OpenFile) : FdOp → Prop
  | .write fd buf count => ∀ d, f.slot fd = some d →
      f.node.Idle buf count ((f.seekToEndIfAppend d).description d).cursor
  | .writev fd iovs => ∀ d, f.slot fd = some d →
      f.node.IdleAll iovs ((f.seekToEndIfAppend d).description d).cursor
  | .pwrite64 fd buf count offset => ∀ d, f.slot fd = some d → f.node.Idle buf count offset
  | .pwritev fd iovs offsetLow offsetHigh => ∀ d, f.slot fd = some d →
      f.node.IdleAll iovs (offsetHigh <<< 32 ||| offsetLow)
  | .ftruncate fd length => ∀ d, f.slot fd = some d → length.msb ∨ length = f.node.size
  | _ => True

/-- The node is the same, and every descriptor is read-only still. -/
structure Untouched (f f' : OpenFile) : Prop where
  node : f'.node = f.node
  readOnly : f.ReadOnly → f'.ReadOnly

theorem Untouched.refl (f : OpenFile) : Untouched f f := ⟨rfl, id⟩

theorem Untouched.trans {f'' : OpenFile} (h : Untouched f f') (h' : Untouched f' f'') :
    Untouched f f'' := ⟨h'.node.trans h.node, fun hr => h'.readOnly (h.readOnly hr)⟩

/-- The access mode of a description stays. -/
theorem untouched_update {g : OpenDescription → OpenDescription}
    (hg : (g (f.description d)).flags &&& oAccMode = (f.description d).flags &&& oAccMode) :
    Untouched f (f.update d g) := by
  refine ⟨rfl, ?_⟩
  intro hr fd d' hd'
  show (Function.update f.description d (g (f.description d)) d').flags &&& oAccMode = oRdOnly
  by_cases hd : d' = d
  · rw [hd, Function.update_self, hg]
    exact hr fd d (hd ▸ hd')
  · rw [Function.update_of_ne hd]
    exact hr fd d' hd'

theorem untouched_seek (d : DescriptionId) : Untouched f (f.seekToEndIfAppend d) := by
  unfold seekToEndIfAppend
  split_ifs
  · split
    · split_ifs
      · exact .refl f
      · exact untouched_update rfl
    · exact .refl f
  · exact .refl f

theorem untouched_wrote {r : U64 × FileNode} (hnode : r.2 = f.node) :
    Untouched f (f.wrote d r).2 := by
  unfold wrote
  rw [hnode]
  show Untouched f (if _ then f else _)
  split_ifs
  · exact .refl f
  · exact untouched_update rfl

theorem setfl_accMode (flags arg : U64) :
    ((flags &&& ~~~setflMask) ||| (arg &&& setflMask)) &&& oAccMode = flags &&& oAccMode := by
  have hmask : setflMask &&& oAccMode = 0#64 := by decide
  have hnot : ~~~setflMask &&& oAccMode = oAccMode := by decide
  rw [BitVec.and_or_distrib_right, BitVec.and_assoc, BitVec.and_assoc, hmask, hnot, BitVec.and_zero,
    BitVec.or_zero]

theorem untouched_withDescription {fd : ℕ} {reply : Option U64}
    {k : DescriptionId → Except Panic (Option U64 × OpenFile)}
    (h : f.withDescription fd k = .ok (reply, f'))
    (hk : ∀ d, f.slot fd = some d → k d = .ok (reply, f') → Untouched f f') : Untouched f f' := by
  unfold withDescription at h
  cases hs : f.slot fd with
  | none =>
    simp only [hs, Except.ok.injEq, Prod.mk.injEq] at h
    rw [← h.2]
    exact .refl f
  | some d =>
    simp only [hs] at h
    exact hk d hs h

theorem untouched_step {op : FdOp} (hok : f.Quiet op) (h : f.step op = .ok f') : Untouched f f' := by
  obtain ⟨⟨reply, f''⟩, hcall, rfl⟩ := exists_ok_of_map h
  cases op with
  | write fd buf count =>
    refine untouched_withDescription hcall fun d hd hk => ?_
    obtain ⟨⟨ret, n⟩, hw, hr⟩ := exists_ok_of_map hk
    have hseek := untouched_seek (f := f) d
    have hidle := hok d hd
    rw [← hseek.node] at hidle
    have hwrote := untouched_wrote (d := d) (r := (ret, n)) (hidle.write hw).2
    rw [hr] at hwrote
    exact hseek.trans hwrote
  | writev fd iovs =>
    refine untouched_withDescription hcall fun d hd hk => ?_
    obtain ⟨⟨ret, n⟩, hw, hr⟩ := exists_ok_of_map hk
    have hseek := untouched_seek (f := f) d
    have hidle := hok d hd
    rw [← hseek.node] at hidle
    have hwrote := untouched_wrote (d := d) (r := (ret, n)) (hidle.writev hw)
    rw [hr] at hwrote
    exact hseek.trans hwrote
  | pwrite64 fd buf count offset =>
    refine untouched_withDescription hcall fun d hd hk => ?_
    obtain ⟨⟨ret, n⟩, hw, hr⟩ := exists_ok_of_map hk
    obtain ⟨-, rfl⟩ := Prod.mk.inj hr
    exact ⟨((hok d hd).write hw).2, id⟩
  | pwritev fd iovs offsetLow offsetHigh =>
    refine untouched_withDescription hcall fun d hd hk => ?_
    obtain ⟨⟨ret, n⟩, hw, hr⟩ := exists_ok_of_map hk
    obtain ⟨-, rfl⟩ := Prod.mk.inj hr
    exact ⟨(hok d hd).writev hw, id⟩
  | ftruncate fd length =>
    unfold call at hcall
    simp only at hcall
    split_ifs at hcall with hneg
    · obtain ⟨-, rfl⟩ := pure_pair hcall
      exact .refl f
    · refine untouched_withDescription hcall fun d hd hk => ?_
      obtain ⟨n, hn, hr⟩ := exists_ok_of_map hk
      obtain ⟨-, rfl⟩ := Prod.mk.inj hr
      obtain rfl := (hok d hd).resolve_left hneg
      exact ⟨FileNode.truncate_size hn, id⟩
  | lseek fd offset whence =>
    refine untouched_withDescription hcall fun d hd hk => ?_
    cases hseek : f.node.seek (f.description d).cursor offset whence with
    | none =>
      simp only [hseek, Except.ok.injEq, Prod.mk.injEq] at hk
      rw [← hk.2]
      exact .refl f
    | some ret =>
      simp only [hseek, Except.ok.injEq, Prod.mk.injEq] at hk
      rw [← hk.2]
      show Untouched f (if ret.msb then f else f.update d fun x => { x with cursor := ret })
      split_ifs
      · exact .refl f
      · exact untouched_update rfl
  | setfl fd arg =>
    refine untouched_withDescription hcall fun d hd hk => ?_
    obtain ⟨-, rfl⟩ := pure_pair hk
    show Untouched f (f.update d fun x =>
      { x with flags := (x.flags &&& ~~~setflMask) ||| (arg &&& setflMask) })
    exact untouched_update (setfl_accMode _ arg)
  | dup oldfd newfd =>
    refine untouched_withDescription hcall fun d hd hk => ?_
    obtain ⟨-, rfl⟩ := pure_pair hk
    refine ⟨rfl, ?_⟩
    intro hr fd d' hd'
    change Function.update f.slot newfd (some d) fd = some d' at hd'
    by_cases hfd : fd = newfd
    · rw [hfd, Function.update_self] at hd'
      obtain rfl := Option.some.inj hd'
      exact hr oldfd d hd
    · rw [Function.update_of_ne hfd] at hd'
      exact hr fd d' hd'
  | mmap fd =>
    refine untouched_withDescription hcall fun d hd hk => ?_
    obtain ⟨-, rfl⟩ := pure_pair hk
    exact .refl f

end OpenFile

/-- **Main theorem.** Calls through read-only descriptors leave the size and the contents of the
    file, if none of them writes anything new, and the descriptors stay read-only. -/
theorem readOnly_unchanged {f f' : OpenFile} (hf : f.ReadOnly)
    (h : Run OpenFile.step OpenFile.Quiet f f') :
    f'.node.size = f.node.size ∧ f'.node.contents = f.node.contents ∧ f'.ReadOnly := by
  have hsame : f.Untouched f' := h.invariant (P := fun f' => f.Untouched f')
    (fun _ _ _ hs ok next => hs.trans (OpenFile.untouched_step ok next)) (.refl f)
  rw [hsame.node]
  exact ⟨rfl, rfl, hsame.readOnly hf⟩

/-- A file of `tmpfs` with one byte, in a heap with room. -/
def oneByte : FileNode := .tmpfs
  { node := ⟨some 0, 1#64, 1#64⟩, heap := ⟨fun _ => 0x41#8, 0, 64, 1⟩ }

/-- The descriptors 0 and 1 of it, `O_RDONLY`. -/
def openedReadOnly : OpenFile where
  node := oneByte
  description := fun _ => { flags := oRdOnly }
  slot := fun fd => if fd < 2 then some 0 else none

theorem openedReadOnly_readOnly : openedReadOnly.ReadOnly := by
  intro fd d _
  show oRdOnly &&& oAccMode = oRdOnly
  decide

/-- The byte that is there is written, and the file cut to the size that it has. -/
theorem readOnly_unchanged_quiet : ∃ f', Run OpenFile.step OpenFile.Quiet openedReadOnly f' ∧
    (f'.description 0).cursor = 1#64 ∧ f'.node.size = openedReadOnly.node.size ∧
    f'.node.contents = openedReadOnly.node.contents ∧ f'.ReadOnly := by
  obtain ⟨f1, h1, hsize⟩ := exists_ok_of_map (show (openedReadOnly.step
    (.write 0 (fun _ => 0x41#8) 1#64)).map (fun f => (f.node.size, f.step (.ftruncate 1 1#64) |>.map
      fun f => (f.description 0).cursor)) = .ok (1#64, .ok 1#64) by rfl)
  obtain ⟨hsize, h2⟩ := Prod.mk.inj hsize
  obtain ⟨f2, h2, hcursor⟩ := exists_ok_of_map h2
  have hquiet1 : openedReadOnly.Quiet (.write 0 (fun _ => 0x41#8) 1#64) := by
    intro d hd
    obtain rfl : 0 = d := Option.some.inj hd
    exact .inr ⟨by decide, fun i _ => rfl⟩
  have hquiet2 : f1.Quiet (.ftruncate 1 1#64) := fun d _ => .inr hsize.symm
  have hrun := (Run.start.step hquiet1 h1).step hquiet2 h2
  exact ⟨f2, hrun, hcursor, readOnly_unchanged openedReadOnly_readOnly hrun⟩

/-- `pwrite64(fd, "B", 1, 0)` through a read-only descriptor writes. -/
theorem readOnly_written : ∃ f', Run OpenFile.step (fun _ _ => True) openedReadOnly f' ∧
    openedReadOnly.ReadOnly ∧ f'.node.contents ≠ openedReadOnly.node.contents := by
  obtain ⟨f', hf', hbytes⟩ := exists_ok_of_map (show (openedReadOnly.step
    (.pwrite64 0 (fun _ => 0x42#8) 1#64 0#64)).map (fun f => f.node.contents) = .ok [0x42#8] by
      decide +kernel)
  refine ⟨f', Run.start.step trivial hf', openedReadOnly_readOnly, ?_⟩
  rw [hbytes]
  decide

end Fishix.Fs
