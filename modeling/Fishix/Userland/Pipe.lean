import Fishix.Common.Outcome
import Fishix.Common.RingBuffer
import Fishix.Fs.ReadOnly

/-!
# Pipes

Model of `Pipe` (userland/pipe.cpp:13-74), with the descriptions of a pipe (fs/vfs.hpp:145-173)
that `pipe_impl` (userland/pipe.cpp:86-107) and `openat_impl` (fs/vfs.cpp:381-385) make, `dup` and
`fork` share, and `FileDescriptor::close` (fs/vfs.cpp:247-253) drops.

`pipe_event` decides only when a call that waits goes on. Here it may go on at any moment, and it
may be interrupted at any moment.

* `Pipe.poll_read`, `Pipe.poll_write`: what `poll` says of the calls.
* `pipe_contract`: order, loss, the counts of the ends, end of file and broken pipe.
-/

namespace Fishix.Userland

open Fishix.Fs (oAccMode oRdOnly setflMask)
open Function (update update_self update_of_ne)

def O_WRONLY : U64 := 1#64
def O_RDWR : U64 := 2#64
def O_NONBLOCK : U64 := 0x800#64

/-- `FileDescription::can_read` (fs/vfs.hpp:165). -/
def canRead (flags : U64) : Bool := flags &&& oAccMode = oRdOnly ∨ flags &&& oAccMode = O_RDWR

/-- `FileDescription::can_write` (fs/vfs.hpp:166). -/
def canWrite (flags : U64) : Bool := flags &&& oAccMode = O_WRONLY ∨ flags &&& oAccMode = O_RDWR

inductive PipeErrno
  /-- `-EWOULDBLOCK`. -/
  | wouldBlock
  /-- `-EINTR`. -/
  | interrupted
  /-- `-EPIPE`. -/
  | brokenPipe
  deriving DecidableEq

def POLLIN : U64 := 1#64
def POLLOUT : U64 := 4#64
def POLLERR : U64 := 8#64
def POLLHUP : U64 := 0x10#64

/-- `Pipe::capacity`. -/
abbrev pipeCapacity : ℕ := 0x1000

/-- `Pipe` (userland/pipe.hpp:7-12). -/
structure Pipe where
  readers : U64 := 0#64
  writers : U64 := 0#64
  ringBuffer : RingBuffer Byte pipeCapacity := { data := fun _ => 0#8 }

namespace Pipe

/-- `Pipe::open` (userland/pipe.cpp:13-19). -/
def open_ (p : Pipe) (flags : U64) : Pipe :=
  { p with
    readers := if canRead flags then p.readers + 1#64 else p.readers
    writers := if canWrite flags then p.writers + 1#64 else p.writers }

/-- `Pipe::close` (userland/pipe.cpp:21-27). -/
def close (p : Pipe) (flags : U64) : Pipe :=
  { p with
    readers := if canRead flags then p.readers - 1#64 else p.readers
    writers := if canWrite flags then p.writers - 1#64 else p.writers }

/-- `Pipe::read` (userland/pipe.cpp:29-40) up to where it returns, or `none` where it waits. -/
def read (p : Pipe) (flags : U64) (count : ℕ) : Option (Except PipeErrno (List Byte) × Pipe) :=
  if p.ringBuffer.isEmpty then
    if p.writers = 0#64 then some (.ok [], p)
    else if flags &&& O_NONBLOCK ≠ 0#64 then some (.error .wouldBlock, p)
    else none
  else
    let (buf, ringBuffer) := p.ringBuffer.read count
    some (.ok buf, { p with ringBuffer })

/-- `Pipe::write` (userland/pipe.cpp:42-55) up to where it returns, or `none` where it waits. -/
def write (p : Pipe) (flags : U64) (buf : List Byte) : Option (Except PipeErrno ℕ × Pipe) :=
  if p.readers = 0#64 then some (.error .brokenPipe, p)
  else if p.ringBuffer.isFull then
    if flags &&& O_NONBLOCK ≠ 0#64 then some (.error .wouldBlock, p)
    else none
  else
    let (count, ringBuffer) := p.ringBuffer.write buf
    some (.ok count, { p with ringBuffer })

/-- `Pipe::poll` (userland/pipe.cpp:57-72). -/
def poll (p : Pipe) (events : U64) : U64 :=
  (if events &&& POLLIN ≠ 0#64 then
    if p.writers = 0#64 then POLLHUP
    else if ¬p.ringBuffer.isEmpty then POLLIN else 0#64
  else 0#64) |||
  (if events &&& POLLOUT ≠ 0#64 then
    if p.readers = 0#64 then POLLERR
    else if ¬p.ringBuffer.isFull then POLLOUT else 0#64
  else 0#64)

variable {p : Pipe} {flags : U64}

/-- `poll` reports something for `POLLIN` exactly if a read that may not wait has an answer. -/
theorem poll_read (hflags : flags &&& O_NONBLOCK ≠ 0#64) (count : ℕ) :
    p.poll POLLIN ≠ 0#64 ↔ (p.read flags count).map Prod.fst ≠ some (.error .wouldBlock) := by
  unfold poll read
  by_cases hempty : p.ringBuffer.isEmpty = true
  · by_cases hwriters : p.writers = 0#64
    · simp [hempty, hwriters, POLLIN, POLLOUT, POLLHUP]
    · simp [hempty, hwriters, hflags, POLLIN, POLLOUT]
  · by_cases hwriters : p.writers = 0#64
    · simp [hempty, hwriters, POLLIN, POLLOUT, POLLHUP]
    · simp [hempty, hwriters, POLLIN, POLLOUT]

/-- `poll` reports something for `POLLOUT` exactly if a write that may not wait has an answer. -/
theorem poll_write (hflags : flags &&& O_NONBLOCK ≠ 0#64) (buf : List Byte) :
    p.poll POLLOUT ≠ 0#64 ↔ (p.write flags buf).map Prod.fst ≠ some (.error .wouldBlock) := by
  unfold poll write
  by_cases hreaders : p.readers = 0#64
  · simp [hreaders, POLLIN, POLLOUT, POLLERR]
  · by_cases hfull : p.ringBuffer.isFull = true
    · simp [hreaders, hfull, hflags, POLLIN, POLLOUT]
    · simp [hreaders, hfull, POLLIN, POLLOUT]

variable {written taken : List Byte} {p' : Pipe}

theorem capacity_lt : pipeCapacity < 2 ^ 64 := by decide

theorem capacity_dvd : pipeCapacity ∣ 2 ^ 64 := by decide

theorem read_some {count : ℕ} {ret : Except PipeErrno (List Byte)}
    (h : p.ringBuffer.Carries written taken) (hread : p.read flags count = some (ret, p')) :
    p'.ringBuffer.Carries written (taken ++ ret.toOption.getD []) ∧ p'.readers = p.readers ∧
      p'.writers = p.writers ∧
      (0 < count → (ret = .ok [] ↔ taken = written ∧ p.writers = 0#64)) := by
  have hempty := h.isEmpty_iff capacity_lt
  unfold Pipe.read at hread
  split_ifs at hread with hnone hwriters hblock
  · cases hread
    refine ⟨?_, rfl, rfl, fun _ => ⟨fun _ => ⟨hempty.mp hnone, hwriters⟩, fun _ => rfl⟩⟩
    show p.ringBuffer.Carries written (taken ++ [])
    rw [List.append_nil]
    exact h
  · cases hread
    refine ⟨?_, rfl, rfl, fun _ => ⟨fun hret => ?_, fun hend => absurd hend.2 hwriters⟩⟩
    · show p.ringBuffer.Carries written (taken ++ [])
      rw [List.append_nil]
      exact h
    · cases hret
  · cases hread
    obtain ⟨hbytes, hcarries⟩ := h.read capacity_lt count
    refine ⟨hcarries, rfl, rfl, fun hpos => ⟨fun hret => ?_, fun hend => ?_⟩⟩
    · -- something was there and something has been read
      have hnil : (p.ringBuffer.read count).1 = [] := Except.ok.inj hret
      rw [hbytes, List.take_eq_nil_iff, List.drop_eq_nil_iff] at hnil
      have hle : written.length ≤ taken.length := by
        rcases hnil with hzero | hle
        · omega
        · exact hle
      exact absurd (hempty.mpr (h.taken.eq_of_length_le hle)) hnone
    · exact absurd (hempty.mpr hend.1) hnone

theorem read_none {count : ℕ} (h : p.ringBuffer.Carries written taken)
    (hread : p.read flags count = none) : taken = written ∧ p.writers ≠ 0#64 := by
  unfold Pipe.read at hread
  split_ifs at hread with hempty hwriters hblock
  exact ⟨(h.isEmpty_iff capacity_lt).mp hempty, hwriters⟩

theorem write_none {buf : List Byte} (h : p.ringBuffer.Carries written taken)
    (hwrite : p.write flags buf = none) :
    written.length = taken.length + pipeCapacity ∧ p.readers ≠ 0#64 := by
  unfold Pipe.write at hwrite
  split_ifs at hwrite with hreaders hfull hblock
  exact ⟨(h.isFull_iff capacity_lt).mp hfull, hreaders⟩

theorem write_some {buf : List Byte} {ret : Except PipeErrno ℕ}
    (h : p.ringBuffer.Carries written taken) (hwrite : p.write flags buf = some (ret, p')) :
    p'.ringBuffer.Carries (written ++ buf.take (ret.toOption.getD 0)) taken ∧
      p'.readers = p.readers ∧ p'.writers = p.writers ∧
      (ret = .error .brokenPipe ↔ p.readers = 0#64) := by
  have hzero : p.ringBuffer.Carries (written ++ buf.take 0) taken := by
    rw [List.take_zero, List.append_nil]
    exact h
  unfold Pipe.write at hwrite
  split_ifs at hwrite with hreaders hfull hblock
  · cases hwrite
    exact ⟨hzero, rfl, rfl, fun _ => hreaders, fun _ => rfl⟩
  · cases hwrite
    refine ⟨hzero, rfl, rfl, fun hret => ?_, fun hnone => absurd hnone hreaders⟩
    cases hret
  · cases hwrite
    obtain ⟨-, hcarries⟩ := h.write capacity_lt buf (.inl capacity_dvd)
    refine ⟨hcarries, rfl, rfl, fun hret => ?_, fun hnone => absurd hnone hreaders⟩
    cases hret

end Pipe

/-! ## A pipe and its descriptions -/

/-- What a `FileDescription` of a pipe keeps. -/
structure PipeDescription where
  flags : U64
  refCount : ℕ
  deriving DecidableEq

inductive PipeCall
  | read (count : ℕ)
  | write (buf : List Byte)

/-- A pipe, the descriptions at their addresses, and the calls that wait. `written` and `taken` are
    all bytes that writes and reads have reported; no call looks at them. -/
structure PipeWorld where
  pipe : Pipe := {}
  description : U64 → Option PipeDescription := fun _ => none
  sleeping : ℕ → Option (U64 × PipeCall) := fun _ => none
  written : List Byte := []
  taken : List Byte := []

inductive PipeOp
  /-- `new FileDescription` and `open`. -/
  | open_ (d flags : U64)
  /-- `dup`, `fork`. -/
  | share (d : U64)
  | close (d : U64)
  | setfl (d arg : U64)
  | call (thread : ℕ) (d : U64) (c : PipeCall)
  | poll (d events : U64)
  /-- `wait` returns. Where the description is gone, `flags` is what is read in its place. -/
  | wake (thread : ℕ) (flags : U64)
  /-- `wait` returns `-EINTR`. -/
  | interrupt (thread : ℕ)

inductive PipeReply
  | done
  | asleep (c : PipeCall)
  | read (count : ℕ) (ret : Except PipeErrno (List Byte))
  | write (buf : List Byte) (ret : Except PipeErrno ℕ)
  | poll (revents : U64)

namespace PipeWorld

/-- A call, from its start or from behind `wait`. -/
def turn (s : PipeWorld) (thread : ℕ) (d flags : U64) : PipeCall → PipeReply × PipeWorld
  | .read count =>
    match s.pipe.read flags count with
    | none =>
      (.asleep (.read count), { s with
        sleeping := update s.sleeping thread (some (d, .read count)) })
    | some (ret, pipe) =>
      (.read count ret, { s with
        pipe, taken := s.taken ++ ret.toOption.getD []
        sleeping := update s.sleeping thread none })
  | .write buf =>
    match s.pipe.write flags buf with
    | none =>
      (.asleep (.write buf), { s with
        sleeping := update s.sleeping thread (some (d, .write buf)) })
    | some (ret, pipe) =>
      (.write buf ret, { s with
        pipe, written := s.written ++ buf.take (ret.toOption.getD 0)
        sleeping := update s.sleeping thread none })

/-- One step: what it returns, and the state behind it. -/
def perform (s : PipeWorld) : PipeOp → Except Unit (PipeReply × PipeWorld)
  | .open_ d flags =>
    if d = 0#64 ∨ (s.description d).isSome then .error ()
    else .ok (.done, { s with
      pipe := s.pipe.open_ flags
      description := update s.description d (some ⟨flags, 1⟩) })
  | .share d =>
    match s.description d with
    | none => .error ()
    | some x => .ok (.done, { s with
        description := update s.description d (some { x with refCount := x.refCount + 1 }) })
  | .close d =>
    match s.description d with
    | none => .error ()
    | some x =>
      -- `decrement_ref_count`
      if x.refCount - 1 = 0 then .ok (.done, { s with
        pipe := s.pipe.close x.flags
        description := update s.description d none })
      else .ok (.done, { s with
        description := update s.description d (some { x with refCount := x.refCount - 1 }) })
  | .setfl d arg =>
    match s.description d with
    | none => .error ()
    | some x => .ok (.done, { s with
        description := update s.description d
          (some { x with flags := (x.flags &&& ~~~setflMask) ||| (arg &&& setflMask) }) })
  | .call thread d c =>
    match s.description d, s.sleeping thread with
    | some x, none => .ok (s.turn thread d x.flags c)
    | _, _ => .error ()
  | .poll d events =>
    if (s.description d).isSome then .ok (.poll (s.pipe.poll events), s) else .error ()
  | .wake thread flags =>
    match s.sleeping thread with
    | some (d, c) => .ok (s.turn thread d (((s.description d).map (·.flags)).getD flags) c)
    | none => .error ()
  | .interrupt thread =>
    match s.sleeping thread with
    | some (_, .read count) => .ok (.read count (.error .interrupted),
        { s with sleeping := update s.sleeping thread none })
    | some (_, .write buf) => .ok (.write buf (.error .interrupted),
        { s with sleeping := update s.sleeping thread none })
    | none => .error ()

def step (s : PipeWorld) (o : PipeOp) : Except Unit PipeWorld := (s.perform o).map Prod.snd

/-- The live descriptions opened for an access. -/
def opened (s : PipeWorld) (access : U64 → Bool) : Set U64 :=
  {d | ∃ x ∈ s.description d, access x.flags = true}

/-- What is read is the beginning of what is written, the rest is in the buffer, and the ends are
    counted. -/
structure Faithful (s : PipeWorld) : Prop where
  order : s.taken <+: s.written
  pending : s.written.length = s.taken.length + s.pipe.ringBuffer.dataCount.toNat
  readers : s.pipe.readers.toNat = (s.opened canRead).ncard
  writers : s.pipe.writers.toNat = (s.opened canWrite).ncard

/-- What a call that is not interrupted returns in `s`, or why it sleeps, and what becomes of the
    bytes. -/
def Answers (s s' : PipeWorld) : PipeReply → Prop
  | .asleep (.read _) => (s.taken = s.written ∧ s.opened canWrite ≠ ∅) ∧
      s'.taken = s.taken ∧ s'.written = s.written
  | .asleep (.write _) =>
      (s.written.length = s.taken.length + pipeCapacity ∧ s.opened canRead ≠ ∅) ∧
      s'.taken = s.taken ∧ s'.written = s.written
  | .read count ret => ret ≠ .error .interrupted →
      (0 < count → (ret = .ok [] ↔ s.taken = s.written ∧ s.opened canWrite = ∅)) ∧
      s'.taken = s.taken ++ ret.toOption.getD [] ∧ s'.written = s.written
  | .write buf ret => ret ≠ .error .interrupted →
      (ret = .error .brokenPipe ↔ s.opened canRead = ∅) ∧
      s'.written = s.written ++ buf.take (ret.toOption.getD 0) ∧ s'.taken = s.taken
  | _ => s'.taken = s.taken ∧ s'.written = s.written

/-- `poll` says whether a read or a write that may not wait has an answer. -/
def Polls (s : PipeWorld) : Prop :=
  ∀ flags : U64, flags &&& O_NONBLOCK ≠ 0#64 →
    (∀ count, s.pipe.poll POLLIN ≠ 0#64 ↔
      (s.pipe.read flags count).map Prod.fst ≠ some (.error .wouldBlock)) ∧
    ∀ buf, s.pipe.poll POLLOUT ≠ 0#64 ↔
      (s.pipe.write flags buf).map Prod.fst ≠ some (.error .wouldBlock)

/-! ## The counts of the ends -/

variable {s s' : PipeWorld}

theorem opened_congr {access : U64 → Bool} (h : ∀ d, (s'.description d).map (access ∘ (·.flags)) =
    (s.description d).map (access ∘ (·.flags))) : s'.opened access = s.opened access := by
  have hmem : ∀ (s : PipeWorld) d, d ∈ s.opened access ↔
      (s.description d).map (access ∘ (·.flags)) = some true := by
    intro s d
    unfold opened
    simp
  ext d
  rw [hmem, hmem, h]

/-- A description is added. -/
theorem opened_insert {access : U64 → Bool} {d flags : U64} {n : ℕ} (hfree : s.description d = none)
    (hdescription : s'.description = update s.description d (some ⟨flags, n⟩)) :
    s'.opened access = if access flags then insert d (s.opened access) else s.opened access := by
  ext e
  unfold opened
  rw [hdescription]
  by_cases he : e = d
  · subst he
    split_ifs with haccess <;> simp [haccess, hfree]
  · split_ifs <;> simp [he]

/-- A description is taken out. -/
theorem opened_erase {access : U64 → Bool} {d : U64}
    (hdescription : s'.description = update s.description d none) :
    s'.opened access = s.opened access \ {d} := by
  ext e
  unfold opened
  rw [hdescription]
  by_cases he : e = d
  · subst he
    simp
  · simp [he]

/-- There are fewer descriptions than addresses, so that the counts do not wrap. -/
theorem opened_ncard_lt (hnull : s.description 0#64 = none) (access : U64 → Bool) :
    (s.opened access).ncard < 2 ^ 64 := by
  have hcard : Nat.card U64 = 2 ^ 64 := by
    rw [Nat.card_congr BitVec.equivFin.toEquiv, Nat.card_fin]
  rw [← hcard]
  apply Set.ncard_lt_card
  intro huniv
  have hmem : (0#64 : U64) ∈ s.opened access := huniv ▸ Set.mem_univ _
  unfold opened at hmem
  simp [hnull] at hmem

theorem count_insert {access : U64 → Bool} {d flags count : U64} {n : ℕ}
    (hcount : count.toNat = (s.opened access).ncard) (hfree : s.description d = none)
    (hdescription : s'.description = update s.description d (some ⟨flags, n⟩))
    (hnull : s'.description 0#64 = none) :
    (if access flags then count + 1#64 else count).toNat = (s'.opened access).ncard := by
  have hlt := opened_ncard_lt hnull access
  rw [opened_insert hfree hdescription] at hlt ⊢
  split_ifs with haccess
  · have hnew : d ∉ s.opened access := by
      unfold opened
      simp [hfree]
    rw [if_pos haccess, Set.ncard_insert_of_notMem hnew] at hlt
    rw [Set.ncard_insert_of_notMem hnew, BitVec.toNat_add, hcount]
    exact Nat.mod_eq_of_lt hlt
  · exact hcount

theorem count_erase {access : U64 → Bool} {d count : U64} {x : PipeDescription}
    (hcount : count.toNat = (s.opened access).ncard) (hd : s.description d = some x)
    (hdescription : s'.description = update s.description d none) :
    (if access x.flags then count - 1#64 else count).toNat = (s'.opened access).ncard := by
  rw [opened_erase hdescription]
  split_ifs with haccess
  · have hmem : d ∈ s.opened access := ⟨x, hd, haccess⟩
    have hpos : 0 < (s.opened access).ncard := (Set.ncard_pos (Set.toFinite _)).mpr ⟨d, hmem⟩
    rw [Set.ncard_sdiff_singleton_of_mem hmem, BitVec.toNat_sub, hcount]
    have hlt := count.isLt
    show (2 ^ 64 - 1 + _) % 2 ^ 64 = _
    omega
  · have hnot : d ∉ s.opened access := by
      rintro ⟨y, hy, hflags⟩
      rw [hd] at hy
      cases hy
      exact haccess hflags
    rw [Set.sdiff_singleton_eq_self hnot]
    exact hcount

theorem canRead_setfl (flags arg : U64) :
    canRead ((flags &&& ~~~setflMask) ||| (arg &&& setflMask)) = canRead flags := by
  unfold canRead
  rw [Fs.OpenFile.setfl_accMode]

theorem canWrite_setfl (flags arg : U64) :
    canWrite ((flags &&& ~~~setflMask) ||| (arg &&& setflMask)) = canWrite flags := by
  unfold canWrite
  rw [Fs.OpenFile.setfl_accMode]

/-! ## Every step -/

/-- The buffer carries the bytes, and the ends are counted. -/
structure Sound (s : PipeWorld) : Prop where
  carries : s.pipe.ringBuffer.Carries s.written s.taken
  readers : s.pipe.readers.toNat = (s.opened canRead).ncard
  writers : s.pipe.writers.toNat = (s.opened canWrite).ncard
  null : s.description 0#64 = none

theorem sound_empty : ({} : PipeWorld).Sound := by
  refine ⟨RingBuffer.carries_empty _, ?_, ?_, rfl⟩
  · have hnone : ({} : PipeWorld).opened canRead = ∅ := by simp [opened]
    rw [hnone, Set.ncard_empty]
    rfl
  · have hnone : ({} : PipeWorld).opened canWrite = ∅ := by simp [opened]
    rw [hnone, Set.ncard_empty]
    rfl

section

variable (h : s.Sound)

include h

theorem Sound.faithful : s.Faithful := by
  refine ⟨h.carries.taken, ?_, h.readers, h.writers⟩
  have hcount := h.carries.dataCount Pipe.capacity_lt
  have hle := h.carries.length_le
  omega

theorem Sound.readers_eq_zero : s.pipe.readers = 0#64 ↔ s.opened canRead = ∅ := by
  rw [← BitVec.toNat_inj, h.readers]
  exact Set.ncard_eq_zero (Set.toFinite _)

theorem Sound.writers_eq_zero : s.pipe.writers = 0#64 ↔ s.opened canWrite = ∅ := by
  rw [← BitVec.toNat_inj, h.writers]
  exact Set.ncard_eq_zero (Set.toFinite _)

/-- Only descriptions change, and none is there that was not opened for the same. -/
theorem Sound.describe {description : U64 → Option PipeDescription} (hread : ∀ d, (description
    d).map (canRead ∘ (·.flags)) = (s.description d).map (canRead ∘ (·.flags))) (hwrite : ∀ d,
    (description d).map (canWrite ∘ (·.flags)) = (s.description d).map (canWrite ∘ (·.flags))) :
    ({ s with description } : PipeWorld).Sound := by
  refine ⟨h.carries, ?_, ?_, ?_⟩
  · rw [opened_congr hread]
    exact h.readers
  · rw [opened_congr hwrite]
    exact h.writers
  · have hnull := hread 0#64
    rw [h.null] at hnull
    simpa using hnull

theorem Sound.replace {d : U64} {x y : PipeDescription} (hd : s.description d = some x)
    (hread : canRead y.flags = canRead x.flags) (hwrite : canWrite y.flags = canWrite x.flags) :
    ({ s with description := update s.description d (some y) } : PipeWorld).Sound := by
  apply h.describe
  · intro e
    by_cases he : e = d
    · subst he
      simp [hd, hread]
    · simp [he]
  · intro e
    by_cases he : e = d
    · subst he
      simp [hd, hwrite]
    · simp [he]

/-- A call goes on: what it returns, and what becomes of the bytes. -/
theorem Sound.turn (thread : ℕ) (d flags : U64) (c : PipeCall) :
    (s.turn thread d flags c).2.Sound ∧
      s.Answers (s.turn thread d flags c).2 (s.turn thread d flags c).1 := by
  cases c with
  | read count =>
    cases hread : s.pipe.read flags count with
    | none =>
      obtain ⟨hempty, hwriters⟩ := Pipe.read_none h.carries hread
      simp only [PipeWorld.turn, hread]
      exact ⟨⟨h.carries, h.readers, h.writers, h.null⟩,
        ⟨hempty, mt h.writers_eq_zero.mpr hwriters⟩, rfl, rfl⟩
    | some x =>
      simp only [PipeWorld.turn, hread]
      obtain ⟨hcarries, hreaders, hwriters, hret⟩ := Pipe.read_some h.carries hread
      refine ⟨⟨hcarries, ?_, ?_, h.null⟩, ?_⟩
      · rw [hreaders]
        exact h.readers
      · rw [hwriters]
        exact h.writers
      · intro _
        refine ⟨fun hpos => ?_, rfl, rfl⟩
        rw [hret hpos, h.writers_eq_zero]
  | write buf =>
    cases hwrite : s.pipe.write flags buf with
    | none =>
      obtain ⟨hfull, hreaders⟩ := Pipe.write_none h.carries hwrite
      simp only [PipeWorld.turn, hwrite]
      exact ⟨⟨h.carries, h.readers, h.writers, h.null⟩,
        ⟨hfull, mt h.readers_eq_zero.mpr hreaders⟩, rfl, rfl⟩
    | some x =>
      simp only [PipeWorld.turn, hwrite]
      obtain ⟨hcarries, hreaders, hwriters, hret⟩ := Pipe.write_some h.carries hwrite
      refine ⟨⟨hcarries, ?_, ?_, h.null⟩, ?_⟩
      · rw [hreaders]
        exact h.readers
      · rw [hwriters]
        exact h.writers
      · intro _
        refine ⟨?_, rfl, rfl⟩
        rw [hret, h.readers_eq_zero]

theorem Sound.perform {o : PipeOp} {reply : PipeReply} (hstep : s.perform o = .ok (reply, s')) :
    s'.Sound ∧ s.Answers s' reply := by
  cases o with
  | open_ d flags =>
    simp only [PipeWorld.perform] at hstep
    split_ifs at hstep with hfree
    cases hstep
    obtain ⟨hne, hnone⟩ := not_or.mp hfree
    have hnone : s.description d = none := by simpa using hnone
    have hnull : update s.description d (some ⟨flags, 1⟩) 0#64 = none := by
      rw [update_of_ne (Ne.symm hne)]
      exact h.null
    exact ⟨⟨h.carries, count_insert h.readers hnone rfl hnull,
      count_insert h.writers hnone rfl hnull, hnull⟩, rfl, rfl⟩
  | share d =>
    simp only [PipeWorld.perform] at hstep
    cases hd : s.description d with
    | none => simp [hd] at hstep
    | some x =>
      simp only [hd] at hstep
      cases hstep
      exact ⟨h.replace hd rfl rfl, rfl, rfl⟩
  | close d =>
    simp only [PipeWorld.perform] at hstep
    cases hd : s.description d with
    | none => simp [hd] at hstep
    | some x =>
      simp only [hd] at hstep
      split_ifs at hstep with hlast
      · cases hstep
        refine ⟨⟨h.carries, count_erase h.readers hd rfl, count_erase h.writers hd rfl, ?_⟩, rfl, rfl⟩
        show update s.description d none 0#64 = none
        by_cases hnull : 0#64 = d
        · rw [← hnull, update_self]
        · rw [update_of_ne hnull]
          exact h.null
      · cases hstep
        exact ⟨h.replace hd rfl rfl, rfl, rfl⟩
  | setfl d arg =>
    simp only [PipeWorld.perform] at hstep
    cases hd : s.description d with
    | none => simp [hd] at hstep
    | some x =>
      simp only [hd] at hstep
      cases hstep
      exact ⟨h.replace hd (canRead_setfl ..) (canWrite_setfl ..), rfl, rfl⟩
  | call thread d c =>
    simp only [PipeWorld.perform] at hstep
    split at hstep
    · rename_i x hd hsleep
      rw [← (pure_pair hstep).1, ← (pure_pair hstep).2]
      exact h.turn thread d x.flags c
    · cases hstep
  | poll d events =>
    simp only [PipeWorld.perform] at hstep
    split_ifs at hstep
    cases hstep
    exact ⟨h, rfl, rfl⟩
  | wake thread flags =>
    simp only [PipeWorld.perform] at hstep
    split at hstep
    · rename_i d c hsleep
      have hpair := pure_pair hstep
      rw [← hpair.1, ← hpair.2]
      exact h.turn thread d _ c
    · cases hstep
  | interrupt thread =>
    simp only [PipeWorld.perform] at hstep
    split at hstep
    · cases hstep
      exact ⟨⟨h.carries, h.readers, h.writers, h.null⟩, fun hne => absurd rfl hne⟩
    · cases hstep
      exact ⟨⟨h.carries, h.readers, h.writers, h.null⟩, fun hne => absurd rfl hne⟩
    · cases hstep

theorem Sound.step {o : PipeOp} (hstep : s.step o = .ok s') : s'.Sound := by
  unfold PipeWorld.step at hstep
  cases hperform : s.perform o with
  | error e => simp [hperform, Except.map] at hstep
  | ok x =>
    rw [hperform] at hstep
    cases hstep
    exact (h.perform hperform).1

end

end PipeWorld

/-- **Main theorem.** In every state of every run the bytes read are the beginning of the bytes
    written, the rest is in the buffer, and the ends are counted; every call that is not interrupted
    reports end of file and a broken pipe exactly when they are due, and sleeps only for what can
    come; and `poll` agrees with them. -/
theorem pipe_contract {s : PipeWorld} (h : Run PipeWorld.step (fun _ _ => True) {} s) :
    s.Faithful ∧ (∀ o reply s', s.perform o = .ok (reply, s') → s.Answers s' reply) ∧ s.Polls := by
  have hs : s.Sound := h.invariant (fun _ _ _ hs _ hstep => hs.step hstep) PipeWorld.sound_empty
  refine ⟨hs.faithful, ?_, ?_⟩
  · intro o reply s' hstep
    exact (hs.perform hstep).2
  · intro flags hflags
    exact ⟨Pipe.poll_read hflags, Pipe.poll_write hflags⟩

/-- A read waits on a fresh pipe, a write lets it go on, and the write end, which `fork` has shared,
    is closed by both. -/
theorem pipe_contract_closed : ∃ s, Run PipeWorld.step (fun _ _ => True) {} s ∧
    s.taken = [1#8, 2#8] ∧ s.pipe.writers = 0#64 ∧ s.Faithful := by
  let r : U64 := 0x1000#64
  let w : U64 := 0x2000#64
  obtain ⟨s, hs, hread⟩ := exists_ok_of_map
    (show (([.open_ r 0#64, .open_ w 1#64, .call 0 r (.read 2), .call 1 w (.write [1#8, 2#8, 3#8]),
        .share w, .close w, .wake 0 0#64, .close w] : List PipeOp).foldlM PipeWorld.step {}).map
        (fun s => (s.taken, s.pipe.writers)) = .ok ([1#8, 2#8], 0#64) by decide +kernel)
  obtain ⟨htaken, hwriters⟩ := Prod.mk.inj hread
  have hrun : Run PipeWorld.step (fun _ _ => True) {} s := Run.start.foldlM (by simp) hs
  exact ⟨s, hrun, htaken, hwriters, (pipe_contract hrun).1⟩

end Fishix.Userland
