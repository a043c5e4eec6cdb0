import Fishix.Sched.Basic
import Fishix.Userland.EventFd

/-!
# Flags of descriptions without a path

Model of `eventfd_impl` (userland/eventfd.cpp:65-80), `signalfd_impl` (userland/signalfd.cpp:63-88)
and `inotify_init1_impl` (userland/inotify.cpp:40-53), with the reads and writes of what they make.

Each of the three asks for `accessMode | (flags & NONBLOCK) ? O_NONBLOCK : 0`, in which the `?:` has
the `|` for its condition. With `O_RDONLY`, which is zero, this is what it looks like. With `O_RDWR`
the description is always non-blocking, and its access mode is `O_RDONLY`.

* `descriptionFlags_readOnly`, `descriptionFlags_readWrite`: the value of that expression.
* `creation_follows_flags`: the flags are followed exactly where the call is not `eventfd2`.
-/

namespace Fishix.Userland

open Fishix.Fs (oAccMode oRdOnly)

/-! ## Nodes -/

inductive DescriptionErrno
  /-- `-EINVAL`. -/
  | invalid
  /-- `-EWOULDBLOCK`. -/
  | wouldBlock
  /-- `-EINTR`. -/
  | interrupted
  /-- `-ENOTSUP`. -/
  | notSupported
  deriving DecidableEq

def EventFdErrno.toDescription : EventFdErrno → DescriptionErrno
  | .invalid => .invalid
  | .wouldBlock => .wouldBlock
  | .interrupted => .interrupted

/-- What `SignalFD::read` looks for (userland/signalfd.cpp:36-42). -/
def lowestSignal (accepted : U64) : Option ℕ :=
  ((List.range 64).find? fun i => accepted.getLsbD i).map (· + 1)

/-- The loop of `SignalFD::read` (userland/signalfd.cpp:31-51), with the signals that it stores and
    those that are still pending. -/
def takeSignals (mask : U64) : ℕ → U64 → List ℕ × U64
  | 0, pending => ([], pending)
  | n + 1, pending =>
    match lowestSignal (pending &&& mask) with
    | none => ([], pending)
    | some signal =>
      let (rest, pending) := takeSignals mask n
        (pending &&& ~~~Fishix.Sched.getSignalBit signal)
      (signal :: rest, pending)

/-- `sizeof(signalfd_siginfo)`. -/
def siginfoSize : ℕ := 128

/-- `SignalFD::read` (userland/signalfd.cpp:16-53) up to where it returns, or `none` where it
    waits. -/
def signalFdRead (mask flags pending count : U64) :
    Option (Except DescriptionErrno (List ℕ) × U64) :=
  let numSiginfos := count.toNat / siginfoSize
  if numSiginfos < 1 then some (.error .invalid, pending)
  else if pending &&& mask = 0#64 then
    if flags &&& O_NONBLOCK ≠ 0#64 then some (.error .wouldBlock, pending)
    else none
  else
    let (signals, pending) := takeSignals mask numSiginfos pending
    some (.ok signals, pending)

/-- `INotify::capacity`. -/
abbrev inotifyCapacity : ℕ := 0x1000

/-- `INotify::read` (userland/inotify.cpp:21-30) up to where it returns, or `none` where it
    waits. -/
def inotifyRead (ringBuffer : RingBuffer Byte inotifyCapacity) (flags count : U64) :
    Option (Except DescriptionErrno (List Byte) × RingBuffer Byte inotifyCapacity) :=
  if ringBuffer.isEmpty then
    if flags &&& O_NONBLOCK ≠ 0#64 then some (.error .wouldBlock, ringBuffer)
    else none
  else
    let (buf, ringBuffer) := ringBuffer.read count.toNat
    some (.ok buf, ringBuffer)

inductive FdNode
  | eventfd (node : EventFd)
  /-- `SignalFD` with its `mask`. -/
  | signalfd (mask : U64)
  /-- `INotify` with its `ring_buffer`. -/
  | inotify (ringBuffer : RingBuffer Byte inotifyCapacity)

/-- What a read or a write gives. -/
inductive FdResult
  | counter (v : U64)
  | signals (l : List ℕ)
  | events (buf : List Byte)
  | written
  deriving DecidableEq

inductive FdCall
  | read (count : U64)
  | write (count toAdd : U64)

/-- A read or a write of a node up to where it returns, with the node and the pending signals of the
    caller, or `none` where it waits. `SignalFD` and `INotify` have the `write` of `VNode`
    (fs/vfs.hpp:62). -/
def FdNode.perform (node : FdNode) (flags pending : U64) :
    FdCall → Option (Except DescriptionErrno FdResult × FdNode × U64)
  | .read count =>
    match node with
    | .eventfd e => (e.read flags count).map fun (ret, e) =>
        ((ret.mapError EventFdErrno.toDescription).map .counter, .eventfd e, pending)
    | .signalfd mask => (signalFdRead mask flags pending count).map fun (ret, pending) =>
        (ret.map .signals, .signalfd mask, pending)
    | .inotify ringBuffer => (inotifyRead ringBuffer flags count).map fun (ret, ringBuffer) =>
        (ret.map .events, .inotify ringBuffer, pending)
  | .write count toAdd =>
    match node with
    | .eventfd e => (e.write flags count toAdd).map fun (ret, e) =>
        ((ret.mapError EventFdErrno.toDescription).map fun _ => .written, .eventfd e, pending)
    | .signalfd mask => some (.error .notSupported, .signalfd mask, pending)
    | .inotify ringBuffer => some (.error .notSupported, .inotify ringBuffer, pending)

/-! ## Creation -/

/-- `EFD_NONBLOCK`, `SFD_NONBLOCK` and `IN_NONBLOCK`. -/
def FD_NONBLOCK : BitVec 32 := 0x800#32

/-- `EFD_CLOEXEC`, `SFD_CLOEXEC` and `IN_CLOEXEC`. -/
def FD_CLOEXEC_FLAG : BitVec 32 := 0x80000#32

def EFD_SEMAPHORE : BitVec 32 := 1#32

/-- `accessMode | (flags & NONBLOCK) ? O_NONBLOCK : 0`. -/
def descriptionFlags (accessMode : U64) (flags : BitVec 32) : U64 :=
  if accessMode.setWidth 32 ||| flags &&& FD_NONBLOCK ≠ 0#32 then O_NONBLOCK else 0#64

/-- A new `FileDescription`, and whether its descriptor has `FD_CLOEXEC`. -/
structure NewDescription where
  node : FdNode
  flags : U64
  closeOnExec : Bool

/-- `eventfd_impl` (userland/eventfd.cpp:65-80). -/
def eventfdImpl (initval flags : BitVec 32) : Except DescriptionErrno NewDescription :=
  if flags &&& ~~~(FD_NONBLOCK ||| FD_CLOEXEC_FLAG ||| EFD_SEMAPHORE) ≠ 0#32 then .error .invalid
  else .ok {
    node := .eventfd {
      counter := initval.setWidth 64, isSemaphore := flags &&& EFD_SEMAPHORE ≠ 0#32 }
    flags := descriptionFlags O_RDWR flags
    closeOnExec := flags &&& FD_CLOEXEC_FLAG ≠ 0#32 }

/-- `signalfd_impl` (userland/signalfd.cpp:63-77) with `fd == -1`, which makes a description. -/
def signalfdImpl (mask : U64) (flags : BitVec 32) : Except DescriptionErrno NewDescription :=
  if flags &&& ~~~(FD_NONBLOCK ||| FD_CLOEXEC_FLAG) ≠ 0#32 then .error .invalid
  else .ok {
    node := .signalfd mask
    flags := descriptionFlags oRdOnly flags
    closeOnExec := flags &&& FD_CLOEXEC_FLAG ≠ 0#32 }

/-- `inotify_init1_impl` (userland/inotify.cpp:40-53). -/
def inotifyInit1Impl (flags : BitVec 32) : Except DescriptionErrno NewDescription :=
  if flags &&& ~~~(FD_NONBLOCK ||| FD_CLOEXEC_FLAG) ≠ 0#32 then .error .invalid
  else .ok {
    node := .inotify { data := fun _ => 0#8 }
    flags := descriptionFlags oRdOnly flags
    closeOnExec := flags &&& FD_CLOEXEC_FLAG ≠ 0#32 }

inductive CreationCall
  | eventfd2 (initval flags : BitVec 32)
  /-- `signalfd4(-1, mask, mask_size, flags)`. -/
  | signalfd4 (mask maskSize : U64) (flags : BitVec 32)
  | inotifyInit1 (flags : BitVec 32)

namespace CreationCall

def flags : CreationCall → BitVec 32
  | .eventfd2 _ flags => flags
  | .signalfd4 _ _ flags => flags
  | .inotifyInit1 flags => flags

/-- The access mode that each function has in its expression. -/
def accessMode : CreationCall → U64
  | .eventfd2 _ _ => O_RDWR
  | .signalfd4 _ _ _ => oRdOnly
  | .inotifyInit1 _ => oRdOnly

def perform : CreationCall → Except DescriptionErrno NewDescription
  | .eventfd2 initval flags => eventfdImpl initval flags
  | .signalfd4 mask maskSize flags =>
    if maskSize ≠ 8#64 then .error .invalid else signalfdImpl mask flags
  | .inotifyInit1 flags => inotifyInit1Impl flags

end CreationCall

/-! ## What becomes of a description -/

/-- A description, the pending signals of the main thread of each process, and the calls that wait,
    each with its process. -/
structure FdWorld where
  node : FdNode
  flags : U64
  pendingSignals : ℕ → U64
  sleeping : ℕ → Option (ℕ × FdCall) := fun _ => none

inductive FdOp
  | call (thread process : ℕ) (c : FdCall)
  /-- `wait` returns. -/
  | wake (thread : ℕ)
  /-- `wait` returns `-EINTR`. -/
  | interrupt (thread : ℕ)
  /-- The pending signals of a process become `pending`. -/
  | signals (process : ℕ) (pending : U64)

namespace FdWorld

/-- A call, from its start or from behind `wait`, with what it returns, or `none` where it waits. -/
def turn (s : FdWorld) (thread process : ℕ) (c : FdCall) :
    Option (Except DescriptionErrno FdResult) × FdWorld :=
  match s.node.perform s.flags (s.pendingSignals process) c with
  | none => (none, { s with
      sleeping := Function.update s.sleeping thread (some (process, c)) })
  | some (ret, node, pending) => (some ret, { s with
      node
      pendingSignals := Function.update s.pendingSignals process pending
      sleeping := Function.update s.sleeping thread none })

/-- One step, with what a call returns in it, if one does. -/
def stepWith (s : FdWorld) :
    FdOp → Except Unit (Option (Except DescriptionErrno FdResult) × FdWorld)
  | .call thread process c =>
    if (s.sleeping thread).isSome then .error () else .ok (s.turn thread process c)
  | .wake thread =>
    match s.sleeping thread with
    | some (process, c) => .ok (s.turn thread process c)
    | none => .error ()
  | .interrupt thread =>
    if (s.sleeping thread).isSome then
      .ok (some (.error .interrupted),
        { s with sleeping := Function.update s.sleeping thread none })
    else .error ()
  | .signals process pending =>
    .ok (none, { s with pendingSignals := Function.update s.pendingSignals process pending })

def step (s : FdWorld) (o : FdOp) : Except Unit FdWorld := (s.stepWith o).map Prod.snd

end FdWorld

def NewDescription.world (d : NewDescription) (pendingSignals : ℕ → U64) : FdWorld where
  node := d.node
  flags := d.flags
  pendingSignals

/-- Blocking mode and access mode are those that the call asks for. -/
structure FollowsFlags (call : CreationCall) (d : NewDescription) : Prop where
  nonblocking : d.flags &&& O_NONBLOCK ≠ 0#64 ↔ call.flags &&& FD_NONBLOCK ≠ 0#32
  /-- Without the flag no call on the description ever returns `-EWOULDBLOCK`. -/
  waits : call.flags &&& FD_NONBLOCK = 0#32 → ∀ pendingSignals s,
    Run FdWorld.step (fun _ _ => True) (d.world pendingSignals) s →
      ∀ o s', s.stepWith o ≠ .ok (some (.error .wouldBlock), s')
  canRead : canRead d.flags = canRead call.accessMode
  canWrite : canWrite d.flags = canWrite call.accessMode

/-! ## The expression -/

section Flags

variable {flags : BitVec 32}

theorem descriptionFlags_readOnly :
    descriptionFlags oRdOnly flags =
      if flags &&& FD_NONBLOCK ≠ 0#32 then O_NONBLOCK else 0#64 := by
  unfold descriptionFlags
  rw [show oRdOnly.setWidth 32 = 0#32 from rfl, BitVec.zero_or]

/-- The condition is never zero. -/
theorem descriptionFlags_readWrite : descriptionFlags O_RDWR flags = O_NONBLOCK := by
  unfold descriptionFlags
  rw [if_pos]
  intro h
  have hbit := congrArg (fun x : BitVec 32 => x.getLsbD 1) h
  simp [O_RDWR] at hbit

end Flags

/-! ## Calls that may wait -/

section Waiting

variable {s s' : FdWorld}

theorem FdNode.perform_waits {node : FdNode} {flags pending : U64} {c : FdCall}
    {r : FdNode × U64} (hflags : flags &&& O_NONBLOCK = 0#64) :
    node.perform flags pending c ≠ some (.error .wouldBlock, r) := by
  have hblock : ¬flags &&& O_NONBLOCK ≠ 0#64 := not_not.mpr hflags
  cases c with
  | read count =>
    cases node with
    | eventfd e =>
      simp only [FdNode.perform, EventFd.read, if_neg hblock]
      split_ifs <;> simp [Except.mapError, Except.map, EventFdErrno.toDescription]
    | signalfd mask =>
      simp only [FdNode.perform, signalFdRead, if_neg hblock]
      split_ifs <;> simp [Except.map]
    | inotify ringBuffer =>
      simp only [FdNode.perform, inotifyRead, if_neg hblock]
      split_ifs <;> simp [Except.map]
  | write count toAdd =>
    cases node with
    | eventfd e =>
      simp only [FdNode.perform, EventFd.write, if_neg hblock]
      split_ifs <;> simp [Except.mapError, Except.map, EventFdErrno.toDescription]
    | signalfd mask => simp [FdNode.perform]
    | inotify ringBuffer => simp [FdNode.perform]

namespace FdWorld

theorem turn_flags (thread process : ℕ) (c : FdCall) :
    (s.turn thread process c).2.flags = s.flags := by
  unfold turn
  split <;> rfl

theorem turn_waits (hflags : s.flags &&& O_NONBLOCK = 0#64) (thread process : ℕ) (c : FdCall) :
    (s.turn thread process c).1 ≠ some (.error .wouldBlock) := by
  unfold turn
  split
  · simp
  · rename_i ret node pending hperform
    intro h
    cases h
    exact FdNode.perform_waits hflags hperform

theorem stepWith_cases {o : FdOp} {reply : Option (Except DescriptionErrno FdResult)}
    (h : s.stepWith o = .ok (reply, s')) :
    s'.flags = s.flags ∧
      (s.flags &&& O_NONBLOCK = 0#64 → reply ≠ some (.error .wouldBlock)) := by
  cases o with
  | call thread process c =>
    simp only [stepWith] at h
    split_ifs at h
    have hturn := Except.ok.inj h
    refine ⟨?_, fun hflags => ?_⟩
    · rw [← turn_flags (s := s) thread process c, hturn]
    · rw [show reply = (s.turn thread process c).1 by rw [hturn]]
      exact turn_waits hflags thread process c
  | wake thread =>
    simp only [stepWith] at h
    split at h
    · rename_i process c hsleeping
      have hturn := Except.ok.inj h
      refine ⟨?_, fun hflags => ?_⟩
      · rw [← turn_flags (s := s) thread process c, hturn]
      · rw [show reply = (s.turn thread process c).1 by rw [hturn]]
        exact turn_waits hflags thread process c
    · cases h
  | interrupt thread =>
    simp only [stepWith] at h
    split_ifs at h
    cases h
    exact ⟨rfl, fun _ => by simp⟩
  | signals process pending =>
    cases h
    exact ⟨rfl, fun _ => by simp⟩

theorem run_flags (h : Run step (fun _ _ => True) s s') : s'.flags = s.flags := by
  refine h.invariant (P := fun s1 => s1.flags = s.flags) ?_ rfl
  intro s1 o s2 hflags _ hstep
  unfold step at hstep
  cases hs : s1.stepWith o with
  | error e =>
    rw [hs] at hstep
    cases hstep
  | ok r =>
    rw [hs] at hstep
    cases hstep
    exact (stepWith_cases hs).1.trans hflags

end FdWorld

end Waiting

/-! ## What the calls make -/

section Creation

variable {call : CreationCall} {d : NewDescription}

theorem CreationCall.perform_flags (h : call.perform = .ok d) :
    d.flags = descriptionFlags call.accessMode call.flags := by
  cases call with
  | eventfd2 initval flags =>
    simp only [CreationCall.perform, eventfdImpl] at h
    split_ifs at h
    cases h
    rfl
  | signalfd4 mask maskSize flags =>
    simp only [CreationCall.perform, signalfdImpl] at h
    split_ifs at h
    cases h
    rfl
  | inotifyInit1 flags =>
    simp only [CreationCall.perform, inotifyInit1Impl] at h
    split_ifs at h
    cases h
    rfl

theorem followsFlags_of_readOnly (h : call.perform = .ok d) (hmode : call.accessMode = oRdOnly) :
    FollowsFlags call d := by
  have hflags := CreationCall.perform_flags h
  rw [hmode, descriptionFlags_readOnly] at hflags
  have hnonblock : d.flags &&& O_NONBLOCK ≠ 0#64 ↔ call.flags &&& FD_NONBLOCK ≠ 0#32 := by
    rw [hflags]
    split_ifs with hflag
    · exact ⟨fun _ => hflag, fun _ => by decide⟩
    · exact ⟨fun h0 => absurd (by decide) h0, fun h0 => absurd h0 hflag⟩
  refine ⟨hnonblock, ?_, ?_, ?_⟩
  · intro hflag pendingSignals s hrun o s' hstep
    have hzero : s.flags &&& O_NONBLOCK = 0#64 := by
      rw [FdWorld.run_flags hrun]
      exact not_not.mp fun h0 => hnonblock.mp h0 hflag
    exact (FdWorld.stepWith_cases hstep).2 hzero rfl
  · rw [hmode, hflags]
    split_ifs <;> rfl
  · rw [hmode, hflags]
    split_ifs <;> rfl

/-- **Main theorem.** A created description follows its creation flags exactly if the call is not
    `eventfd2`. -/
theorem creation_follows_flags (h : call.perform = .ok d) :
    FollowsFlags call d ↔ ∀ initval flags, call ≠ .eventfd2 initval flags := by
  constructor
  · rintro hfollows initval flags rfl
    have hwrite := hfollows.canWrite
    rw [CreationCall.perform_flags h] at hwrite
    simp only [CreationCall.accessMode, descriptionFlags_readWrite] at hwrite
    exact absurd hwrite (by decide)
  · intro hcall
    cases call with
    | eventfd2 initval flags => exact absurd rfl (hcall initval flags)
    | signalfd4 mask maskSize flags => exact followsFlags_of_readOnly h rfl
    | inotifyInit1 flags => exact followsFlags_of_readOnly h rfl

end Creation

/-- A read of a `signalfd` without `SFD_NONBLOCK` waits for its signal. -/
theorem creation_follows_flags_signalfd :
    ∃ d, CreationCall.perform (.signalfd4 0x200#64 8#64 0#32) = .ok d ∧
      FollowsFlags (.signalfd4 0x200#64 8#64 0#32) d := by
  obtain ⟨d, hd⟩ : ∃ d, CreationCall.perform (.signalfd4 0x200#64 8#64 0#32) = .ok d := ⟨_, rfl⟩
  exact ⟨d, hd, (creation_follows_flags hd).mpr (by simp)⟩

/-- A read of an empty `eventfd` made without `EFD_NONBLOCK` returns `-EWOULDBLOCK`, and the
    description can not be written. -/
theorem eventfd2_never_waits : ∃ d, CreationCall.perform (.eventfd2 0#32 0#32) = .ok d ∧
    canWrite d.flags = false ∧ ((d.world fun _ => 0#64).stepWith (.call 0 0 (.read 8#64))).map
      Prod.fst = .ok (some (.error .wouldBlock)) := ⟨_, rfl, rfl, rfl⟩

end Fishix.Userland
