import Fishix.Userland.Pipe

/-!
# Small writes to a pipe

A write of at most `PIPE_BUF` bytes is to be transferred as a whole or not at all. `Pipe::write`
(userland/pipe.cpp:42-55) waits only while the buffer is full, and then writes what there is room
for, so that a write that finds some room but too little is split.

* `PipeWorld.perform_written`: what a step adds to the stream.
* `PipeWorld.perform_whole_iff`: when a write is not split.
* `small_writes_atomic`: a run splits no small write exactly if each one that goes on has room.
-/

namespace Fishix.Userland

/-- `PIPE_BUF`, which is also the capacity of a pipe. -/
def PIPE_BUF : ℕ := 4096

/-! ## The stream -/

/-- The bytes that a reply adds to the stream. -/
def PipeReply.piece : PipeReply → List Byte
  | .write buf ret => buf.take (ret.toOption.getD 0)
  | _ => []

/-- How many bytes a write was to transfer, and how many it has. -/
def PipeReply.transfer : PipeReply → Option (ℕ × ℕ)
  | .write buf (.ok n) => some (buf.length, n)
  | _ => none

/-- If it is a small write that has transferred something, it has transferred all. -/
def PipeReply.Whole (reply : PipeReply) : Prop :=
  ∀ t ∈ reply.transfer, t.1 ≤ PIPE_BUF → t.2 = t.1

/-- What a call is to write. -/
def PipeCall.writes : PipeCall → Option (List Byte)
  | .read _ => none
  | .write buf => some buf

namespace PipeWorld

/-- The call that an operation starts or goes on with. -/
def callOf (s : PipeWorld) : PipeOp → Option PipeCall
  | .call _ _ c => some c
  | .wake thread _ => (s.sleeping thread).map Prod.snd
  | _ => none

/-- A small write finds no reader, a full buffer, or room for all of its bytes. -/
def Fits (s : PipeWorld) (o : PipeOp) : Prop :=
  ∀ c ∈ s.callOf o, ∀ buf ∈ c.writes, buf.length ≤ PIPE_BUF →
    s.pipe.readers = 0#64 ∨ s.pipe.ringBuffer.isFull ∨
      buf.length ≤ s.pipe.ringBuffer.freeCount.toNat

instance (s : PipeWorld) (o : PipeOp) : Decidable (s.Fits o) :=
  inferInstanceAs (Decidable (∀ c ∈ s.callOf o, ∀ buf ∈ c.writes, _ → _))

/-- The bytes that have been read, and those that a read of everything would give. -/
def stream (s : PipeWorld) : List Byte :=
  s.taken ++ (s.pipe.ringBuffer.read s.pipe.ringBuffer.dataCount.toNat).1

end PipeWorld

/-- A step of a run: the state before it, what is done, and what is returned. -/
structure PipeEvent where
  before : PipeWorld
  op : PipeOp
  reply : PipeReply

/-- A pipe with all that has happened. -/
structure PipeLog where
  world : PipeWorld := {}
  events : List PipeEvent := []

namespace PipeLog

def step (s : PipeLog) (o : PipeOp) : Except Unit PipeLog :=
  (s.world.perform o).map fun (reply, world) =>
    { world, events := s.events ++ [{ before := s.world, op := o, reply }] }

/-- The stream is made of the bytes of each write in turn, and no small write is split. -/
structure Atomic (s : PipeLog) : Prop where
  stream : s.world.stream = (s.events.map fun e => e.reply.piece).flatten
  whole : ∀ e ∈ s.events, e.reply.Whole

end PipeLog

/-! ## One step -/

namespace PipeWorld

variable {s s' : PipeWorld}

theorem Sound.stream (h : s.Sound) : s.stream = s.written := by
  obtain ⟨rest, hrest⟩ := h.carries.taken
  have hcount := h.carries.dataCount Pipe.capacity_lt
  unfold PipeWorld.stream
  rw [(h.carries.read Pipe.capacity_lt _).1, hcount, ← hrest, List.drop_left, List.length_append,
    Nat.add_sub_cancel_left, List.take_length]

/-- A call goes on: what it adds to the stream. -/
theorem turn_written (thread : ℕ) (d flags : U64) (c : PipeCall) :
    (s.turn thread d flags c).2.written =
      s.written ++ (s.turn thread d flags c).1.piece := by
  cases c with
  | read count =>
    cases hread : s.pipe.read flags count with
    | none =>
      simp only [turn, hread]
      exact (List.append_nil _).symm
    | some r =>
      simp only [turn, hread]
      exact (List.append_nil _).symm
  | write buf =>
    cases hwrite : s.pipe.write flags buf with
    | none =>
      simp only [turn, hwrite]
      exact (List.append_nil _).symm
    | some r =>
      simp only [turn, hwrite]
      rfl

/-- A write goes on: when it is not split. -/
theorem turn_whole_iff {thread : ℕ} {d flags : U64} {buf : List Byte} :
    (s.turn thread d flags (.write buf)).1.Whole ↔
      (buf.length ≤ PIPE_BUF → s.pipe.readers = 0#64 ∨ s.pipe.ringBuffer.isFull ∨
        buf.length ≤ s.pipe.ringBuffer.freeCount.toNat) := by
  have hwrite : (s.pipe.ringBuffer.write buf).1 =
      min buf.length s.pipe.ringBuffer.freeCount.toNat := rfl
  unfold turn Pipe.write
  by_cases hreaders : s.pipe.readers = 0#64
  · simp [hreaders, PipeReply.Whole, PipeReply.transfer]
  · by_cases hfull : s.pipe.ringBuffer.isFull = true
    · by_cases hblock : flags &&& O_NONBLOCK ≠ 0#64
      · simp [hreaders, hfull, hblock, PipeReply.Whole, PipeReply.transfer]
      · simp [hreaders, hfull, hblock, PipeReply.Whole, PipeReply.transfer]
    · simp [hreaders, hfull, hwrite, PipeReply.Whole, PipeReply.transfer]

theorem turn_read_whole (thread : ℕ) (d flags : U64) (count : ℕ) :
    (s.turn thread d flags (.read count)).1.Whole := by
  cases hread : s.pipe.read flags count with
  | none => simp [turn, hread, PipeReply.Whole, PipeReply.transfer]
  | some r => simp [turn, hread, PipeReply.Whole, PipeReply.transfer]

variable {o : PipeOp} {reply : PipeReply}

/-- A step lets a call go on, or it touches neither the stream nor a write. -/
theorem perform_cases (h : s.perform o = .ok (reply, s')) :
    (∃ thread d flags c, s.turn thread d flags c = (reply, s') ∧ s.callOf o = some c) ∨
      s.callOf o = none ∧ reply.transfer = none ∧ reply.piece = [] ∧ s'.written = s.written := by
  cases o with
  | open_ d flags =>
    simp only [perform] at h
    split_ifs at h
    cases h
    exact .inr ⟨rfl, rfl, rfl, rfl⟩
  | share d =>
    simp only [perform] at h
    split at h
    · cases h
    · cases h
      exact .inr ⟨rfl, rfl, rfl, rfl⟩
  | close d =>
    simp only [perform] at h
    split at h
    · cases h
    · split_ifs at h
      · cases h
        exact .inr ⟨rfl, rfl, rfl, rfl⟩
      · cases h
        exact .inr ⟨rfl, rfl, rfl, rfl⟩
  | setfl d arg =>
    simp only [perform] at h
    split at h
    · cases h
    · cases h
      exact .inr ⟨rfl, rfl, rfl, rfl⟩
  | call thread d c =>
    simp only [perform] at h
    split at h
    · rename_i x hd hsleep
      exact .inl ⟨thread, d, x.flags, c, Except.ok.inj h, rfl⟩
    · cases h
  | poll d events =>
    simp only [perform] at h
    split_ifs at h
    cases h
    exact .inr ⟨rfl, rfl, rfl, rfl⟩
  | wake thread flags =>
    simp only [perform] at h
    split at h
    · rename_i d c hsleep
      exact .inl ⟨thread, d, _, c, Except.ok.inj h, by simp [callOf, hsleep]⟩
    · cases h
  | interrupt thread =>
    simp only [perform] at h
    split at h
    · cases h
      exact .inr ⟨rfl, rfl, rfl, rfl⟩
    · cases h
      exact .inr ⟨rfl, rfl, rfl, rfl⟩
    · cases h

/-- What a step adds to the stream. -/
theorem perform_written (h : s.perform o = .ok (reply, s')) :
    s'.written = s.written ++ reply.piece := by
  rcases perform_cases h with ⟨thread, d, flags, c, hturn, -⟩ | ⟨-, -, hpiece, hwritten⟩
  · have hadds := turn_written (s := s) thread d flags c
    rw [hturn] at hadds
    exact hadds
  · rw [hpiece, List.append_nil]
    exact hwritten

/-- A step splits no small write exactly if the write that goes on in it, if any, fits. -/
theorem perform_whole_iff (h : s.perform o = .ok (reply, s')) : reply.Whole ↔ s.Fits o := by
  rcases perform_cases h with ⟨thread, d, flags, c, hturn, hcall⟩ | ⟨hcall, htransfer, -, -⟩
  · cases c with
    | read count =>
      have hwhole := turn_read_whole (s := s) thread d flags count
      rw [hturn] at hwhole
      simp [Fits, hcall, PipeCall.writes, hwhole]
    | write buf =>
      have hwhole : (s.turn thread d flags (.write buf)).1.Whole ↔ _ := turn_whole_iff
      rw [hturn] at hwhole
      simp [Fits, hcall, PipeCall.writes, hwhole]
  · simp [PipeReply.Whole, Fits, htransfer, hcall]

end PipeWorld

/-! ## Every run -/

namespace PipeLog

variable {s s' : PipeLog}

/-- The log agrees with the pipe. -/
structure Recorded (s : PipeLog) : Prop where
  sound : s.world.Sound
  written : s.world.written = (s.events.map fun e => e.reply.piece).flatten
  whole : ∀ e ∈ s.events, (e.reply.Whole ↔ e.before.Fits e.op)

theorem Recorded.step (h : s.Recorded) {o : PipeOp} (hstep : s.step o = .ok s') :
    s'.Recorded := by
  unfold PipeLog.step at hstep
  cases hperform : s.world.perform o with
  | error e =>
    rw [hperform] at hstep
    cases hstep
  | ok r =>
    rw [hperform] at hstep
    cases hstep
    refine ⟨(h.sound.perform hperform).1, ?_, ?_⟩
    · show r.2.written = _
      rw [PipeWorld.perform_written hperform, h.written]
      simp
    · intro e he
      rcases List.mem_append.mp he with hold | hnew
      · exact h.whole e hold
      · obtain rfl := List.mem_singleton.mp hnew
        exact PipeWorld.perform_whole_iff hperform

end PipeLog

/-- **Main theorem.** In every run small writes are transferred as a whole or not at all exactly if
    each small write that goes on fits, finds no reader, or finds the buffer full. -/
theorem small_writes_atomic {s : PipeLog} (h : Run PipeLog.step (fun _ _ => True) {} s) :
    s.Atomic ↔ ∀ e ∈ s.events, e.before.Fits e.op := by
  have hs : s.Recorded := h.invariant (fun _ _ _ hs _ hstep => hs.step hstep)
    ⟨PipeWorld.sound_empty, rfl, by simp⟩
  constructor
  · intro hatomic e he
    exact (hs.whole e he).mp (hatomic.whole e he)
  · intro hfits
    refine ⟨hs.sound.stream.trans hs.written, ?_⟩
    intro e he
    exact (hs.whole e he).mpr (hfits e he)

/-- Two writers share a pipe; the second one waits for the reader. -/
theorem small_writes_atomic_waiting : ∃ s, Run PipeLog.step (fun _ _ => True) {} s ∧
    s.events.length = 6 ∧ s.Atomic := by
  obtain ⟨s, hs, hread⟩ := exists_ok_of_map
    (show (([.open_ 0x1000#64 0#64, .open_ 0x2000#64 1#64,
        .call 0 0x2000#64 (.write (List.replicate 4096 7#8)),
        .call 1 0x2000#64 (.write [1#8, 2#8]), .call 2 0x1000#64 (.read 2), .wake 1 0#64] :
        List PipeOp).foldlM PipeLog.step {}).map
        (fun s => (s.events.length, s.events.all fun e => decide (e.before.Fits e.op))) =
          .ok (6, true) by decide +kernel)
  obtain ⟨hlength, hfits⟩ := Prod.mk.inj hread
  have hrun : Run PipeLog.step (fun _ _ => True) {} s := Run.start.foldlM (fun _ _ _ => trivial) hs
  refine ⟨s, hrun, hlength, (small_writes_atomic hrun).mpr ?_⟩
  simpa using hfits

/-- A write of two bytes finds room for one. -/
theorem small_write_split : ∃ s, Run PipeLog.step (fun _ _ => True) {} s ∧ ¬s.Atomic := by
  obtain ⟨s, hs, hread⟩ := exists_ok_of_map
    (show (([.open_ 0x1000#64 0#64, .open_ 0x2000#64 1#64,
        .call 0 0x2000#64 (.write (List.replicate 4095 7#8)),
        .call 1 0x2000#64 (.write [1#8, 2#8])] : List PipeOp).foldlM PipeLog.step {}).map
        (fun s => s.events.getLast?.bind fun e => e.reply.transfer) = .ok (some (2, 1)) by
          decide +kernel)
  refine ⟨s, Run.start.foldlM (fun _ _ _ => trivial) hs, fun hatomic => ?_⟩
  obtain ⟨e, he, htransfer⟩ := Option.bind_eq_some_iff.mp hread
  have hwhole := hatomic.whole e (List.mem_of_getLast? he) (2, 1) htransfer (by decide)
  cases hwhole

end Fishix.Userland
