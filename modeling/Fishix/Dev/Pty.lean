import Fishix.Common.RingBuffer
import Fishix.Common.Trace
import Fishix.Dev.Tty
import Fishix.Userland.Pipe

/-!
# Pseudo-terminals

Model of `PseudoTerminalEnd::read` and `PseudoTerminalEnd::write` (dev/tty/pty.cpp:24-84), with one
writer at the slave end and readers at the master end.

`write` puts what `process_output_char` makes of a character one by one, and breaks off at the
character for which some put has failed. NL with `ONLCR` is put as CR and NL: where there is exactly
one free place, CR stays in the buffer and NL is reported as not accepted.

* `putAll_carries`, `outputLoop_carries`: what the loop puts into the buffer.
* `outputLoop_stray_iff`: when it leaves a stray CR there.
* `pty_write_exact_iff`: the runs in which the stream is the translation of what was accepted.
-/

namespace Fishix.Dev.Tty

open Fishix.Userland (O_NONBLOCK)

/-- The size of the `ring_buffer` of an end. -/
abbrev ptyCapacity : ℕ := 0x1000

abbrev PtyBuffer := RingBuffer U8 ptyCapacity

inductive PtyErrno
  /-- `-EWOULDBLOCK`. -/
  | wouldBlock
  /-- `-EINTR`. -/
  | interrupted
  deriving DecidableEq

/-- What an end of a pseudo-terminal has for its reads. -/
structure PtyEnd where
  ringBuffer : PtyBuffer := { data := fun _ => 0#8 }
  packetMode : Bool := false

/-- `PseudoTerminalEnd::read` (dev/tty/pty.cpp:24-43) up to where it returns, or `none` where it
    waits. -/
def PtyEnd.read (e : PtyEnd) (flags : U64) (count : ℕ) :
    Option (Except PtyErrno (List U8) × PtyEnd) :=
  if e.ringBuffer.isEmpty then
    if flags &&& O_NONBLOCK ≠ 0#64 then some (.error .wouldBlock, e) else none
  else if e.packetMode ∧ count > 0 then
    let (buf, ringBuffer) := e.ringBuffer.read (count - 1)
    some (.ok (0#8 :: buf), { e with ringBuffer })
  else
    let (buf, ringBuffer) := e.ringBuffer.read count
    some (.ok buf, { e with ringBuffer })

/-- A call of `put`, with the value of `end` (dev/tty/pty.cpp:59-60). -/
def put (s : Bool × PtyBuffer) (c : U8) : Bool × PtyBuffer :=
  let (n, b) := s.2.write [c]
  (s.1 || n == 0, b)

/-- The calls of `put` for one character. -/
def putAll (b : PtyBuffer) (cs : List U8) : Bool × PtyBuffer := cs.foldl put (false, b)

/-- The loop of `PseudoTerminalEnd::write` (dev/tty/pty.cpp:57-64), with the count that it
    returns. -/
def outputLoop (expand : U8 → List U8) (b : PtyBuffer) : List U8 → ℕ × PtyBuffer
  | [] => (0, b)
  | c :: cs =>
    let (failed, b) := putAll b (expand c)
    if failed then (0, b)
    else
      let (i, b) := outputLoop expand b cs
      (i + 1, b)

/-- `PseudoTerminalEnd::write` of the slave (dev/tty/pty.cpp:45-66) up to where it returns, or
    `none` where it waits. `b` is the buffer of the master. -/
def writeSlave (t : Terminal) (b : PtyBuffer) (flags : U64) (buf : List U8) :
    Option (Except PtyErrno ℕ × PtyBuffer) :=
  if b.isFull then
    if flags &&& O_NONBLOCK ≠ 0#64 then some (.error .wouldBlock, b) else none
  else
    let (i, b) := outputLoop t.processOutputChar b buf
    some (.ok i, b)

/-- What `cs` is to become. -/
def translate (t : Terminal) (cs : List U8) : List U8 := cs.flatMap t.processOutputChar

/-- No NL to be expanded stands where exactly one of `free` places is left. -/
def Clear (t : Terminal) (free : ℕ) (cs : List U8) : Prop :=
  ∀ before behind, cs = before ++ NL :: behind → t.termios.oflag &&& ONLCR ≠ 0#32 →
    (translate t before).length + 1 ≠ free

/-! ## One writer and the other end -/

/-- A writer that has `rest` left to write, and the master end. `accepted` and `taken` are what the
    writer was told to be written and what has been read; no call looks at them. -/
structure PtyRun where
  terminal : Terminal
  master : PtyEnd := {}
  accepted : List U8 := []
  rest : List U8
  taken : List U8 := []

inductive PtyOp
  /-- A write of the first `count` bytes of the rest. -/
  | write (flags : U64) (count : ℕ)
  /-- A read at the other end. -/
  | read (flags : U64) (count : ℕ)
  /-- `TIOCPKT`. -/
  | packetMode (on : Bool)

namespace PtyRun

/-- The bytes of the stream in what a read returns: the first one is not, in packet mode. -/
def payload (packetMode : Bool) (buf : List U8) : List U8 := if packetMode then buf.drop 1 else buf

/-- A call that waits, or that is interrupted, changes nothing; it goes on by the same step. -/
def step (s : PtyRun) : PtyOp → PtyRun
  | .write flags count =>
    match writeSlave s.terminal s.master.ringBuffer flags (s.rest.take count) with
    | some (.ok i, ringBuffer) => { s with
        master := { s.master with ringBuffer }
        accepted := s.accepted ++ s.rest.take i
        rest := s.rest.drop i }
    | _ => s
  | .read flags count =>
    match s.master.read flags count with
    | some (.ok buf, master) =>
      { s with master, taken := s.taken ++ payload s.master.packetMode buf }
    | _ => s
  | .packetMode on => { s with master := { s.master with packetMode := on } }

/-- What is in the buffer. -/
def pending (s : PtyRun) : List U8 :=
  (s.master.ringBuffer.read s.master.ringBuffer.dataCount.toNat).1

/-- What has been read and what is still to be read are the translation of what was accepted. -/
def Exact (s : PtyRun) : Prop := s.taken ++ s.pending = translate s.terminal s.accepted

/-- A write does not come to an NL to be expanded with exactly one place left. -/
def Fits (s : PtyRun) : PtyOp → Prop
  | .write _ count => Clear s.terminal s.master.ringBuffer.freeCount.toNat (s.rest.take count)
  | _ => True

/-- All writes of a run do so. -/
def AllFit (s : PtyRun) (ops : List PtyOp) : Prop := Along step Fits s ops

end PtyRun

/-! ## The loop -/

section Loop

variable {b : PtyBuffer} {written taken : List U8} {t : Terminal}

theorem capacity_lt : ptyCapacity < 2 ^ 64 := by decide

theorem capacity_dvd : ptyCapacity ∣ 2 ^ 64 := by decide

/-- The puts of one character append as much as there is room for. -/
theorem putAll_carries (h : b.Carries written taken) (cs : List U8) :
    (putAll b cs).2.Carries
        (written ++ cs.take (taken.length + ptyCapacity - written.length)) taken ∧
      ((putAll b cs).1 = true ↔ taken.length + ptyCapacity - written.length < cs.length) := by
  -- from any value of `end`
  suffices hfrom : ∀ failed : Bool, (cs.foldl put (failed, b)).2.Carries
        (written ++ cs.take (taken.length + ptyCapacity - written.length)) taken ∧
      ((cs.foldl put (failed, b)).1 = true ↔
        failed = true ∨ taken.length + ptyCapacity - written.length < cs.length) by
    obtain ⟨hcarries, hfailed⟩ := hfrom false
    exact ⟨hcarries, hfailed.trans (by simp)⟩
  induction cs generalizing b written with
  | nil =>
    intro failed
    rw [List.take_nil, List.append_nil]
    exact ⟨h, by simp⟩
  | cons c cs ih =>
    intro failed
    obtain ⟨hcount, hcarries⟩ := h.write capacity_lt [c] (.inl capacity_dvd)
    rw [List.length_singleton] at hcount
    have hstep : (c :: cs).foldl put (failed, b) =
        cs.foldl put (failed || (b.write [c]).1 == 0, (b.write [c]).2) := rfl
    rw [hstep]
    by_cases hroom : taken.length + ptyCapacity - written.length = 0
    · rw [hroom, Nat.min_zero] at hcount
      rw [hcount, List.take_zero, List.append_nil] at hcarries
      obtain ⟨hrest, hfailed⟩ := ih hcarries (failed || (b.write [c]).1 == 0)
      rw [hroom, List.take_zero] at hrest ⊢
      refine ⟨hrest, hfailed.trans ?_⟩
      rw [hcount]
      simp
    · rw [Nat.min_eq_left (by omega)] at hcount
      rw [hcount, show [c].take 1 = [c] from rfl] at hcarries
      obtain ⟨hrest, hfailed⟩ := ih hcarries (failed || (b.write [c]).1 == 0)
      have hless : taken.length + ptyCapacity - (written ++ [c]).length + 1 =
          taken.length + ptyCapacity - written.length := by
        rw [List.length_append, List.length_singleton]
        omega
      refine ⟨?_, hfailed.trans ?_⟩
      · rw [← hless, List.take_succ_cons, List.append_cons]
        exact hrest
      · rw [hcount, List.length_cons]
        have hone : (1 == 0) = false := rfl
        rw [hone, Bool.or_false]
        exact or_congr_right (by omega)

theorem length_processOutputChar (t : Terminal) (c : U8) :
    (t.processOutputChar c).length =
      if c = NL ∧ t.termios.oflag &&& ONLCR ≠ 0#32 then 2 else 1 := by
  unfold Terminal.processOutputChar
  split_ifs <;> rfl

theorem clear_nil (t : Terminal) (free : ℕ) : Clear t free [] := by
  intro before behind h
  exact absurd h.symm (List.append_ne_nil_of_right_ne_nil _ (List.cons_ne_nil _ _))

/-- Behind a character that finds room. -/
theorem clear_cons_iff {free : ℕ} {c : U8} {cs : List U8}
    (hroom : (t.processOutputChar c).length ≤ free) :
    Clear t free (c :: cs) ↔ Clear t (free - (t.processOutputChar c).length) cs := by
  have hlength := length_processOutputChar t c
  constructor
  · intro h before behind hcs honlcr
    have hnot := h (c :: before) behind (by rw [hcs]; rfl) honlcr
    unfold translate at hnot ⊢
    rw [List.flatMap_cons, List.length_append] at hnot
    omega
  · intro h before behind hcs honlcr
    cases before with
    | nil =>
      obtain ⟨rfl, -⟩ := List.cons.inj hcs
      rw [if_pos ⟨rfl, honlcr⟩] at hlength
      show 0 + 1 ≠ free
      omega
    | cons first before =>
      obtain ⟨rfl, rfl⟩ := List.cons.inj hcs
      have hnot := h before behind rfl honlcr
      unfold translate at hnot ⊢
      rw [List.flatMap_cons, List.length_append]
      omega

/-- At a character that finds too little room. -/
theorem clear_cons_full_iff {free : ℕ} {c : U8} {cs : List U8}
    (hroom : free < (t.processOutputChar c).length) : Clear t free (c :: cs) ↔ free = 0 := by
  have hlength := length_processOutputChar t c
  constructor
  · intro h
    by_contra hfree
    have hnl : c = NL ∧ t.termios.oflag &&& ONLCR ≠ 0#32 := by
      by_contra hone
      rw [if_neg hone] at hlength
      omega
    rw [if_pos hnl] at hlength
    have hnot := h [] cs (by rw [hnl.1]; rfl) hnl.2
    exact hnot (show 0 + 1 = free by omega)
  · rintro rfl before behind _ _
    exact Nat.succ_ne_zero _

/-- The loop appends the translation of what it accepts, and a stray CR exactly if it comes to an NL
    with one place left. -/
theorem outputLoop_carries (h : b.Carries written taken) (cs : List U8) :
    (outputLoop t.processOutputChar b cs).1 ≤ cs.length ∧
      ∃ stray, (outputLoop t.processOutputChar b cs).2.Carries
          (written ++ translate t (cs.take (outputLoop t.processOutputChar b cs).1) ++ stray)
          taken ∧
        (stray = [] ↔ Clear t (taken.length + ptyCapacity - written.length) cs) := by
  induction cs generalizing b written with
  | nil =>
    refine ⟨Nat.le_refl _, [], ?_, fun _ => clear_nil _ _, fun _ => rfl⟩
    show b.Carries (written ++ [] ++ []) taken
    rw [List.append_nil, List.append_nil]
    exact h
  | cons c cs ih =>
    obtain ⟨hput, hfailed⟩ := putAll_carries h (t.processOutputChar c)
    by_cases hroom : taken.length + ptyCapacity - written.length <
        (t.processOutputChar c).length
    · have hloop : outputLoop t.processOutputChar b (c :: cs) =
          (0, (putAll b (t.processOutputChar c)).2) := by
        show (if (putAll b (t.processOutputChar c)).1 then _ else _) = _
        rw [if_pos (hfailed.mpr hroom)]
        rfl
      rw [hloop]
      refine ⟨Nat.zero_le _, (t.processOutputChar c).take
        (taken.length + ptyCapacity - written.length), ?_, ?_⟩
      · show RingBuffer.Carries _ (written ++ [] ++ _) taken
        rw [List.append_nil]
        exact hput
      · rw [clear_cons_full_iff hroom, List.take_eq_nil_iff]
        have hne : t.processOutputChar c ≠ [] := by
          intro hnil
          rw [hnil] at hroom
          exact absurd hroom (Nat.not_lt_zero _)
        simp [hne]
    · have hloop : outputLoop t.processOutputChar b (c :: cs) =
          ((outputLoop t.processOutputChar (putAll b (t.processOutputChar c)).2 cs).1 + 1,
            (outputLoop t.processOutputChar (putAll b (t.processOutputChar c)).2 cs).2) := by
        show (if (putAll b (t.processOutputChar c)).1 then _ else _) = _
        rw [if_neg (fun hfail => hroom (hfailed.mp hfail))]
        rfl
      have hroom := Nat.le_of_not_lt hroom
      rw [List.take_of_length_le hroom] at hput
      obtain ⟨hle, stray, hcarries, hstray⟩ := ih hput
      have hfree : taken.length + ptyCapacity - (written ++ t.processOutputChar c).length =
          taken.length + ptyCapacity - written.length - (t.processOutputChar c).length := by
        rw [List.length_append]
        omega
      rw [hloop]
      refine ⟨Nat.succ_le_succ hle, stray, ?_, ?_⟩
      · rw [List.append_assoc written] at hcarries
        exact hcarries
      · rw [hstray, hfree, clear_cons_iff hroom]

end Loop

/-! ## Every run -/

namespace PtyRun

variable {s : PtyRun} {t : Terminal} {bytes : List U8} {fit : Prop}

/-- The buffer carries a stream, which is the translation of what was accepted if `fit` and is
    longer otherwise. -/
structure Tracks (t : Terminal) (bytes : List U8) (fit : Prop) (s : PtyRun) : Prop where
  terminal : s.terminal = t
  bytes : s.accepted ++ s.rest = bytes
  stream : ∃ written, s.master.ringBuffer.Carries written s.taken ∧
    (translate t s.accepted).length ≤ written.length ∧ (written = translate t s.accepted ↔ fit)

theorem Tracks.congr {fit' : Prop} (h : Tracks t bytes fit s) (hfit : fit ↔ fit') :
    Tracks t bytes fit' s := by
  obtain ⟨written, hcarries, hle, hiff⟩ := h.stream
  exact ⟨h.terminal, h.bytes, written, hcarries, hle, hiff.trans hfit⟩

theorem clear_zero (t : Terminal) (cs : List U8) : Clear t 0 cs := by
  intro before behind _ _
  exact Nat.succ_ne_zero _

theorem Tracks.write (h : Tracks t bytes fit s) (flags : U64) (count : ℕ) :
    Tracks t bytes (fit ∧ s.Fits (.write flags count)) (s.step (.write flags count)) := by
  obtain ⟨written, hcarries, hle, hiff⟩ := h.stream
  have hfree := hcarries.freeCount capacity_lt
  have hfull := hcarries.isFull_iff capacity_lt
  by_cases hnone : s.master.ringBuffer.isFull = true
  · have hzero : s.master.ringBuffer.freeCount.toNat = 0 := by
      have := hfull.mp hnone
      omega
    have hfits : s.Fits (.write flags count) := by
      show Clear s.terminal s.master.ringBuffer.freeCount.toNat _
      rw [hzero]
      exact clear_zero _ _
    have hstep : s.step (.write flags count) = s := by
      by_cases hblock : flags &&& O_NONBLOCK ≠ 0#64 <;> simp [step, writeSlave, hnone, hblock]
    rw [hstep]
    exact h.congr (and_iff_left hfits).symm
  · obtain ⟨hcount, stray, hafter, hstray⟩ :=
      outputLoop_carries (t := s.terminal) hcarries (s.rest.take count)
    rw [← hfree] at hstray
    generalize hloop : outputLoop s.terminal.processOutputChar s.master.ringBuffer
      (s.rest.take count) = r at hcount hafter
    obtain ⟨i, ringBuffer⟩ := r
    have hstep : s.step (.write flags count) = { s with
        master := { s.master with ringBuffer }
        accepted := s.accepted ++ s.rest.take i
        rest := s.rest.drop i } := by
      simp [step, writeSlave, hnone, hloop]
    have htake : (s.rest.take count).take i = s.rest.take i := by
      have hlen : i ≤ count := hcount.trans (by simp)
      rw [List.take_take, Nat.min_eq_left hlen]
    rw [htake, h.terminal] at hafter
    rw [hstep]
    refine ⟨h.terminal, ?_, _, hafter, ?_, ?_⟩
    · show s.accepted ++ s.rest.take i ++ s.rest.drop i = bytes
      rw [List.append_assoc, List.take_append_drop]
      exact h.bytes
    · show (translate t (s.accepted ++ s.rest.take i)).length ≤ _
      unfold translate at hle ⊢
      rw [List.flatMap_append, List.length_append, List.length_append, List.length_append]
      omega
    · show _ = translate t (s.accepted ++ s.rest.take i) ↔ fit ∧ Clear s.terminal _ _
      rw [← hstray, ← hiff]
      have happend : translate t (s.accepted ++ s.rest.take i) =
          translate t s.accepted ++ translate t (s.rest.take i) := List.flatMap_append
      rw [happend]
      constructor
      · intro hsame
        have hlength := congrArg List.length hsame
        simp only [List.length_append] at hlength
        have hnil : stray = [] := List.eq_nil_of_length_eq_zero (by omega)
        rw [hnil, List.append_nil] at hsame
        exact ⟨(List.append_inj' hsame rfl).1, hnil⟩
      · rintro ⟨rfl, rfl⟩
        rw [List.append_nil]

theorem Tracks.read (h : Tracks t bytes fit s) (flags : U64) (count : ℕ) :
    Tracks t bytes fit (s.step (.read flags count)) := by
  obtain ⟨written, hcarries, hle, hiff⟩ := h.stream
  by_cases hempty : s.master.ringBuffer.isEmpty = true
  · have hstep : s.step (.read flags count) = s := by
      by_cases hblock : flags &&& O_NONBLOCK ≠ 0#64 <;> simp [step, PtyEnd.read, hempty, hblock]
    rw [hstep]
    exact h
  · by_cases hpacket : s.master.packetMode = true ∧ count > 0
    · have hstep : s.step (.read flags count) = { s with
          master := { s.master with ringBuffer := (s.master.ringBuffer.read (count - 1)).2 }
          taken := s.taken ++ (s.master.ringBuffer.read (count - 1)).1 } := by
        simp [step, PtyEnd.read, hempty, hpacket, payload]
      rw [hstep]
      exact ⟨h.terminal, h.bytes, written, (hcarries.read capacity_lt (count - 1)).2, hle, hiff⟩
    · have hpayload : payload s.master.packetMode (s.master.ringBuffer.read count).1 =
          (s.master.ringBuffer.read count).1 := by
        unfold payload
        split_ifs with hmode
        · -- nothing is asked for
          have hcount : count = 0 := by
            by_contra hne
            exact hpacket ⟨hmode, Nat.pos_of_ne_zero hne⟩
          rw [(hcarries.read capacity_lt count).1, hcount]
          rfl
        · rfl
      have hstep : s.step (.read flags count) = { s with
          master := { s.master with ringBuffer := (s.master.ringBuffer.read count).2 }
          taken := s.taken ++ (s.master.ringBuffer.read count).1 } := by
        simp [step, PtyEnd.read, hempty, hpacket, hpayload]
      rw [hstep]
      exact ⟨h.terminal, h.bytes, written, (hcarries.read capacity_lt count).2, hle, hiff⟩

theorem Tracks.step (h : Tracks t bytes fit s) (o : PtyOp) :
    Tracks t bytes (fit ∧ s.Fits o) (s.step o) := by
  cases o with
  | write flags count => exact h.write flags count
  | read flags count => exact (h.read flags count).congr (and_iff_left trivial).symm
  | packetMode on =>
    exact Tracks.congr ⟨h.terminal, h.bytes, h.stream⟩ (and_iff_left trivial).symm

theorem tracks_run (t : Terminal) (bytes : List U8) (ops : List PtyOp) :
    Tracks t bytes (({ terminal := t, rest := bytes } : PtyRun).AllFit ops)
      (ops.foldl PtyRun.step { terminal := t, rest := bytes }) := by
  induction ops using List.reverseRecOn with
  | nil =>
    exact ⟨rfl, rfl, [], RingBuffer.carries_empty _, Nat.le_refl _,
      fun _ => along_nil, fun _ => rfl⟩
  | append_singleton ops o ih =>
    rw [List.foldl_append]
    exact (ih.step o).congr along_concat_iff.symm

theorem pending_eq {written : List U8} (h : s.master.ringBuffer.Carries written s.taken) :
    s.taken ++ s.pending = written := by
  obtain ⟨rest, rfl⟩ := h.taken
  have hcount := h.dataCount capacity_lt
  unfold pending
  rw [(h.read capacity_lt _).1, hcount, List.drop_left, List.length_append,
    Nat.add_sub_cancel_left, List.take_length]

/-- The stream is the translation of what was accepted exactly if all writes fit. -/
theorem Tracks.exact_iff (h : Tracks t bytes fit s) : s.Exact ↔ fit := by
  obtain ⟨written, hcarries, -, hiff⟩ := h.stream
  unfold Exact
  rw [pending_eq hcarries, h.terminal]
  exact hiff

/-! ## Runs to the end -/

/-- A read of everything leaves nothing in the buffer. -/
theorem Tracks.drained (h : Tracks t bytes fit s) :
    ([.packetMode false, .read 0#64 ptyCapacity].foldl PtyRun.step s).rest = s.rest ∧
      ([.packetMode false, .read 0#64 ptyCapacity].foldl PtyRun.step s).pending = [] := by
  obtain ⟨written, hcarries, -, -⟩ := h.stream
  have hroom := hcarries.room
  by_cases hempty : s.master.ringBuffer.isEmpty = true
  · have hstep : [PtyOp.packetMode false, .read 0#64 ptyCapacity].foldl PtyRun.step s =
        { s with master := { s.master with packetMode := false } } := by
      simp [PtyRun.step, PtyEnd.read, hempty]
    rw [hstep]
    have hpending := pending_eq hcarries
    rw [(hcarries.isEmpty_iff capacity_lt).mp hempty] at hpending
    exact ⟨rfl, List.append_right_eq_self.mp hpending⟩
  · have hstep : [PtyOp.packetMode false, .read 0#64 ptyCapacity].foldl PtyRun.step s = { s with
        master := ⟨(s.master.ringBuffer.read ptyCapacity).2, false⟩
        taken := s.taken ++ (s.master.ringBuffer.read ptyCapacity).1 } := by
      simp [PtyRun.step, PtyEnd.read, hempty, payload]
    obtain ⟨hread, hafter⟩ := hcarries.read capacity_lt ptyCapacity
    rw [hstep]
    refine ⟨rfl, ?_⟩
    have hpending := pending_eq (s := { s with
        master := ⟨(s.master.ringBuffer.read ptyCapacity).2, false⟩
        taken := s.taken ++ (s.master.ringBuffer.read ptyCapacity).1 }) hafter
    have hall : s.taken ++ (s.master.ringBuffer.read ptyCapacity).1 = written := by
      obtain ⟨behind, rfl⟩ := hcarries.taken
      rw [List.length_append] at hroom
      rw [hread, List.drop_left, List.take_of_length_le (by omega)]
    exact List.append_right_eq_self.mp (hpending.trans hall.symm)

/-- With an empty buffer one character is accepted. -/
theorem Tracks.write_one (h : Tracks t bytes fit s) (hpending : s.pending = []) {c : U8}
    {cs : List U8} (hrest : s.rest = c :: cs) : (s.step (.write 0#64 1)).rest = cs := by
  obtain ⟨written, hcarries, -, -⟩ := h.stream
  have hall := pending_eq hcarries
  rw [hpending, List.append_nil] at hall
  have hroom : s.taken.length + ptyCapacity - written.length = ptyCapacity := by
    rw [hall]
    omega
  have hfull : ¬s.master.ringBuffer.isFull = true := by
    rw [hcarries.isFull_iff capacity_lt, hall]
    show ¬written.length = written.length + 0x1000
    omega
  have hput : ¬(putAll s.master.ringBuffer (s.terminal.processOutputChar c)).1 = true := by
    rw [(putAll_carries hcarries _).2, hroom, length_processOutputChar]
    split_ifs <;> decide
  simp [PtyRun.step, writeSlave, hfull, hrest, outputLoop, hput]

theorem Tracks.exists_end (h : Tracks t bytes fit s) :
    ∃ ops : List PtyOp, (ops.foldl PtyRun.step s).rest = [] ∧
      (ops.foldl PtyRun.step s).pending = [] := by
  generalize hrest : s.rest = rest
  induction rest generalizing s fit with
  | nil =>
    obtain ⟨hsame, hpending⟩ := h.drained
    exact ⟨_, hsame.trans hrest, hpending⟩
  | cons c cs ih =>
    obtain ⟨hsame, hpending⟩ := h.drained
    have hdrained := (h.step (.packetMode false)).step (.read 0#64 ptyCapacity)
    have hnext := hdrained.write_one hpending (hsame.trans hrest)
    obtain ⟨ops, hend, hnone⟩ := ih (hdrained.step (.write 0#64 1)) hnext
    exact ⟨.packetMode false :: .read 0#64 ptyCapacity :: .write 0#64 1 :: ops, hend, hnone⟩

end PtyRun

/-- **Main theorem.** In every run the stream is the translation of what was accepted exactly if no
    write came to an NL to be expanded with exactly one place left; so, when everything has been
    accepted and read, what was read is the translation of all bytes exactly in these runs. -/
theorem pty_write_exact_iff (t : Terminal) (bytes : List U8) (ops : List PtyOp) :
    let start : PtyRun := { terminal := t, rest := bytes }
    let s := ops.foldl PtyRun.step start
    (s.Exact ↔ start.AllFit ops) ∧ (s.rest = [] → s.pending = [] →
      (s.taken = translate t bytes ↔ start.AllFit ops)) := by
  intro start s
  have hs := PtyRun.tracks_run t bytes ops
  refine ⟨hs.exact_iff, fun hrest hpending => ?_⟩
  rw [← hs.exact_iff]
  have hbytes := hs.bytes
  rw [show (ops.foldl PtyRun.step start).rest = [] from hrest, List.append_nil] at hbytes
  unfold PtyRun.Exact
  rw [show (ops.foldl PtyRun.step start).pending = [] from hpending, List.append_nil, hbytes,
    hs.terminal]

/-- NL comes to a buffer with one place left: what the other end reads has one CR too many. -/
theorem stray_carriage_return : ∃ (t : Terminal) (bytes : List U8) (ops : List PtyOp),
    (ops.foldl PtyRun.step { terminal := t, rest := bytes }).rest = [] ∧
      (ops.foldl PtyRun.step { terminal := t, rest := bytes }).pending = [] ∧
      (ops.foldl PtyRun.step { terminal := t, rest := bytes }).taken ≠ translate t bytes := by
  let t : Terminal :=
    { termios := { iflag := 0#32, oflag := ONLCR, lflag := 0#32, cc := fun _ => 0#8 } }
  obtain ⟨n, hn⟩ : ∃ n, n + 1 = ptyCapacity := ⟨4095, rfl⟩
  let bytes : List U8 := List.replicate n 0x61#8 ++ [NL]
  have hone := PtyRun.tracks_run t bytes [.write 0#64 (n + 1)]
  obtain ⟨ops, hrest, hpending⟩ := hone.exists_end
  have hs := PtyRun.tracks_run t bytes (.write 0#64 (n + 1) :: ops)
  refine ⟨t, bytes, .write 0#64 (n + 1) :: ops, hrest, hpending, fun htaken => ?_⟩
  have hexact : (List.foldl PtyRun.step { terminal := t, rest := bytes }
      (.write 0#64 (n + 1) :: ops)).Exact := by
    have hbytes := hs.bytes
    rw [show (List.foldl PtyRun.step _ (.write 0#64 (n + 1) :: ops)).rest = [] from hrest,
      List.append_nil] at hbytes
    unfold PtyRun.Exact
    rw [show (List.foldl PtyRun.step _ (.write 0#64 (n + 1) :: ops)).pending = [] from hpending,
      List.append_nil, hs.terminal, hbytes]
    exact htaken
  have hfits := hs.exact_iff.mp hexact [] (.write 0#64 (n + 1)) ops rfl
  -- all places but one are taken before NL
  refine hfits (List.replicate n 0x61#8) [] ?_ (show ONLCR &&& ONLCR ≠ 0#32 by decide) ?_
  · exact List.take_of_length_le (by simp [bytes])
  · have hlength : (translate t (List.replicate n 0x61#8)).length = n := by
      unfold translate
      rw [List.flatMap_replicate, show t.processOutputChar 0x61#8 = [0x61#8] by decide]
      simp
    have hfree := RingBuffer.Carries.freeCount capacity_lt
      (RingBuffer.carries_empty fun _ => 0#8 : RingBuffer.Carries ({ data := _ } : PtyBuffer) _ _)
    rw [List.length_nil, Nat.zero_add, Nat.sub_zero] at hfree
    show (translate t (List.replicate n 0x61#8)).length + 1 = _
    rw [hlength, hn]
    exact hfree.symm

end Fishix.Dev.Tty
