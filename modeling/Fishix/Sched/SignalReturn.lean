import Fishix.Common.ByteMemory
import Fishix.Sched.Machine
import Fishix.Sched.SignalFrame

/-!
# Signal delivery and `rt_sigreturn` in memory

`dispatch_pending_signal` puts the frame of a handler and the extended state behind it on the user's
stack (userland/signal.cpp:119-158); `rt_sigreturn` finds the frame 8 bytes below the stack pointer
of the system call (userland/signal.cpp:189-200), and `return_from_signal` reads it back
(userland/signal.cpp:174-187, sched/context.cpp). `struct sigcontext` and `siginfo_t` are those of
Linux on x86-64.

* `frame_placement`: where the frame and the extended state lie.
* `readUContext_writeFrame`: what is read of a frame that has been written.
* `sigreturn_restores`: a handler that leaves its frame alone is not noticed.
-/

namespace Fishix.Sched

open Kernel ByteMemory
open BitVec (ofNat)

/-! ## Where a frame lies -/

/-- The address below which the frame of a handler and the extended state are put
    (userland/signal.cpp:121-126): the top of the alternate stack, or the stack pointer. -/
def stackStart (x : Thread) (action : KernelSigaction) (rsp : U64) : U64 :=
  if x.UsesAltStack action then x.signalAltStack.sp + x.signalAltStack.size else rsp

/-- The red zone is kept on the normal stack. -/
def redZone (x : Thread) (action : KernelSigaction) : ℕ := if x.UsesAltStack action then 0 else 128

/-- `fpstate` (userland/signal.cpp:134). -/
def fpstateAddr (frame : U64) : U64 := alignUp (frame + signalFrameSize) 64#64

theorem toNat_alignUp_mod (i : U64) : (alignUp i 64#64).toNat % 64 = 0 := by
  unfold alignUp
  split_ifs with h
  · rw [BitVec.toNat_mul]
    show _ * 64 % 2 ^ 64 % 64 = 0
    omega
  · have h0 := congrArg BitVec.toNat (not_not.mp h)
    simpa using h0

theorem handlerStack_mod (x : Thread) (action : KernelSigaction) (rsp size : U64) :
    (handlerStack x action rsp size).toNat % 16 = 8 := by
  have hround : ∀ i : U64, (alignDown i 16#64 - 8#64).toNat % 16 = 8 := by
    intro i
    rw [BitVec.toNat_sub, toNat_alignDown_eq]
    show (2 ^ 64 - 8 + i.toNat / 16 * 16) % 2 ^ 64 % 16 = 8
    omega
  unfold handlerStack
  exact hround _

/-- **Main theorem.** A frame whose computation does not wrap around lies 8 bytes off a multiple
    of 16, the extended state on a multiple of 64, they do not overlap, and both lie below the stack
    pointer and the red zone, or below the top of the alternate stack. -/
theorem frame_placement (x : Thread) (action : KernelSigaction) (rsp size : U64)
    (hroom : 0 ≤ UserThread.frameAddr
      ((stackStart x action rsp).toNat - redZone x action) size.toNat) :
    let frame := handlerStack x action rsp size
    let fpstate := fpstateAddr frame
    frame.toNat % 16 = 8 ∧ fpstate.toNat % 64 = 0 ∧
      Disjoint (Set.Ico frame.toNat (frame.toNat + 440))
        (Set.Ico fpstate.toNat (fpstate.toNat + size.toNat)) ∧
      frame.toNat + 440 + redZone x action ≤ (stackStart x action rsp).toNat ∧
      fpstate.toNat + size.toNat + redZone x action ≤ (stackStart x action rsp).toNat := by
  intro frame fpstate
  have hsize : ofNat 64 size.toNat = size := by
    rw [BitVec.ofNat_toNat, BitVec.setWidth_eq]
  have hred : redZone x action ≤ (stackStart x action rsp).toNat := by
    unfold UserThread.frameAddr at hroom
    omega
  -- the address that the three alignments start from
  obtain ⟨top, htop, hframe⟩ : ∃ top : U64,
      top.toNat = (stackStart x action rsp).toNat - redZone x action ∧
        frame = alignDown (alignDown (top - size) 64#64 - signalFrameSize) 16#64 - 8#64 := by
    by_cases hused : x.UsesAltStack action
    · refine ⟨x.signalAltStack.sp + x.signalAltStack.size, ?_, ?_⟩
      · unfold stackStart redZone
        rw [if_pos hused, if_pos hused, Nat.sub_zero]
      · show handlerStack _ _ _ _ = _
        unfold handlerStack
        rw [if_pos (show _ ∧ _ from hused)]
    · refine ⟨rsp - 128#64, ?_, ?_⟩
      · unfold stackStart redZone at hred ⊢
        rw [if_neg hused, if_neg hused] at hred ⊢
        rw [BitVec.toNat_sub_of_le (x := rsp) (y := 128#64) (BitVec.le_def.mpr hred)]
        rfl
      · show handlerStack _ _ _ _ = _
        unfold handlerStack
        rw [if_neg (show ¬(_ ∧ _) from hused)]
  have hbottom : ((0 : ℕ) : ℤ) ≤ UserThread.frameAddr top.toNat size.toNat := by
    rw [htop, Nat.cast_sub hred]
    exact hroom
  obtain ⟨-, -, hstop, hgap⟩ := UserThread.frame_bounds hbottom
  rw [hsize, ← hframe] at hstop hgap
  have hstop' : fpstate.toNat + size.toNat ≤ top.toNat := hstop
  have hgap' : frame.toNat + 440 ≤ fpstate.toNat := hgap
  refine ⟨handlerStack_mod x action rsp size, toNat_alignUp_mod _, ?_, by omega, by omega⟩
  rw [Set.Ico_disjoint_Ico]
  omega

/-- 832 bytes of extended state, on a stack that is not aligned. -/
theorem frame_placement_unaligned : ∃ frame : U64,
    frame = handlerStack { process := 1, state := .ready } {} 0x7ffffe7#64 832#64 ∧
      frame.toNat % 16 = 8 ∧ (fpstateAddr frame).toNat % 64 = 0 ∧
      Disjoint (Set.Ico frame.toNat (frame.toNat + 440))
        (Set.Ico (fpstateAddr frame).toNat ((fpstateAddr frame).toNat + 832)) := by
  obtain ⟨hframe, hfpstate, happart, -⟩ := frame_placement { process := 1, state := .ready } {}
    0x7ffffe7#64 832#64 (by decide)
  exact ⟨_, rfl, hframe, hfpstate, happart⟩

/-! ## What stands in a frame -/

/-- The stores of `to_ucontext` to `uc_mcontext` (sched/context.cpp:30-47), each at its offset from
    the frame: `ucontext` is at 8, and `uc_mcontext` at 40 there. -/
def mcontextWords (s : InterruptState) : List (ℕ × U64) :=
  [(104, s.r15), (96, s.r14), (88, s.r13), (80, s.r12), (72, s.r11), (64, s.r10), (56, s.r9),
    (48, s.r8), (128, s.rbp), (112, s.rdi), (120, s.rsi), (144, s.rdx), (160, s.rcx), (136, s.rbx),
    (152, s.rax), (176, s.rip), (168, s.rsp), (184, s.rflags)]

/-- `to_ucontext` (sched/context.cpp:28-49), to the `ucontext` of the frame. -/
def toUcontext (m : ByteMemory) (s : InterruptState) (extendedState : ExtendedState)
    (frame : U64) : ByteMemory :=
  let m := m.storeWords frame (mcontextWords s)
  m.store (m.loadWord (frame + 232#64)) extendedState

/-- The stores to `siginfo` (userland/signal.cpp:146-158), from offset 312 of the frame on. -/
def writeSiginfo (m : ByteMemory) (frame : U64) (signal : Signal) (err cr2 : U64) (pid : Pid) :
    ByteMemory :=
  let int (m : ByteMemory) (offset : ℕ) (x : U64) :=
    m.store (frame + ofNat 64 offset) ((wordBytes x).take 4)
  let m := int m 312 (ofNat 64 signal)
  if signal = SIGSEGV then
    let m := int m 316 14#64
    let m := int m 320 (if err &&& 1#64 ≠ 0#64 then 2#64 else 1#64)
    m.storeWord (frame + 328#64) cr2
  else if signal = 33 then
    let m := int m 328 (ofNat 64 pid)
    int m 320 (-6#64)
  else m

/-- The stores to a frame behind `to_ucontext` (userland/signal.cpp:139-158). -/
def finishFrame (m : ByteMemory) (x : Thread) (action : KernelSigaction) (signal : Signal)
    (cr2 frame : U64) : ByteMemory :=
  let m := m.storeWord (frame + 168#64) x.gprState.rsp
  let m := m.storeWord (frame + 8#64) 0#64
  let m := m.storeWord (frame + 16#64) 0#64
  let m := m.storeWord (frame + 304#64) x.signalMask
  let m := m.storeWord frame action.restorer
  writeSiginfo m frame signal x.gprState.err cr2 x.process

/-- The stores of `dispatch_pending_signal` for a handler (userland/signal.cpp:133-158). -/
def writeFrame (x : Thread) (action : KernelSigaction) (signal : Signal) (cr2 : U64)
    (m : ByteMemory) : ByteMemory :=
  let extendedState := x.extendedState.getD []
  let frame := handlerStack x action x.gprState.rsp (ofNat 64 extendedState.length)
  let m := m.store frame (List.replicate 440 0#8)
  let m := m.storeWord (frame + 232#64) (fpstateAddr frame)
  let m := toUcontext m { x.gprState with rsp := frame } extendedState frame
  finishFrame m x action signal cr2 frame

/-- What `return_from_signal` reads of a frame (userland/signal.cpp:179-180,
    sched/context.cpp:5-26), with `extended_state_size`. -/
def readUContext (m : ByteMemory) (frame : U64) (size : ℕ) : UContext where
  gpr :=
    { r15 := m.loadWord (frame + 104#64), r14 := m.loadWord (frame + 96#64)
      r13 := m.loadWord (frame + 88#64), r12 := m.loadWord (frame + 80#64)
      r11 := m.loadWord (frame + 72#64), r10 := m.loadWord (frame + 64#64)
      r9 := m.loadWord (frame + 56#64), r8 := m.loadWord (frame + 48#64)
      rbp := m.loadWord (frame + 128#64), rdi := m.loadWord (frame + 112#64)
      rsi := m.loadWord (frame + 120#64), rdx := m.loadWord (frame + 144#64)
      rcx := m.loadWord (frame + 160#64), rbx := m.loadWord (frame + 136#64)
      rax := m.loadWord (frame + 152#64), rip := m.loadWord (frame + 176#64)
      rsp := m.loadWord (frame + 168#64), rflags := m.loadWord (frame + 184#64) }
  fpstate := m.load (m.loadWord (frame + 232#64)) size
  sigmask := m.loadWord (frame + 304#64)

/-- The stores of `dispatch_pending_signal` to user memory. -/
def Kernel.dispatchStores (k : Kernel) (t : Tid) (cr2 : U64) (m : ByteMemory) : ByteMemory :=
  match lowestSignal (k.acceptedSignals t) with
  | none => m
  | some signal =>
    let action := (k.process (k.thread t).process).signalActions signal
    match action.handler with
    | .ign => m
    | .dfl => m
    | .function _ =>
      if action.restorer = 0#64 then m
      else writeFrame { k.thread t with gprState := restartSyscall (k.thread t) action } action
        signal cr2 m

/-! ## Loads from a frame -/

section Frame

variable {m : ByteMemory} {frame b : U64} {i j n l : ℕ}

/-- The extended state begins shortly behind the frame, also where addresses wrap around. -/
theorem fpstateAddr_eq (frame : U64) :
    ∃ d, 440 ≤ d ∧ d < 504 ∧ fpstateAddr frame = frame + ofNat 64 d := by
  have h440 : signalFrameSize = ofNat 64 440 := rfl
  have h64 : (64#64).toNat = 64 := rfl
  have h1 : (1#64).toNat = 1 := rfl
  unfold fpstateAddr alignUp
  rw [h440]
  generalize hi : frame + ofNat 64 440 = i
  split_ifs with h
  · refine ⟨504 - i.toNat % 64, by omega, ?_, ?_⟩
    · have hne : i.toNat % 64 ≠ 0 := by
        intro h0
        apply h
        apply BitVec.eq_of_toNat_eq
        simpa using h0
      omega
    · have hframe : frame = i - ofNat 64 440 := by rw [← hi, add_sub_cancel_right]
      apply BitVec.eq_of_toNat_eq
      have hup : ((i / 64#64 + 1#64) * 64#64).toNat =
          (i.toNat / 64 + 1) % 2 ^ 64 * 64 % 2 ^ 64 := by
        rw [BitVec.toNat_mul, BitVec.toNat_add, BitVec.toNat_udiv, h64, h1]
      rw [hup, hframe, BitVec.toNat_add, BitVec.toNat_sub, BitVec.toNat_ofNat, BitVec.toNat_ofNat]
      have := i.isLt
      omega
  · exact ⟨440, by omega, by omega, hi.symm⟩

theorem apart_fpstate {size : ℕ} (hsize : size < 2 ^ 63) :
    Apart (fpstateAddr frame) size frame 440 := by
  obtain ⟨d, hlow, hhigh, he⟩ := fpstateAddr_eq frame
  have h : Apart (frame + ofNat 64 d) size (frame + ofNat 64 0) 440 :=
    apart_of_offsets (by omega) (by omega) (.inr (by omega))
  rw [he]
  simpa using h

theorem mcontextWords_places (s : InterruptState) :
    (mcontextWords s).Pairwise fun v w => v.1 + 8 ≤ w.1 ∨ w.1 + 8 ≤ v.1 := by
  have h : ((mcontextWords s).map Prod.fst).Pairwise fun v w => v + 8 ≤ w ∨ w + 8 ≤ v := by
    show List.Pairwise _ [104, 96, 88, 80, 72, 64, 56, 48, 128, 112, 120, 144, 160, 136, 152, 176,
      168, 184]
    decide
  exact List.pairwise_map.mp h

theorem mcontextWords_range {s : InterruptState} {w : ℕ × U64} (hw : w ∈ mcontextWords s) :
    48 ≤ w.1 ∧ w.1 + 8 ≤ 192 ∧ w.1 % 8 = 0 := by
  have h : ∀ i ∈ (mcontextWords s).map Prod.fst, 48 ≤ i ∧ i + 8 ≤ 192 ∧ i % 8 = 0 := by
    show ∀ i ∈ [104, 96, 88, 80, 72, 64, 56, 48, 128, 112, 120, 144, 160, 136, 152, 176, 168,
      184], _
    decide
  exact h _ (List.mem_map_of_mem hw)

theorem loadWord_mcontext_behind {s : InterruptState} (hi : 192 ≤ i) (hi' : i + 8 ≤ 440) :
    (m.storeWords frame (mcontextWords s)).loadWord (frame + ofNat 64 i) =
      m.loadWord (frame + ofNat 64 i) := by
  refine loadWord_storeWords_of_apart ?_
  intro w hw
  have := mcontextWords_range hw
  exact apart_of_offsets (by omega) (by omega) (.inr (by omega))

theorem toUcontext_eq {s : InterruptState} {e : ExtendedState}
    (h : m.loadWord (frame + 232#64) = fpstateAddr frame) :
    toUcontext m s e frame =
      (m.storeWords frame (mcontextWords s)).store (fpstateAddr frame) e := by
  unfold toUcontext
  have hload : (m.storeWords frame (mcontextWords s)).loadWord (frame + ofNat 64 232) =
      m.loadWord (frame + ofNat 64 232) :=
    loadWord_mcontext_behind (by omega) (by omega)
  have hload' : (m.storeWords frame (mcontextWords s)).loadWord (frame + 232#64) =
      m.loadWord (frame + 232#64) := hload
  simp only [hload', h]

theorem load_writeSiginfo {signal : Signal} {err cr2 : U64} {pid : Pid}
    (h : Apart b n (frame + 312#64) 128) :
    (writeSiginfo m frame signal err cr2 pid).load b n = m.load b n := by
  have hpart : ∀ o l : ℕ, 312 ≤ o → o + l ≤ 440 → Apart b n (frame + ofNat 64 o) l := by
    intro o l ho hl
    have hsplit : frame + ofNat 64 o = frame + 312#64 + ofNat 64 (o - 312) := by
      rw [BitVec.add_assoc, ← BitVec.ofNat_add, Nat.add_sub_cancel' ho]
    rw [hsplit]
    exact h.part (by omega)
  have hint : ∀ (m : ByteMemory) (o : ℕ) (x : U64), 312 ≤ o → o + 4 ≤ 440 →
      (m.store (frame + ofNat 64 o) ((wordBytes x).take 4)).load b n = m.load b n :=
    fun m o x ho hl => load_store_of_apart (hpart o 4 ho hl)
  unfold writeSiginfo
  simp only
  by_cases hsegv : signal = SIGSEGV
  · rw [if_pos hsegv, load_storeWord_of_apart (hpart 328 8 (by omega) (by omega)),
      hint _ 320 _ (by omega) (by omega), hint _ 316 _ (by omega) (by omega),
      hint _ 312 _ (by omega) (by omega)]
  · rw [if_neg hsegv]
    by_cases hsetxid : signal = 33
    · rw [if_pos hsetxid, hint _ 320 _ (by omega) (by omega), hint _ 328 _ (by omega) (by omega),
        hint _ 312 _ (by omega) (by omega)]
    · rw [if_neg hsetxid, hint _ 312 _ (by omega) (by omega)]

section Finish

variable {x : Thread} {action : KernelSigaction} {signal : Signal} {cr2 : U64}

/-- Outside of the frame nothing is written any more. -/
theorem load_finishFrame (h : Apart b n frame 440) :
    (finishFrame m x action signal cr2 frame).load b n = m.load b n := by
  have hpart : ∀ o : ℕ, o + 8 ≤ 440 → Apart b n (frame + ofNat 64 o) 8 :=
    fun o ho => h.part ho
  have hbase : Apart b n frame 8 := by simpa using hpart 0 (by omega)
  unfold finishFrame
  simp only
  rw [load_writeSiginfo (h.part (j := 312) (by omega)), load_storeWord_of_apart hbase,
    load_storeWord_of_apart (hpart 304 (by omega)), load_storeWord_of_apart (hpart 16 (by omega)),
    load_storeWord_of_apart (hpart 8 (by omega)), load_storeWord_of_apart (hpart 168 (by omega))]

theorem apart_words (hi : i + 8 ≤ 440) (hj : j + 8 ≤ 440) (h : i + 8 ≤ j ∨ j + 8 ≤ i) :
    Apart (frame + ofNat 64 i) 8 (frame + ofNat 64 j) 8 :=
  apart_of_offsets (by omega) (by omega) h

theorem apart_restorer (hi : 8 ≤ i) (hi' : i + 8 ≤ 440) :
    Apart (frame + ofNat 64 i) 8 frame 8 := by
  have h : Apart (frame + ofNat 64 i) 8 (frame + ofNat 64 0) 8 :=
    apart_words hi' (by omega) (.inr (by omega))
  simpa using h

theorem loadWord_writeSiginfo {err : U64} {pid : Pid} (hi : i + 8 ≤ 312) :
    (writeSiginfo m frame signal err cr2 pid).loadWord (frame + ofNat 64 i) =
      m.loadWord (frame + ofNat 64 i) := by
  unfold loadWord
  rw [load_writeSiginfo]
  exact apart_of_offsets (by omega) (by omega) (.inl hi)

/-- A word of `mcontext` other than `rsp`. -/
theorem loadWord_finishFrame (hi : 24 ≤ i) (hi' : i + 8 ≤ 304) (hrsp : i + 8 ≤ 168 ∨ 176 ≤ i) :
    (finishFrame m x action signal cr2 frame).loadWord (frame + ofNat 64 i) =
      m.loadWord (frame + ofNat 64 i) := by
  unfold finishFrame
  simp only
  rw [loadWord_writeSiginfo (by omega),
    loadWord_storeWord_of_apart (apart_restorer (by omega) (by omega)),
    loadWord_storeWord_of_apart (apart_words (j := 304) (by omega) (by omega) (.inl hi')),
    loadWord_storeWord_of_apart (apart_words (j := 16) (by omega) (by omega) (.inr hi)),
    loadWord_storeWord_of_apart (apart_words (j := 8) (by omega) (by omega) (.inr (by omega))),
    loadWord_storeWord_of_apart (apart_words (j := 168) (by omega) (by omega) hrsp)]

theorem loadWord_finishFrame_rsp :
    (finishFrame m x action signal cr2 frame).loadWord (frame + 168#64) = x.gprState.rsp := by
  unfold finishFrame
  simp only
  rw [loadWord_writeSiginfo (i := 168) (by omega),
    loadWord_storeWord_of_apart (apart_restorer (i := 168) (by omega) (by omega)),
    loadWord_storeWord_of_apart (apart_words (i := 168) (j := 304) (by omega) (by omega)
      (.inl (by omega))),
    loadWord_storeWord_of_apart (apart_words (i := 168) (j := 16) (by omega) (by omega)
      (.inr (by omega))),
    loadWord_storeWord_of_apart (apart_words (i := 168) (j := 8) (by omega) (by omega)
      (.inr (by omega))), loadWord_storeWord]

theorem loadWord_finishFrame_sigmask :
    (finishFrame m x action signal cr2 frame).loadWord (frame + 304#64) = x.signalMask := by
  unfold finishFrame
  simp only
  rw [loadWord_writeSiginfo (i := 304) (by omega),
    loadWord_storeWord_of_apart (apart_restorer (i := 304) (by omega) (by omega)),
    loadWord_storeWord]

end Finish

end Frame

/-! ## Reading a frame -/

/-- The general registers, `rip`, `rsp` and `rflags`. -/
def InterruptState.general (s : InterruptState) : InterruptState :=
  { s with ds := 0#64, es := 0#64, err := 0#64, cs := 0#64, ss := 0#64 }

section Read

variable {m : ByteMemory} {x : Thread} {action : KernelSigaction} {signal : Signal} {cr2 : U64}
  {e : ExtendedState}

/-- What has been put into a frame is read. -/
theorem readUContext_writeFrame (hext : x.extendedState = some e) (hsize : e.length < 2 ^ 63) :
    readUContext (writeFrame x action signal cr2 m)
        (handlerStack x action x.gprState.rsp (ofNat 64 e.length)) e.length =
      { gpr := x.gprState.general, fpstate := e, sigmask := x.signalMask } := by
  unfold writeFrame
  simp only [hext, Option.getD_some]
  generalize handlerStack x action x.gprState.rsp (ofNat 64 e.length) = frame
  have hpointer : ((m.store frame (List.replicate 440 0#8)).storeWord (frame + 232#64)
      (fpstateAddr frame)).loadWord (frame + 232#64) = fpstateAddr frame := loadWord_storeWord _
  generalize (m.store frame (List.replicate 440 0#8)).storeWord (frame + 232#64)
    (fpstateAddr frame) = m1 at hpointer
  rw [toUcontext_eq hpointer]
  have hfar : Apart (fpstateAddr frame) e.length frame 440 := apart_fpstate hsize
  generalize hm2 : m1.storeWords frame (mcontextWords { x.gprState with rsp := frame }) = m2
  -- the words of the frame, past the extended state
  have hpast : ∀ i, 24 ≤ i → i + 8 ≤ 304 → (i + 8 ≤ 168 ∨ 176 ≤ i) →
      (finishFrame (m2.store (fpstateAddr frame) e) x action signal cr2 frame).loadWord
        (frame + ofNat 64 i) = m2.loadWord (frame + ofNat 64 i) := by
    intro i hi hi' hrsp
    rw [loadWord_finishFrame hi hi' hrsp]
    unfold loadWord
    rw [load_store_of_apart ((hfar.part (by omega)).symm (by omega))]
  have hwords : ∀ w ∈ mcontextWords { x.gprState with rsp := frame }, w.1 ≠ 168 →
      (finishFrame (m2.store (fpstateAddr frame) e) x action signal cr2 frame).loadWord
        (frame + ofNat 64 w.1) = w.2 := by
    intro w hw hne
    have hrange := mcontextWords_range hw
    rw [hpast w.1 (by omega) (by omega) (by omega), ← hm2]
    exact loadWord_storeWords hw (fun v hv => by have := mcontextWords_range hv; omega)
      (mcontextWords_places _)
  have hfpstate : (finishFrame (m2.store (fpstateAddr frame) e) x action signal cr2 frame).loadWord
      (frame + 232#64) = fpstateAddr frame := by
    rw [hpast 232 (by omega) (by omega) (by omega), ← hm2,
      loadWord_mcontext_behind (by omega) (by omega)]
    exact hpointer
  have hextended : (finishFrame (m2.store (fpstateAddr frame) e) x action signal cr2 frame).load
      (fpstateAddr frame) e.length = e := by
    rw [load_finishFrame hfar, load_store (by omega)]
  simp only [mcontextWords, List.forall_mem_cons, ne_eq, Nat.reduceEqDiff, not_false_eq_true,
    forall_const] at hwords
  obtain ⟨h15, h14, h13, h12, h11, h10, h9, h8, hbp, hdi, hsi, hdx, hcx, hbx, hax, hip, -, hfl,
    -⟩ := hwords
  unfold readUContext InterruptState.general
  rw [h15, h14, h13, h12, h11, h10, h9, h8, hbp, hdi, hsi, hdx, hcx, hbx, hax, hip, hfl,
    loadWord_finishFrame_rsp, loadWord_finishFrame_sigmask, hfpstate, hextended]

/-- Neither the frame has changed nor the extended state that it points to. -/
structure FrameKept (frame : U64) (size : ℕ) (m m' : ByteMemory) : Prop where
  words : ∀ i < 440, m' (frame + ofNat 64 i) = m (frame + ofNat 64 i)
  extended : ∀ i < size, m' (m.loadWord (frame + 232#64) + ofNat 64 i) =
    m (m.loadWord (frame + 232#64) + ofNat 64 i)

theorem FrameKept.refl (frame : U64) (size : ℕ) (m : ByteMemory) : FrameKept frame size m m :=
  ⟨fun _ _ => rfl, fun _ _ => rfl⟩

theorem FrameKept.readUContext {frame : U64} {size : ℕ} {m' : ByteMemory}
    (h : FrameKept frame size m m') : readUContext m' frame size = readUContext m frame size := by
  have hword : ∀ i, i + 8 ≤ 440 →
      m'.loadWord (frame + ofNat 64 i) = m.loadWord (frame + ofNat 64 i) := by
    intro i hi
    refine congrArg wordOf (load_congr ?_)
    intro l hl
    rw [BitVec.add_assoc, ← BitVec.ofNat_add]
    exact h.words (i + l) (by omega)
  unfold Sched.readUContext
  rw [hword 104 (by omega), hword 96 (by omega), hword 88 (by omega), hword 80 (by omega),
    hword 72 (by omega), hword 64 (by omega), hword 56 (by omega), hword 48 (by omega),
    hword 128 (by omega), hword 112 (by omega), hword 120 (by omega), hword 144 (by omega),
    hword 160 (by omega), hword 136 (by omega), hword 152 (by omega), hword 176 (by omega),
    hword 168 (by omega), hword 184 (by omega), hword 232 (by omega), hword 304 (by omega),
    load_congr h.extended]

end Read

/-! ## The round trip -/

/-- The system call that the signal has interrupted is started again. -/
def Kernel.Rewinds (k : Kernel) (t : Tid) : Prop :=
  ∃ signal, lowestSignal (k.acceptedSignals t) = some signal ∧
    ((k.process (k.thread t).process).signalActions signal).flags &&& SA_RESTART ≠ 0#64 ∧
    (k.thread t).lastSyscallInterrupted ∧
    (k.thread t).gprState.rip = (k.thread t).lastSyscallRip

/-- The thread `y` goes on where `x` was interrupted. -/
structure Restored (x y : Thread) : Prop where
  general : y.gprState.general = x.gprState.general
  extendedState : y.extendedState = x.extendedState
  signalMask : y.signalMask = x.signalMask

section RoundTrip

variable {k k' k1 k2 k3 k4 : Kernel} {t : Tid} {m m' : ByteMemory} {cr2 : U64} {e : ExtendedState}

theorem enterHandler_rsp {x : Thread} {action : KernelSigaction} {signal : Signal} {handler : U64} :
    (enterHandler x action signal handler).gprState.rsp = handlerStack x action x.gprState.rsp
      (ofNat 64 (x.extendedState.getD []).length) := rfl

/-- The frame that a handler is entered with, read where the handler finds it. -/
theorem dispatch_readUContext (hdispatch : k.dispatchPendingSignal t = .ok k')
    (hdel : k.delivery t = .handler) (hrewinds : ¬k.Rewinds t)
    (hext : (k.thread t).extendedState = some e) (hsize : e.length < 2 ^ 63) :
    readUContext (k.dispatchStores t cr2 m) (k'.thread t).gprState.rsp e.length =
      { gpr := (k.thread t).gprState.general, fpstate := e
        sigmask := (k.thread t).signalMask } := by
  obtain ⟨signal, action, address, handler, x, hlow, haction, hhandler, hrestorer, hgpr, halt, hx,
    -, henter⟩ := dispatch_handler hdispatch hdel
  have hsame : restartSyscall (k.thread t) action = (k.thread t).gprState := by
    unfold restartSyscall
    rw [if_neg]
    rintro ⟨hflag, hinterrupted, hrip⟩
    exact hrewinds ⟨signal, hlow, by rw [haction]; exact hflag, hinterrupted, hrip⟩
  have hstores : k.dispatchStores t cr2 m = writeFrame (k.thread t) action signal cr2 m := by
    unfold Kernel.dispatchStores
    simp only [hlow, haction, hhandler, if_neg hrestorer, hsame]
  have hframe : (k'.thread t).gprState.rsp = handlerStack (k.thread t) action
      (k.thread t).gprState.rsp (ofNat 64 e.length) := by
    rw [henter, enterHandler_rsp, hx, hext, hgpr, hsame]
    unfold handlerStack
    rw [halt]
    rfl
  rw [hstores, hframe]
  exact readUContext_writeFrame hext hsize

/-- **Main theorem.** A handler is entered, and `rt_sigreturn` is called with the stack pointer that
    the restorer leaves, after the handler has kept its frame. Then the thread has the registers,
    the extended state and the signal mask that it had. -/
theorem sigreturn_restores (hdispatch : k.dispatchPendingSignal t = .ok k')
    (hdel : k.delivery t = .handler) (hrewinds : ¬k.Rewinds t)
    (hext : (k.thread t).extendedState = some e) (hsize : e.length < 2 ^ 32)
    (hkept : FrameKept (k'.thread t).gprState.rsp e.length (k.dispatchStores t cr2 m) m')
    (hstack : k1.cpu.userStack = (k'.thread t).gprState.rsp + 8#64)
    (hsigreturn : k1.sigreturn t (readUContext m' (k1.cpu.userStack - 8#64) e.length) = .ok k2)
    (hframe : (k3.thread t).signalFrame = (k2.thread t).signalFrame)
    (hroom : (k3.thread t).extendedState.isSome)
    (hpoll : (k3.thread t).pollSavedSignalMask = none)
    (hreturn : k3.returnFromSignal t = .ok k4) : Restored (k.thread t) (k4.thread t) := by
  rw [hstack, add_sub_cancel_right, hkept.readUContext,
    dispatch_readUContext hdispatch hdel hrewinds hext (by omega)] at hsigreturn
  obtain rfl := sigreturn_eq hsigreturn
  simp only [updateThread_thread_self] at hframe
  rw [returnFromSignal_eq] at hreturn
  obtain ⟨⟨n, k5⟩, htrigger, rfl⟩ := bind_pure_ok hreturn
  obtain ⟨w, s, q, st, hwoken, -⟩ := (Wakes.quiet (wakes_trigger htrigger)).thread t
  simp only [updateThread_thread_self] at hwoken
  obtain ⟨old, hold⟩ := Option.isSome_iff_exists.mp hroom
  rw [hwoken]
  refine ⟨?_, ?_, ?_⟩
  · show (leaveHandler (k3.thread t)).gprState.general = _
    unfold leaveHandler
    rw [hframe]
    rfl
  · show (leaveHandler (k3.thread t)).extendedState = _
    unfold leaveHandler
    rw [hframe, hold, hext]
    rfl
  · show (leaveHandler (k3.thread t)).signalMask = _
    unfold leaveHandler
    rw [hframe, hpoll]
    rfl

end RoundTrip

/-- A thread in user mode for which `SIGUSR1` is pending, in a process with a handler for it. -/
def signalled : Kernel where
  thread := fun _ =>
    { process := 1, state := .ready, pendingSignals := getSignalBit 10, signalMask := 0x4#64
      extendedState := some (List.replicate 512 0x7f#8)
      gprState := { rip := 0x400123#64, rsp := 0x7fff1234#64, rax := 7#64, rflags := 0x246#64 } }
  process := fun _ =>
    { signalActions := fun _ => { handler := .function 0x401000#64, restorer := 0x402000#64 } }
  listenerLinks := fun _ => {}
  schedLinks := fun _ => {}
  idleThread := 0
  initProcess := 1

/-- The handler of `signalled` returns at once. -/
theorem sigreturn_restores_signalled : ∃ k' k2 k4 : Kernel,
    signalled.dispatchPendingSignal 1 = .ok k' ∧ (k'.thread 1).gprState.rip = 0x401000#64 ∧
    k2.returnFromSignal 1 = .ok k4 ∧ Restored (signalled.thread 1) (k4.thread 1) := by
  let m : ByteMemory := fun _ => 0#8
  let k' := (signalled.dispatchPendingSignal 1).toOption.getD signalled
  let k1 : Kernel :=
    { k' with cpu := { k'.cpu with userStack := (k'.thread 1).gprState.rsp + 8#64 } }
  let frame := readUContext (signalled.dispatchStores 1 0#64 m) (k1.cpu.userStack - 8#64)
    (List.replicate 512 0x7f#8).length
  obtain ⟨k2, h2⟩ : ∃ k2, k1.sigreturn 1 frame = .ok k2 := ⟨_, rfl⟩
  have hk2 := (Except.ok.inj h2).symm
  obtain ⟨k4, h4⟩ : ∃ k4, k2.returnFromSignal 1 = .ok k4 := by
    rw [hk2]
    exact ⟨_, rfl⟩
  refine ⟨k', k2, k4, rfl, rfl, h4, ?_⟩
  refine sigreturn_restores (show signalled.dispatchPendingSignal 1 = .ok k' from rfl) rfl ?_ rfl
    (by rw [List.length_replicate]; omega) (.refl _ _ (signalled.dispatchStores 1 0#64 m))
    (show k1.cpu.userStack = (k'.thread 1).gprState.rsp + 8#64 from rfl) h2
    (show (k2.thread 1).signalFrame = _ from rfl) ?_ ?_ h4
  · rintro ⟨signal, -, hflags, -⟩
    exact hflags (show 0#64 &&& SA_RESTART = 0#64 from rfl)
  · rw [hk2]
    rfl
  · rw [hk2]
    rfl

end Fishix.Sched
