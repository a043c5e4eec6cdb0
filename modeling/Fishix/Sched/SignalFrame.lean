import Fishix.Sched.Wake

/-!
# Signal frames on the user's stacks

One thread in user mode: its code moves the stack pointer, `dispatch_pending_signal` builds the
frame of a handler (userland/signal.cpp:116-142), `rt_sigreturn` leaves the innermost handler
(userland/signal.cpp:174-200), and `sigaltstack` chooses another alternate stack
(userland/signal.cpp:234-259). A handler with `SA_ONSTACK` always starts at the top of the alternate
stack: `SS_ONSTACK` is set when it is entered and cleared when any handler is left, but never read.

* `dispatch_enters`, `returnFromSignal_eq`: the steps are those of the scheduler interrupt.
* `frames_apart`: frames do not overlap if no handler is put on an alternate stack with live frames.
* `reentered_alt_stack`: a second handler on the alternate stack writes over the first.
-/

namespace Fishix.Sched

open Kernel
open BitVec (ofNat le_def)

/-! ## The steps of a thread -/

/-- `stack_t` as `sigaltstack` reads it. -/
structure StackT where
  sp : U64
  flags : BitVec 32
  size : U64
  deriving DecidableEq

/-- `syscall_sigaltstack` with a new stack (userland/signal.cpp:242-257); `none` for `-EINVAL`. -/
def syscallSigaltstack (new : StackT) : Option AltStack :=
  if new.flags &&& (1#32 <<< 31) ≠ 0#32 then none
  else if new.flags = 2#32 then some { disabled := true }
  else if new.flags = 0#32 then some { sp := new.sp, size := new.size }
  else none

/-- `return_from_signal` (userland/signal.cpp:175-186), before the event. -/
def leaveHandler (x : Thread) : Thread :=
  { x with
    exitingSignal := false
    signalAltStack := { x.signalAltStack with onStack := false }
    gprState := { x.signalFrame.gpr with
      ds := x.gprState.ds, es := x.gprState.es, err := x.gprState.err, cs := x.gprState.cs
      ss := x.gprState.ss }
    extendedState := x.extendedState.map fun _ => x.signalFrame.fpstate
    signalMask := x.pollSavedSignalMask.getD x.signalFrame.sigmask
    pollSavedSignalMask := none }

/-- A handler that has not returned. -/
structure Frame where
  /-- `SignalFrame*`. -/
  addr : U64
  /-- The bytes of extended state behind it. -/
  size : ℕ
  /-- `frame->ucontext.uc_mcontext.rsp`. -/
  oldRsp : U64
  /-- The lowest address of the stack of the code it has interrupted. -/
  oldBottom : U64
  deriving DecidableEq

/-- The memory of a frame starts at the `SignalFrame`. -/
def Frame.start (f : Frame) : ℕ := f.addr.toNat

/-- It ends with the extended state at `fpstate` (userland/signal.cpp:134). -/
def Frame.stop (f : Frame) : ℕ := (alignUp (f.addr + signalFrameSize) 64#64).toNat + f.size

/-- The memory of two frames does not overlap. -/
def Frame.Apart (f g : Frame) : Prop := f.stop ≤ g.start ∨ g.stop ≤ f.start

instance (f g : Frame) : Decidable (f.Apart g) := inferInstanceAs (Decidable (_ ∨ _))

/-- A thread, the lowest address of the stack it runs on, and its handlers, innermost first. -/
structure UserThread where
  thread : Thread
  bottom : U64
  live : List Frame := []

/-- The handler runs on the alternate stack (userland/signal.cpp:121). -/
def Thread.UsesAltStack (x : Thread) (action : KernelSigaction) : Prop :=
  action.flags &&& SA_ONSTACK ≠ 0#64 ∧ ¬x.signalAltStack.disabled

instance (x : Thread) (action : KernelSigaction) : Decidable (x.UsesAltStack action) :=
  inferInstanceAs (Decidable (_ ∧ _))

/-- What happens to the thread. -/
inductive ThreadEvent
  /-- User code moves its stack pointer. -/
  | move (rsp : U64)
  /-- A handler is entered. -/
  | deliver (action : KernelSigaction) (signal : Signal) (handler : U64)
  /-- The innermost handler returns, with what then stands in its frame. -/
  | sigreturn (frame : UContext)
  | sigaltstack (new : StackT)

namespace UserThread

/-- The frame of a handler that is entered. -/
def newFrame (s : UserThread) (action : KernelSigaction) : Frame :=
  let size := (s.thread.extendedState.getD []).length
  { addr := handlerStack s.thread action s.thread.gprState.rsp (ofNat 64 size)
    size, oldRsp := s.thread.gprState.rsp, oldBottom := s.bottom }

/-- The lowest address of the stack of a handler that is entered. -/
def newBottom (s : UserThread) (action : KernelSigaction) : U64 :=
  if s.thread.UsesAltStack action then s.thread.signalAltStack.sp else s.bottom

def step (s : UserThread) : ThreadEvent → Except Unit UserThread
  | .move rsp =>
    .ok { s with thread := { s.thread with gprState := { s.thread.gprState with rsp } } }
  | .deliver action signal handler =>
    .ok { thread := enterHandler s.thread action signal handler
          bottom := s.newBottom action
          live := s.newFrame action :: s.live }
  | .sigreturn frame =>
    match s.live with
    | [] => .error ()
    | f :: live =>
      .ok { thread := leaveHandler { s.thread with signalFrame := frame }
            bottom := f.oldBottom
            live }
  | .sigaltstack new =>
    match syscallSigaltstack new with
    | none => .ok s
    | some a => .ok { s with thread := { s.thread with signalAltStack := a } }

/-! ## What the stacks must be like -/

/-- The address below which the frame of a handler lies, without wrap-around. -/
def frameTop (s : UserThread) (action : KernelSigaction) : ℤ :=
  if s.thread.UsesAltStack action then
    (s.thread.signalAltStack.sp + s.thread.signalAltStack.size).toNat
  else s.thread.gprState.rsp.toNat - 128

/-- Where the frame lies, without wrap-around. -/
def frameAddr (top : ℤ) (size : ℕ) : ℤ := ((top - size) / 64 * 64 - 440) / 16 * 16 - 8

/-- The stack of a handler that is entered is large enough for its frame. -/
def LargeEnough (s : UserThread) (action : KernelSigaction) : Prop :=
  ((s.newBottom action).toNat : ℤ) ≤
    frameAddr (s.frameTop action) (s.thread.extendedState.getD []).length

instance (s : UserThread) (action : KernelSigaction) : Decidable (s.LargeEnough action) :=
  inferInstanceAs (Decidable (_ ≤ _))

/-- Stacks are large enough, the code of a handler stays below its frame, where it starts, up to the
    call of `rt_sigreturn`, and what is returned to is what was interrupted. -/
def Allowed (s : UserThread) : ThreadEvent → Prop
  | .move rsp => ∀ f ∈ s.live.head?, rsp.toNat ≤ f.start + 8
  | .deliver action _ _ => s.LargeEnough action
  | .sigreturn frame => ∀ f ∈ s.live.head?,
      s.thread.gprState.rsp - 8#64 = f.addr ∧ frame.gpr.rsp = f.oldRsp
  | .sigaltstack _ => True

instance (s : UserThread) : ∀ e, Decidable (s.Allowed e)
  | .move _ => inferInstanceAs (Decidable (∀ f ∈ s.live.head?, _))
  | .deliver action _ _ => inferInstanceAs (Decidable (s.LargeEnough action))
  | .sigreturn _ => inferInstanceAs (Decidable (∀ f ∈ s.live.head?, _ ∧ _))
  | .sigaltstack _ => inferInstanceAs (Decidable True)

/-- A handler is put on the alternate stack only when no handler that has not returned has its frame
    there. -/
def Vacant (s : UserThread) : ThreadEvent → Prop
  | .deliver action _ _ => s.thread.UsesAltStack action → ∀ f ∈ s.live,
      f.stop ≤ s.thread.signalAltStack.sp.toNat ∨
        (s.thread.signalAltStack.sp + s.thread.signalAltStack.size).toNat ≤ f.start
  | _ => True

instance (s : UserThread) : ∀ e, Decidable (s.Vacant e)
  | .deliver action _ _ => inferInstanceAs (Decidable (s.thread.UsesAltStack action → _))
  | .move _ => inferInstanceAs (Decidable True)
  | .sigreturn _ => inferInstanceAs (Decidable True)
  | .sigaltstack _ => inferInstanceAs (Decidable True)

/-! ## The frame of a handler -/

/-- Rounding up does not go down below a multiple of the alignment. -/
theorem toNat_le_alignUp {i : U64} {m : ℕ} (hm : m % 64 = 0) (hlt : m < 2 ^ 64) (hi : i.toNat ≤ m) :
    i.toNat ≤ (alignUp i 64#64).toNat := by
  have h64 : (64#64).toNat = 64 := rfl
  have h1 : (1#64).toNat = 1 := rfl
  unfold alignUp
  split_ifs with h
  · have hne : i.toNat % 64 ≠ 0 := by
      intro h0
      apply h
      apply BitVec.eq_of_toNat_eq
      simpa using h0
    rw [BitVec.toNat_mul, BitVec.toNat_add, BitVec.toNat_udiv, h64, h1,
      Nat.mod_eq_of_lt (b := 2 ^ 64) (by omega)]
    omega
  · exact Nat.le_refl _

theorem frame_bounds {top : U64} {size bottom : ℕ}
    (h : (bottom : ℤ) ≤ frameAddr top.toNat size) :
    let addr := alignDown (alignDown (top - ofNat 64 size) 64#64 - signalFrameSize) 16#64 - 8#64
    bottom ≤ addr.toNat ∧ addr.toNat < top.toNat ∧
      (alignUp (addr + signalFrameSize) 64#64).toNat + size ≤ top.toNat ∧
      addr.toNat + 440 ≤ (alignUp (addr + signalFrameSize) 64#64).toNat := by
  have htop := top.isLt
  unfold frameAddr at h
  intro addr
  have hsize : (ofNat 64 size).toNat = size := by
    rw [BitVec.toNat_ofNat, Nat.mod_eq_of_lt (by omega)]
  have hstate : (top - ofNat 64 size).toNat = top.toNat - size := by
    rw [BitVec.toNat_sub_of_le (by rw [le_def, hsize]; omega), hsize]
  have hfpstate : (alignDown (top - ofNat 64 size) 64#64).toNat =
      (top.toNat - size) / 64 * 64 := by
    rw [toNat_alignDown_eq, hstate]
    rfl
  have hbelow : (alignDown (top - ofNat 64 size) 64#64 - signalFrameSize).toNat =
      (top.toNat - size) / 64 * 64 - 440 := by
    rw [BitVec.toNat_sub_of_le (by rw [le_def, hfpstate]; show 440 ≤ _; omega), hfpstate]
    rfl
  have hround : (alignDown (alignDown (top - ofNat 64 size) 64#64 - signalFrameSize)
      16#64).toNat = ((top.toNat - size) / 64 * 64 - 440) / 16 * 16 := by
    rw [toNat_alignDown_eq, hbelow]
    rfl
  have haddr : addr.toNat = ((top.toNat - size) / 64 * 64 - 440) / 16 * 16 - 8 := by
    rw [BitVec.toNat_sub_of_le (by rw [le_def, hround]; show 8 ≤ _; omega), hround]
    rfl
  have hend : (addr + signalFrameSize).toNat = addr.toNat + 440 := by
    rw [BitVec.toNat_add, Nat.mod_eq_of_lt]
    · rfl
    · show _ + 440 < _
      omega
  have hle : (addr + signalFrameSize).toNat ≤ (top.toNat - size) / 64 * 64 := by omega
  have hup := toNat_alignUp_le (by omega) hle
  have hdown := toNat_le_alignUp (by omega) (by omega) hle
  omega

theorem newFrame_bounds {s : UserThread} {action : KernelSigaction} (h : s.LargeEnough action) :
    (s.newBottom action).toNat ≤ (s.newFrame action).start ∧
      ((s.newFrame action).start : ℤ) < s.frameTop action ∧
      ((s.newFrame action).stop : ℤ) ≤ s.frameTop action := by
  unfold LargeEnough at h
  by_cases hused : s.thread.UsesAltStack action
  · have haddr : (s.newFrame action).addr = alignDown (alignDown (s.thread.signalAltStack.sp +
        s.thread.signalAltStack.size - ofNat 64 (s.newFrame action).size) 64#64 -
        signalFrameSize) 16#64 - 8#64 := by
      show handlerStack _ _ _ _ = _
      unfold handlerStack
      rw [if_pos (show _ ∧ _ from hused)]
      rfl
    unfold newBottom frameTop at *
    rw [if_pos hused] at h ⊢
    rw [if_pos hused] at h ⊢
    obtain ⟨hbottom, htop, hstop, -⟩ := frame_bounds h
    unfold Frame.start Frame.stop
    rw [haddr]
    exact ⟨hbottom, Int.ofNat_lt.mpr htop, Int.ofNat_le.mpr hstop⟩
  · have haddr : (s.newFrame action).addr = alignDown (alignDown (s.thread.gprState.rsp - 128#64 -
        ofNat 64 (s.newFrame action).size) 64#64 - signalFrameSize) 16#64 - 8#64 := by
      show handlerStack _ _ _ _ = _
      unfold handlerStack
      rw [if_neg (show ¬(_ ∧ _) from hused)]
      rfl
    unfold newBottom frameTop at *
    rw [if_neg hused] at h ⊢
    rw [if_neg hused] at h ⊢
    have hred : (s.thread.gprState.rsp - 128#64).toNat = s.thread.gprState.rsp.toNat - 128 := by
      have hroom : 128 ≤ s.thread.gprState.rsp.toNat := by
        unfold frameAddr at h
        omega
      rw [BitVec.toNat_sub_of_le (by rw [le_def]; exact hroom)]
      rfl
    have hroom : ((s.thread.gprState.rsp - 128#64).toNat : ℤ) =
        s.thread.gprState.rsp.toNat - 128 := by
      unfold frameAddr at h
      omega
    rw [← hroom] at h ⊢
    obtain ⟨hbottom, htop, hstop, -⟩ := frame_bounds h
    unfold Frame.start Frame.stop
    rw [haddr]
    exact ⟨hbottom, Int.ofNat_lt.mpr htop, Int.ofNat_le.mpr hstop⟩

/-! ## Nested handlers -/

/-- The frames of handlers that have not returned: those of the code that runs on the stack above
    `bottom` with the stack pointer `rsp`. -/
def Nested (bottom rsp : U64) : List Frame → Prop
  | [] => True
  | f :: live =>
    rsp.toNat ≤ f.start + 8 ∧
    (∀ g ∈ f :: live, g.stop ≤ bottom.toNat ∨ f.start ≤ g.start) ∧
    (∀ g ∈ live, f.Apart g) ∧ Nested f.oldBottom f.oldRsp live

variable {s s' : UserThread} {bottom rsp rsp' : U64} {live : List Frame} {action : KernelSigaction}

/-- The stack pointer moves below the innermost frame. -/
theorem Nested.move (h : Nested bottom rsp live)
    (hrsp : ∀ f ∈ live.head?, rsp'.toNat ≤ f.start + 8) : Nested bottom rsp' live := by
  cases live with
  | nil => trivial
  | cons f live =>
    obtain ⟨-, hothers, hapart, houter⟩ := h
    exact ⟨hrsp f rfl, hothers, hapart, houter⟩

/-- Below the stack pointer and above the bottom of the stack there are no frames. -/
theorem Nested.below (h : Nested bottom rsp live) {g : Frame} (hg : g ∈ live) :
    g.stop ≤ bottom.toNat ∨ rsp.toNat ≤ g.start + 8 := by
  cases live with
  | nil => simp at hg
  | cons f live =>
    obtain ⟨hrsp, hothers, -, -⟩ := h
    rcases hothers g hg with hg | hg
    · exact .inl hg
    · right
      omega

/-- The frame that is written when a handler is entered does not overlap the others. -/
theorem newFrame_apart (h : Nested s.bottom s.thread.gprState.rsp s.live)
    (hlarge : s.LargeEnough action)
    (hvacant : s.thread.UsesAltStack action → ∀ f ∈ s.live,
      f.stop ≤ s.thread.signalAltStack.sp.toNat ∨
        (s.thread.signalAltStack.sp + s.thread.signalAltStack.size).toNat ≤ f.start) {g : Frame}
    (hg : g ∈ s.live) :
    g.stop ≤ (s.newBottom action).toNat ∨
      (s.newFrame action).stop ≤ g.start ∧ (s.newFrame action).start ≤ g.start := by
  obtain ⟨hbottom, htop, hstop⟩ := newFrame_bounds hlarge
  unfold newBottom frameTop at *
  by_cases hused : s.thread.UsesAltStack action
  · rw [if_pos hused] at hstop htop ⊢
    rcases hvacant hused g hg with hg | hg
    · exact .inl hg
    · right
      omega
  · rw [if_neg hused] at hstop htop ⊢
    rcases h.below hg with hg | hg
    · exact .inl hg
    · right
      omega

theorem Nested.enter (h : Nested s.bottom s.thread.gprState.rsp s.live)
    (hlarge : s.LargeEnough action)
    (hvacant : s.thread.UsesAltStack action → ∀ f ∈ s.live,
      f.stop ≤ s.thread.signalAltStack.sp.toNat ∨
        (s.thread.signalAltStack.sp + s.thread.signalAltStack.size).toNat ≤ f.start) :
    Nested (s.newBottom action) (s.newFrame action).addr (s.newFrame action :: s.live) := by
  have hbottom := (newFrame_bounds hlarge).1
  refine ⟨Nat.le_add_right _ 8, ?_, ?_, h⟩
  · intro g hg
    rcases List.mem_cons.mp hg with rfl | hg
    · exact .inr (Nat.le_refl _)
    · rcases newFrame_apart h hlarge hvacant hg with hg | hg
      · exact .inl hg
      · exact .inr hg.2
  · intro g hg
    rcases newFrame_apart h hlarge hvacant hg with hg | hg
    · exact .inr (Nat.le_trans hg hbottom)
    · exact .inl hg.1

theorem Nested.pairwise : ∀ {live : List Frame} {bottom rsp : U64}, Nested bottom rsp live →
    live.Pairwise Frame.Apart
  | [], _, _, _ => .nil
  | _ :: _, _, _, h => .cons h.2.2.1 h.2.2.2.pairwise

theorem step_nested {e : ThreadEvent} (h : Nested s.bottom s.thread.gprState.rsp s.live)
    (hallowed : s.Allowed e) (hvacant : s.Vacant e) (hstep : s.step e = .ok s') :
    Nested s'.bottom s'.thread.gprState.rsp s'.live := by
  cases e with
  | move rsp =>
    cases hstep
    exact h.move hallowed
  | deliver action signal handler =>
    cases hstep
    exact h.enter hallowed hvacant
  | sigreturn frame =>
    unfold step at hstep
    cases hlive : s.live with
    | nil =>
      simp only [hlive] at hstep
      cases hstep
    | cons f live =>
      simp only [hlive] at hstep
      cases hstep
      have hrsp : frame.gpr.rsp = f.oldRsp := (hallowed f (by rw [hlive]; rfl)).2
      rw [hlive] at h
      show Nested f.oldBottom frame.gpr.rsp live
      rw [hrsp]
      exact h.2.2.2
  | sigaltstack new =>
    unfold step at hstep
    simp only at hstep
    split at hstep
    · cases hstep
      exact h
    · cases hstep
      exact h

end UserThread

/-- **Main theorem.** In every run from a thread without handlers, in which a handler is put on the
    alternate stack only when no live handler has its frame there, frames of live handlers never
    overlap. -/
theorem frames_apart {s s' : UserThread} (hlive : s.live = [])
    (h : Run UserThread.step (fun s e => s.Allowed e ∧ s.Vacant e) s s') :
    s'.live.Pairwise Frame.Apart := by
  have hnested : UserThread.Nested s'.bottom s'.thread.gprState.rsp s'.live := by
    refine h.invariant (P := fun s => UserThread.Nested s.bottom s.thread.gprState.rsp s.live) ?_ ?_
    · intro s1 e s2 hs1 hok hstep
      exact UserThread.step_nested hs1 hok.1 hok.2 hstep
    · rw [hlive]
      trivial
  exact hnested.pairwise

/-! ## The steps in the scheduler interrupt -/

variable {k k' : Kernel} {t : Tid}

theorem dispatch_handler (h : k.dispatchPendingSignal t = .ok k') (hdel : k.delivery t = .handler) :
    ∃ (signal : Signal) (action : KernelSigaction) (address handler : U64) (x : Thread),
      lowestSignal (k.acceptedSignals t) = some signal ∧
      (k.process (k.thread t).process).signalActions signal = action ∧
      action.handler = .function address ∧ action.restorer ≠ 0#64 ∧
      x.gprState = restartSyscall (k.thread t) action ∧
      x.signalAltStack = (k.thread t).signalAltStack ∧
      x.extendedState = (k.thread t).extendedState ∧ x.signalMask = (k.thread t).signalMask ∧
      k'.thread t = enterHandler x action signal handler := by
  have haccept : (k.updateThread t fun x => { x with
      enteringSignal := false, enqueuedBySignal := none }).acceptedSignals t =
      k.acceptedSignals t := by
    simp [Kernel.acceptedSignals]
  unfold Kernel.dispatchPendingSignal at h
  unfold Kernel.delivery at hdel
  simp only [haccept, updateThread_thread_self, updateThread_process,
    updateThread_updateThread] at h
  cases hlow : lowestSignal (k.acceptedSignals t) with
  | none => simp [hlow] at hdel
  | some signal =>
    simp only [hlow] at h hdel
    cases hhandler :
        ((k.process (k.thread t).process).signalActions signal).handler with
    | ign => simp [hhandler] at hdel
    | dfl =>
      simp only [hhandler] at hdel
      cases hdefault : signalDefaultAction signal <;> simp [hdefault] at hdel
    | function handler =>
      simp only [hhandler] at h hdel
      split_ifs at h hdel with hrestorer hreset
      · cases h
        refine ⟨signal, _, handler, _, _, rfl, rfl, hhandler, hrestorer, ?_, ?_, ?_, ?_,
          updateThread_thread_self _ _ _⟩
        · simp [restartSyscall]
        · simp
        · simp
        · simp
      · cases h
        refine ⟨signal, _, handler, _, _, rfl, rfl, hhandler, hrestorer, ?_, ?_, ?_, ?_,
          updateThread_thread_self _ _ _⟩
        · simp [restartSyscall]
        · simp
        · simp
        · simp

/-- A handler is entered from the registers, the alternate stack and the extended state of the
    thread. -/
theorem dispatch_enters (h : k.dispatchPendingSignal t = .ok k') (hdel : k.delivery t = .handler) :
    ∃ (x : Thread) (action : KernelSigaction) (signal : Signal) (handler : U64),
      x.gprState.rsp = (k.thread t).gprState.rsp ∧
      x.signalAltStack = (k.thread t).signalAltStack ∧
      x.extendedState = (k.thread t).extendedState ∧
      k'.thread t = enterHandler x action signal handler := by
  obtain ⟨signal, action, -, handler, x, -, -, -, -, hgpr, halt, hext, -, henter⟩ :=
    dispatch_handler h hdel
  refine ⟨x, action, signal, handler, ?_, halt, hext, henter⟩
  rw [hgpr]
  unfold restartSyscall
  split_ifs <;> rfl

theorem returnFromSignal_eq : k.returnFromSignal t =
    (do
      let k := k.updateThread t leaveHandler
      let (_, k) ← k.trigger (k.thread t).signalReturnEvent true intMax
      return k) := rfl

/-! ## Two runs -/

/-- A thread on its main stack. -/
def mainThread : UserThread where
  thread :=
    { gprState := { rsp := 0x7fff0000#64 }
      extendedState := some (List.replicate 576 0#8)
      signalAltStack := { disabled := true } }
  bottom := 0x7f000000#64

def altHandler : KernelSigaction := { flags := SA_ONSTACK }

/-- A handler on the alternate stack is interrupted twice, and the first of the two handlers
    returns. -/
def nestedHandlers : List ThreadEvent :=
  [.sigaltstack ⟨0x10000#64, 0#32, 0x4000#64⟩, .deliver altHandler 10 0x1000#64, .move 0x13000#64,
    .deliver {} 12 0x2000#64, .move 0x12b80#64,
    .sigreturn { gpr := { rsp := 0x13000#64 }, fpstate := List.replicate 576 0#8 },
    .deliver {} 1 0x3000#64]

theorem nestedHandlers_apart : ∃ s,
    Run UserThread.step (fun s e => s.Allowed e ∧ s.Vacant e) mainThread s ∧
      s.live.map Frame.addr = [0x12b78#64, 0x13bf8#64] ∧ s.live.Pairwise Frame.Apart := by
  obtain ⟨s, hs, hlive⟩ := exists_ok_of_map
    (show (nestedHandlers.foldlM (guarded UserThread.step (fun s e => s.Allowed e ∧ s.Vacant e) ())
      mainThread).map (fun s => s.live.map Frame.addr) = .ok [0x12b78#64, 0x13bf8#64] by
        decide +kernel)
  have hrun := Run.of_guarded hs
  exact ⟨s, hrun, hlive, frames_apart rfl hrun⟩

/-- A second handler on the alternate stack writes over the frame of the first. -/
theorem reentered_alt_stack : ¬∀ s s' : UserThread, s.live = [] →
    Run UserThread.step UserThread.Allowed s s' → s'.live.Pairwise Frame.Apart := by
  intro h
  obtain ⟨s, hs, hlive⟩ := exists_ok_of_map
    (show (([.sigaltstack ⟨0x10000#64, 0#32, 0x4000#64⟩, .deliver altHandler 10 0x1000#64,
        .deliver altHandler 12 0x2000#64] : List ThreadEvent).foldlM
      (guarded UserThread.step UserThread.Allowed ()) mainThread).map
        (fun s => decide (s.live.Pairwise Frame.Apart)) = .ok false by decide +kernel)
  exact absurd (h mainThread s rfl (Run.of_guarded hs)) (of_decide_eq_false hlive)

end Fishix.Sched
