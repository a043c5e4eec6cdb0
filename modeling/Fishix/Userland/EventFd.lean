import Fishix.Userland.Pipe

/-!
# Event counters

Model of `EventFD` (userland/eventfd.cpp:14-63). A write waits while its value would take the
counter past `COUNTER_MAX`; the test is a subtraction from `COUNTER_MAX`, which cannot wrap, since
the one value above it is refused before.

`eventfd_event` decides only when a call that waits goes on. Here it may go on at any moment, and it
may be interrupted at any moment.

* `read_some`, `write_some`: what a call that does not wait does to the counter.
* `eventFd_conserves`: the counter keeps its bound, nothing is lost, and `poll` agrees.
-/

namespace Fishix.Userland

open BitVec (le_def lt_def eq_of_toNat_eq)

/-- `EventFD` (userland/eventfd.hpp:6-11). -/
structure EventFd where
  counter : U64
  isSemaphore : Bool := false
  deriving DecidableEq

/-- `EventFD::COUNTER_MAX`. -/
def COUNTER_MAX : U64 := 0xfffffffffffffffe#64

inductive EventFdErrno
  /-- `-EINVAL`. -/
  | invalid
  /-- `-EWOULDBLOCK`. -/
  | wouldBlock
  /-- `-EINTR`. -/
  | interrupted
  deriving DecidableEq

namespace EventFd

variable (e : EventFd)

/-- `EventFD::read` (userland/eventfd.cpp:14-35) up to where it returns, with the value that it
    stores in `buf`, or `none` where it waits. -/
def read (flags count : U64) : Option (Except EventFdErrno U64 × EventFd) :=
  if count < 8#64 then some (.error .invalid, e)
  else if e.counter = 0#64 then
    if flags &&& O_NONBLOCK ≠ 0#64 then some (.error .wouldBlock, e)
    else none
  else if e.isSemaphore then some (.ok 1#64, { e with counter := e.counter - 1#64 })
  else some (.ok e.counter, { e with counter := 0#64 })

/-- `EventFD::write` (userland/eventfd.cpp:37-52) of the value in `buf`. -/
def write (flags count toAdd : U64) : Option (Except EventFdErrno Unit × EventFd) :=
  if count < 8#64 then some (.error .invalid, e)
  else if toAdd = 0xffffffffffffffff#64 then some (.error .invalid, e)
  else if e.counter > COUNTER_MAX - toAdd then
    if flags &&& O_NONBLOCK ≠ 0#64 then some (.error .wouldBlock, e)
    else none
  else some (.ok (), { e with counter := e.counter + toAdd })

/-- `EventFD::poll` (userland/eventfd.cpp:54-63). -/
def poll (events : U64) : U64 :=
  (if events &&& POLLIN ≠ 0#64 then if e.counter > 0#64 then POLLIN else 0#64 else 0#64) |||
    if events &&& POLLOUT ≠ 0#64 then if e.counter < COUNTER_MAX then POLLOUT else 0#64 else 0#64

end EventFd

inductive EventFdCall
  | read (count : U64)
  | write (count toAdd : U64)

/-- The counter and the calls that wait. `added` and `returned` are the sums of what writes and
    reads have reported; no call looks at them. -/
structure EventFdWorld where
  node : EventFd
  sleeping : ℕ → Option EventFdCall := fun _ => none
  added : ℕ := 0
  returned : ℕ := 0

inductive EventFdOp
  | call (thread : ℕ) (flags : U64) (c : EventFdCall)
  /-- `wait` returns. `flags` are those of the description by then. -/
  | wake (thread : ℕ) (flags : U64)
  /-- `wait` returns `-EINTR`. -/
  | interrupt (thread : ℕ)

namespace EventFdWorld

/-- `eventfd_impl` (userland/eventfd.cpp:65-80) with its first value and `EFD_SEMAPHORE`. -/
def create (initval : BitVec 32) (isSemaphore : Bool) : EventFdWorld where
  node := { counter := initval.setWidth 64, isSemaphore }

/-- A call, from its start or from behind `wait`. -/
def turn (s : EventFdWorld) (thread : ℕ) (flags : U64) : EventFdCall → EventFdWorld
  | .read count =>
    match s.node.read flags count with
    | none => { s with sleeping := Function.update s.sleeping thread (some (.read count)) }
    | some (ret, node) => { s with
        node, returned := s.returned + (ret.toOption.getD 0#64).toNat
        sleeping := Function.update s.sleeping thread none }
  | .write count toAdd =>
    match s.node.write flags count toAdd with
    | none => { s with sleeping := Function.update s.sleeping thread (some (.write count toAdd)) }
    | some (ret, node) => { s with
        node, added := s.added + if ret.isOk then toAdd.toNat else 0
        sleeping := Function.update s.sleeping thread none }

def step (s : EventFdWorld) : EventFdOp → Except Unit EventFdWorld
  | .call thread flags c =>
    if (s.sleeping thread).isSome then .error () else .ok (s.turn thread flags c)
  | .wake thread flags =>
    match s.sleeping thread with
    | some c => .ok (s.turn thread flags c)
    | none => .error ()
  | .interrupt thread =>
    if (s.sleeping thread).isSome then
      .ok { s with sleeping := Function.update s.sleeping thread none }
    else .error ()

end EventFdWorld

/-! ## The calls -/

section Calls

variable {e e' : EventFd} {flags count toAdd : U64}

theorem counterMax_toNat : COUNTER_MAX.toNat = 2 ^ 64 - 2 := rfl

/-- A read takes what it returns from the counter. -/
theorem read_some {ret : Except EventFdErrno U64} (h : e.read flags count = some (ret, e')) :
    (ret.toOption.getD 0#64).toNat + e'.counter.toNat = e.counter.toNat := by
  unfold EventFd.read at h
  split_ifs at h with hcount hzero hblock hsemaphore
  · cases h
    exact Nat.zero_add _
  · cases h
    exact Nat.zero_add _
  · cases h
    have hpos : e.counter.toNat ≠ 0 := fun hn => hzero (eq_of_toNat_eq hn)
    show 1 + (e.counter - 1#64).toNat = _
    rw [BitVec.toNat_sub_of_le (by rw [le_def]; exact Nat.one_le_iff_ne_zero.mpr hpos)]
    show 1 + (e.counter.toNat - 1) = _
    omega
  · cases h
    exact Nat.add_zero _

theorem write_some {ret : Except EventFdErrno Unit} (hmax : e.counter ≤ COUNTER_MAX)
    (h : e.write flags count toAdd = some (ret, e')) :
    e'.counter ≤ COUNTER_MAX ∧
      e'.counter.toNat = e.counter.toNat + if ret.isOk then toAdd.toNat else 0 := by
  unfold EventFd.write at h
  split_ifs at h with hcount hall hfull hblock
  · cases h
    exact ⟨hmax, rfl⟩
  · cases h
    exact ⟨hmax, rfl⟩
  · cases h
    exact ⟨hmax, rfl⟩
  · cases h
    -- the subtraction in the test has not wrapped
    have hle : toAdd ≤ COUNTER_MAX := by
      have hne : toAdd.toNat ≠ 2 ^ 64 - 1 := fun hn => hall (eq_of_toNat_eq hn)
      have hlt := toAdd.isLt
      rw [le_def, counterMax_toNat]
      omega
    have hroom := BitVec.not_lt.mp hfull
    rw [le_def, BitVec.toNat_sub_of_le hle, counterMax_toNat] at hroom
    rw [le_def, counterMax_toNat] at hle
    have hsum : (e.counter + toAdd).toNat = e.counter.toNat + toAdd.toNat := by
      rw [BitVec.toNat_add, Nat.mod_eq_of_lt (by omega)]
    refine ⟨?_, hsum⟩
    show e.counter + toAdd ≤ _
    rw [le_def, hsum, counterMax_toNat]
    omega

end Calls

/-! ## Every run -/

namespace EventFdWorld

variable {s s' : EventFdWorld} {initval : BitVec 32}

/-- The counter keeps its bound, and what has been added is there or has been returned. -/
structure Conserved (initval : BitVec 32) (s : EventFdWorld) : Prop where
  bound : s.node.counter ≤ COUNTER_MAX
  total : initval.toNat + s.added = s.returned + s.node.counter.toNat

/-- `poll` says whether a read, and a write of one, succeed without waiting. -/
def Polls (s : EventFdWorld) : Prop :=
  ∀ events flags count, 8#64 ≤ count →
    (events &&& POLLIN ≠ 0#64 → (s.node.poll events &&& POLLIN ≠ 0#64 ↔
      ∃ v node, s.node.read flags count = some (.ok v, node))) ∧
    (events &&& POLLOUT ≠ 0#64 → (s.node.poll events &&& POLLOUT ≠ 0#64 ↔
      ∃ node, s.node.write flags count 1#64 = some (.ok (), node)))

theorem conserved_create (initval : BitVec 32) (isSemaphore : Bool) :
    Conserved initval (create initval isSemaphore) := by
  have hcounter : (create initval isSemaphore).node.counter.toNat = initval.toNat := by
    show (initval.setWidth 64).toNat = _
    rw [BitVec.toNat_setWidth]
    have := initval.isLt
    omega
  refine ⟨?_, ?_⟩
  · rw [le_def, hcounter, counterMax_toNat]
    have := initval.isLt
    omega
  · rw [hcounter]
    show initval.toNat + 0 = 0 + initval.toNat
    omega

theorem Conserved.turn (h : Conserved initval s) (thread : ℕ) (flags : U64) (c : EventFdCall) :
    Conserved initval (s.turn thread flags c) := by
  cases c with
  | read count =>
    cases hread : s.node.read flags count with
    | none =>
      simp only [EventFdWorld.turn, hread]
      exact ⟨h.bound, h.total⟩
    | some r =>
      simp only [EventFdWorld.turn, hread]
      have htaken := read_some hread
      have htotal := h.total
      have hbound := h.bound
      rw [le_def] at hbound
      refine ⟨?_, ?_⟩
      · show r.2.counter ≤ _
        rw [le_def]
        omega
      · show initval.toNat + s.added =
          s.returned + (r.1.toOption.getD 0#64).toNat + r.2.counter.toNat
        omega
  | write count toAdd =>
    cases hwrite : s.node.write flags count toAdd with
    | none =>
      simp only [EventFdWorld.turn, hwrite]
      exact ⟨h.bound, h.total⟩
    | some r =>
      simp only [EventFdWorld.turn, hwrite]
      obtain ⟨hbound, hadded⟩ := write_some h.bound hwrite
      have htotal := h.total
      refine ⟨hbound, ?_⟩
      show _ + (s.added + if r.1.isOk then toAdd.toNat else 0) = s.returned + r.2.counter.toNat
      omega

theorem Conserved.step (h : Conserved initval s) {o : EventFdOp} (hstep : s.step o = .ok s') :
    Conserved initval s' := by
  cases o with
  | call thread flags c =>
    simp only [EventFdWorld.step] at hstep
    split_ifs at hstep
    cases hstep
    exact h.turn thread flags c
  | wake thread flags =>
    simp only [EventFdWorld.step] at hstep
    split at hstep
    · cases hstep
      exact h.turn thread flags _
    · cases hstep
  | interrupt thread =>
    simp only [EventFdWorld.step] at hstep
    split_ifs at hstep
    cases hstep
    exact ⟨h.bound, h.total⟩

/-- A read succeeds without waiting exactly if there is something. -/
theorem read_succeeds_iff {e : EventFd} {flags count : U64} (hcount : 8#64 ≤ count) :
    (∃ v node, e.read flags count = some (.ok v, node)) ↔ e.counter ≠ 0#64 := by
  unfold EventFd.read
  rw [if_neg (BitVec.not_lt.mpr hcount)]
  constructor
  · rintro ⟨v, node, hread⟩ hzero
    rw [if_pos hzero] at hread
    split_ifs at hread
    cases hread
  · intro hne
    rw [if_neg hne]
    split_ifs
    · exact ⟨_, _, rfl⟩
    · exact ⟨_, _, rfl⟩

/-- One can be added without waiting exactly if there is room. -/
theorem write_one_succeeds_iff {e : EventFd} {flags count : U64} (hcount : 8#64 ≤ count) :
    (∃ node, e.write flags count 1#64 = some (.ok (), node)) ↔ e.counter < COUNTER_MAX := by
  have hroom : e.counter > COUNTER_MAX - 1#64 ↔ ¬e.counter < COUNTER_MAX := by
    show COUNTER_MAX - 1#64 < e.counter ↔ _
    rw [lt_def, lt_def, counterMax_toNat,
      show (COUNTER_MAX - 1#64).toNat = 2 ^ 64 - 3 from rfl]
    omega
  unfold EventFd.write
  simp only [hroom]
  rw [if_neg (BitVec.not_lt.mpr hcount), if_neg (by decide)]
  constructor
  · rintro ⟨node, hwrite⟩
    by_contra hfull
    rw [if_pos hfull] at hwrite
    split_ifs at hwrite
    cases hwrite
  · intro hlt
    rw [if_neg (not_not.mpr hlt)]
    exact ⟨_, rfl⟩

theorem polls (s : EventFdWorld) : s.Polls := by
  intro events flags count hcount
  constructor
  · intro hevents
    rw [read_succeeds_iff hcount]
    unfold EventFd.poll
    by_cases hzero : s.node.counter = 0#64
    · have hnot : ¬s.node.counter > 0#64 := by
        rw [hzero]
        decide
      rw [if_neg hnot, ite_self, BitVec.zero_or]
      split_ifs <;> simp [hzero, POLLIN, POLLOUT]
    · have hpos : s.node.counter > 0#64 := by
        show 0#64 < s.node.counter
        rw [lt_def]
        exact Nat.pos_of_ne_zero fun hn => hzero (eq_of_toNat_eq hn)
      rw [if_pos hevents, if_pos hpos]
      split_ifs <;> simp [hzero, POLLIN, POLLOUT]
  · intro hevents
    rw [write_one_succeeds_iff hcount]
    unfold EventFd.poll
    rw [if_pos hevents]
    split_ifs with hin hpos hlt hlt hlt <;> simp [*, POLLIN, POLLOUT]

end EventFdWorld

/-- **Main theorem.** In every state of every run the counter is at most `COUNTER_MAX`, the first
    value and what has been added are what has been returned and the counter, and `poll` agrees with
    the calls. -/
theorem eventFd_conserves {initval : BitVec 32} {isSemaphore : Bool} {s : EventFdWorld}
    (h : Run EventFdWorld.step (fun _ _ => True) (EventFdWorld.create initval isSemaphore) s) :
    s.Conserved initval ∧ s.Polls :=
  ⟨h.invariant (fun _ _ _ hs _ hstep => hs.step hstep)
    (EventFdWorld.conserved_create initval isSemaphore), s.polls⟩

/-- A read waits on a fresh counter; of two writes the second has to wait for the read. -/
theorem eventFd_conserves_waiting : ∃ s, Run EventFdWorld.step (fun _ _ => True)
    (EventFdWorld.create 0#32 false) s ∧ s.node.counter = 1#64 ∧ s.returned = 2 ^ 64 - 2 ∧
      s.Conserved 0#32 := by
  obtain ⟨s, hs, hread⟩ := exists_ok_of_map
    (show (([.call 0 0#64 (.read 8#64), .call 1 0#64 (.write 8#64 COUNTER_MAX),
        .call 2 0#64 (.write 8#64 1#64), .wake 0 0#64, .wake 2 0#64] : List EventFdOp).foldlM
        EventFdWorld.step (EventFdWorld.create 0#32 false)).map
        (fun s => (s.node.counter, s.returned)) = .ok (1#64, 2 ^ 64 - 2) by decide +kernel)
  obtain ⟨hcounter, hreturned⟩ := Prod.mk.inj hread
  have hrun : Run EventFdWorld.step (fun _ _ => True) (EventFdWorld.create 0#32 false) s :=
    Run.start.foldlM (by simp) hs
  exact ⟨s, hrun, hcounter, hreturned, (eventFd_conserves hrun).1⟩

end Fishix.Userland
