import Fishix.Userland.Epoll

/-!
# FUTEX_WAKE_OP

Model of `futex_wake` and `futex_wake_op` (userland/futex.cpp:44-109) with what they use of
`get_physical_addr` (mem/vmm.cpp:182-188) and `Event::trigger` (sched/event.cpp:75-104). Interrupts
are off in `futex_wake_op`.

The operation word has the comparison in bits 24 to 27 and the operand in bits 12 to 23.
`futex_wake_op` takes each for the other, does `FUTEX_OP_ANDN` by `fetch_nand`, and looks at the
comparison only when it has stored and woken. `trigger` wakes one listener also where none is to be
woken.

* `encode_op`, `encode_cmp`, `encode_oparg`, `encode_cmparg`: the fields of the word.
* `wakeUp_le_iff`: when a wake-up keeps to its number.
* `futexWakeOp_decodes_iff`: when the call does what the word says.
-/

namespace Fishix.Userland

open Function (update update_self)

abbrev U32 := BitVec 32

/-! ## The operation word -/

/-- `FUTEX_OP_SET` to `FUTEX_OP_XOR`. -/
inductive FutexOp
  | set | add | or | andn | xor
  deriving DecidableEq

/-- `FUTEX_OP_CMP_EQ` to `FUTEX_OP_CMP_GE`. -/
inductive FutexCmp
  | eq | ne | lt | le | gt | ge
  deriving DecidableEq

def FutexOp.code : FutexOp → BitVec 4
  | .set => 0
  | .add => 1
  | .or => 2
  | .andn => 3
  | .xor => 4

def FutexCmp.code : FutexCmp → BitVec 4
  | .eq => 0
  | .ne => 1
  | .lt => 2
  | .le => 3
  | .gt => 4
  | .ge => 5

def FUTEX_OP_OPARG_SHIFT : U32 := 8#32

/-- What a word is built of. -/
structure WakeOp where
  op : FutexOp
  shift : Bool
  oparg : BitVec 12
  cmp : FutexCmp
  cmparg : BitVec 12

namespace WakeOp

variable (o : WakeOp)

/-- The first field: the operation with its flag. -/
def opField : BitVec 4 := 
  if o.shift then o.op.code ||| FUTEX_OP_OPARG_SHIFT.setWidth 4 else o.op.code

/-- `FUTEX_OP(op, oparg, cmp, cmparg)`. -/
def encode : U32 :=
  (o.opField.setWidth 32 <<< 28) ||| (o.cmp.code.setWidth 32 <<< 24) |||
    (o.oparg.setWidth 32 <<< 12) ||| o.cmparg.setWidth 32

/-- The operand. What is shifted out is lost. -/
def operand : U32 := if o.shift then 1#32 <<< o.oparg.toNat else o.oparg.setWidth 32

/-- What the word says is to be stored. -/
def value (old : U32) : U32 :=
  match o.op with
  | .set => o.operand
  | .add => old + o.operand
  | .or => old ||| o.operand
  | .andn => old &&& ~~~o.operand
  | .xor => old ^^^ o.operand

end WakeOp

/-- A comparison. -/
def FutexCmp.holds (c : FutexCmp) (old arg : U32) : Bool :=
  match c with
  | .eq => old == arg
  | .ne => old != arg
  | .lt => old < arg
  | .le => old ≤ arg
  | .gt => arg < old
  | .ge => arg ≤ old

/-! ## The calls -/

/-- A call of `futex_wake` and what it has returned. -/
structure FutexWake where
  uaddr : U64
  maxToWake : ℤ
  woken : ℤ
  deriving DecidableEq

/-- What a process's futexes are: the page table entries of its pages, the words of memory by their
    physical addresses, the events of `futex_hash_table`, the threads that listen to each, and which
    threads are blocked. `calls` are the calls of `futex_wake`; no function looks at them. -/
structure FutexWorld where
  entry : U64 → Option U64
  memory : U64 → U32
  table : HashTable U64 ℕ
  listeners : ℕ → List ℕ := fun _ => []
  blocked : ℕ → Bool := fun _ => false
  calls : List FutexWake := []

/-- The access to a page that is not mapped. -/
inductive FutexFault
  | segfault
  deriving DecidableEq

/-- `-EINVAL`. -/
def futexInvalid : ℤ := -22

/-- The loop of `trigger` (sched/event.cpp:87-98), with the count and the blocked threads. -/
def triggerListeners (maxToWake : ℤ) : List ℕ → ℤ → (ℕ → Bool) → ℤ × (ℕ → Bool)
  | [], numWokenUp, blocked => (numWokenUp, blocked)
  | t :: ts, numWokenUp, blocked =>
    let blocked := update blocked t false
    if numWokenUp + 1 ≥ maxToWake then (numWokenUp + 1, blocked)
    else triggerListeners maxToWake ts (numWokenUp + 1) blocked

namespace FutexWorld

variable (w : FutexWorld)

/-- `get_physical_addr` of a page that has been accessed (mem/vmm.cpp:182-185). -/
def physicalPage (e : U64) : U64 := e &&& 0x000FFFFFFFFFF000#64

/-- Where a word is. -/
def physical (e uaddr : U64) : U64 := physicalPage e ||| (uaddr &&& 0xfff#64)

/-- An access to the word at `uaddr`, which is replaced by `f` of it; the page is mapped by then. -/
def fetch (uaddr : U64) (f : U32 → U32) : Except FutexFault (U32 × FutexWorld) :=
  match w.entry uaddr with
  | none => .error .segfault
  | some e =>
    let old := w.memory (physical e uaddr)
    .ok (old, { w with memory := update w.memory (physical e uaddr) (f old) })

/-- `event->trigger(true, max_to_wake)`. -/
def trigger (event : ℕ) (maxToWake : ℤ) : ℤ × FutexWorld :=
  if w.listeners event = [] then (0, w)
  else
    let (n, blocked) := triggerListeners maxToWake (w.listeners event) 0 w.blocked
    (n, { w with blocked })

/-- `futex_wake` (userland/futex.cpp:44-63). -/
def futexWake (uaddr : U64) (maxToWake : ℤ) : Except FutexFault (ℤ × FutexWorld) :=
  match w.entry uaddr with
  | none => .error .segfault
  | some e =>
    let phyAddr := physicalPage e
    if phyAddr.toInt < 0 then .ok (phyAddr.toInt, w)
    else
      let (ret, w) :=
        match w.table.find hash64 phyAddr with
        | none => (0, w)
        | some event => w.trigger event maxToWake
      .ok (ret, { w with calls := w.calls ++ [⟨uaddr, maxToWake, ret⟩] })

/-- The operations of `futex_wake_op` (userland/futex.cpp:78-85). -/
def storeOf (op opArg old : U32) : Option U32 :=
  if op = 0#32 then some opArg
  else if op = 1#32 then some (old + opArg)
  else if op = 2#32 then some (old ||| opArg)
  -- `__atomic_fetch_nand`
  else if op = 3#32 then some (~~~(old &&& opArg))
  else if op = 4#32 then some (old ^^^ opArg)
  else none

/-- The comparisons of `futex_wake_op` (userland/futex.cpp:91-99). -/
def cmpOf (cmp : U32) : Option FutexCmp :=
  if cmp = 0#32 then some .eq
  else if cmp = 1#32 then some .ne
  else if cmp = 2#32 then some .lt
  else if cmp = 3#32 then some .le
  else if cmp = 4#32 then some .gt
  else if cmp = 5#32 then some .ge
  else none

/-- The end of `futex_wake_op` (userland/futex.cpp:90-108). -/
def compareWake (old cmp cmpArg : U32) (uaddr2 : U64) (maxToWake2 ret1 : ℤ) :
    Except FutexFault (ℤ × FutexWorld) :=
  match cmpOf cmp with
  | none => .ok (futexInvalid, w)
  | some c =>
    if c.holds old cmpArg then do
      let (ret2, w) ← w.futexWake uaddr2 maxToWake2
      if ret2 < 0 then return (ret2, w)
      return (ret1 + ret2, w)
    else .ok (ret1 + 0, w)

/-- `futex_wake_op` (userland/futex.cpp:65-109). -/
def futexWakeOp (uaddr1 : U64) (maxToWake1 : ℤ) (uaddr2 : U64) (maxToWake2 : ℤ) (opEncoded : U32) :
    Except FutexFault (ℤ × FutexWorld) :=
  let op := (opEncoded >>> 28) &&& 0xf#32
  let opArg := (opEncoded >>> 24) &&& 0xf#32
  let cmp := (opEncoded >>> 12) &&& 0xfff#32
  let cmpArg := opEncoded &&& 0xfff#32
  let shift := op &&& FUTEX_OP_OPARG_SHIFT ≠ 0#32
  let opArg := if shift then 1#32 <<< opArg.toNat else opArg
  let op := if shift then op &&& ~~~FUTEX_OP_OPARG_SHIFT else op
  if (storeOf op opArg 0#32).isNone then .ok (futexInvalid, w)
  else do
    let (old, w) ← w.fetch uaddr2 fun old => (storeOf op opArg old).getD old
    let (ret1, w) ← w.futexWake uaddr1 maxToWake1
    if ret1 < 0 then return (ret1, w)
    w.compareWake old cmp cmpArg uaddr2 maxToWake2 ret1

end FutexWorld

/-! ## What the call is to do -/

namespace FutexWorld

/-- The threads that listen at the event of `uaddr`. -/
def waiters (w : FutexWorld) (uaddr : U64) : List ℕ :=
  match w.entry uaddr with
  | none => []
  | some e =>
    match w.table.find hash64 (physicalPage e) with
    | none => []
    | some event => w.listeners event

/-- One may be woken, or none may and nobody waits. -/
def Keeps (w : FutexWorld) (uaddr : U64) (maxToWake : ℤ) : Prop :=
  1 ≤ maxToWake ∨ maxToWake = 0 ∧ w.waiters uaddr = []

/-- The arguments of a call, with the page table entry at `uaddr2`. -/
structure WakeOpCall where
  uaddr1 : U64
  maxToWake1 : ℤ
  uaddr2 : U64
  maxToWake2 : ℤ
  entry2 : U64
  op : WakeOp

namespace WakeOpCall

variable (c : WakeOpCall) (w : FutexWorld)

/-- The word at `uaddr2` before the call. -/
def old : U32 := w.memory (physical c.entry2 c.uaddr2)

/-- Whether the comparison of the word holds. -/
def holds : Bool := c.op.cmp.holds (c.old w) (c.op.cmparg.setWidth 32)

/-- The value is stored, at most `max_to_wake1` are woken at `uaddr1`, and at most `max_to_wake2` at
    `uaddr2`, where none are looked for unless the comparison holds. -/
structure Obeyed (w' : FutexWorld) : Prop where
  memory : w'.memory =
    update w.memory (physical c.entry2 c.uaddr2) (c.op.value (c.old w))
  calls : ∃ n1 ≤ c.maxToWake1, if c.holds w then
      ∃ n2 ≤ c.maxToWake2, w'.calls = w.calls ++
        [⟨c.uaddr1, c.maxToWake1, n1⟩, ⟨c.uaddr2, c.maxToWake2, n2⟩]
    else w'.calls = w.calls ++ [⟨c.uaddr1, c.maxToWake1, n1⟩]

/-- With the comparison for an operand and the operand for a comparison, and NAND for AND-NOT, the
    same value is stored and the outcome of the comparison is the same; and no wake-up is for
    nobody where somebody waits. -/
structure Harmless : Prop where
  stored : storeOf (c.op.op.code.setWidth 32)
    (if c.op.shift then 1#32 <<< c.op.cmp.code.toNat else c.op.cmp.code.setWidth 32) (c.old w) =
      some (c.op.value (c.old w))
  compared : ((cmpOf (c.op.oparg.setWidth 32)).elim false fun cmp =>
    cmp.holds (c.old w) (c.op.cmparg.setWidth 32)) = c.holds w
  keeps1 : w.Keeps c.uaddr1 c.maxToWake1
  keeps2 : c.holds w = true → w.Keeps c.uaddr2 c.maxToWake2

end WakeOpCall

end FutexWorld

/-! ## The fields -/

section Fields

variable (o : WakeOp)

/-- The word is its four fields. -/
theorem encode_eq : o.encode = o.opField ++ o.cmp.code ++ o.oparg ++ o.cmparg := by
  unfold WakeOp.encode
  apply BitVec.eq_of_getLsbD_eq
  intro i hi
  simp only [BitVec.getLsbD_or, BitVec.getLsbD_shiftLeft, BitVec.getLsbD_setWidth,
    BitVec.getLsbD_append]
  grind

/-- A field is cut out by a shift and a mask. -/
theorem ushiftRight_and_mask {x m : U32} {k n : ℕ} {f : BitVec n}
    (hm : (BitVec.allOnes n).setWidth 32 = m) (hf : ∀ i < n, x.getLsbD (k + i) = f.getLsbD i) :
    (x >>> k) &&& m = f.setWidth 32 := by
  subst hm
  apply BitVec.eq_of_getLsbD_eq
  intro i hi
  simp only [BitVec.getLsbD_and, BitVec.getLsbD_ushiftRight, BitVec.getLsbD_setWidth,
    BitVec.getLsbD_allOnes]
  grind

theorem encode_op : (o.encode >>> 28) &&& 0xf#32 = o.opField.setWidth 32 := by
  refine ushiftRight_and_mask rfl ?_
  intro i hi
  rw [encode_eq]
  simp only [BitVec.getLsbD_append]
  grind

theorem encode_cmp : (o.encode >>> 24) &&& 0xf#32 = o.cmp.code.setWidth 32 := by
  refine ushiftRight_and_mask rfl ?_
  intro i hi
  rw [encode_eq]
  simp only [BitVec.getLsbD_append]
  grind

theorem encode_oparg : (o.encode >>> 12) &&& 0xfff#32 = o.oparg.setWidth 32 := by
  refine ushiftRight_and_mask rfl ?_
  intro i hi
  rw [encode_eq]
  simp only [BitVec.getLsbD_append]
  grind

theorem encode_cmparg : o.encode &&& 0xfff#32 = o.cmparg.setWidth 32 := by
  rw [← BitVec.ushiftRight_zero o.encode]
  refine ushiftRight_and_mask rfl ?_
  intro i hi
  rw [encode_eq]
  simp only [BitVec.getLsbD_append]
  grind

/-- The flag is the top bit of the operation, which is what the rest of it is. -/
theorem opField_shift : (o.opField.setWidth 32 &&& FUTEX_OP_OPARG_SHIFT ≠ 0#32) ↔
    o.shift = true := by
  unfold WakeOp.opField
  cases o.shift <;> cases o.op <;> decide

theorem opField_code :
    (if o.shift = true then o.opField.setWidth 32 &&& ~~~FUTEX_OP_OPARG_SHIFT
      else o.opField.setWidth 32) = o.op.code.setWidth 32 := by
  unfold WakeOp.opField
  cases o.shift <;> cases o.op <;> decide

/-- An operation is a valid one. -/
theorem storeOf_code (op : FutexOp) (opArg old : U32) :
    ∃ v, FutexWorld.storeOf (op.code.setWidth 32) opArg old = some v := by
  cases op <;> exact ⟨_, rfl⟩

end Fields

/-! ## Wake-ups -/

/-- From a list that is not empty at least one is woken, and no more than may be. -/
theorem triggerListeners_count (maxToWake : ℤ) (t : ℕ) (ts : List ℕ) (n : ℤ)
    (blocked : ℕ → Bool) :
    n + 1 ≤ (triggerListeners maxToWake (t :: ts) n blocked).1 ∧
      (triggerListeners maxToWake (t :: ts) n blocked).1 ≤ max (n + 1) maxToWake := by
  induction ts generalizing t n blocked with
  | nil =>
    unfold triggerListeners
    dsimp only
    split_ifs
    · exact ⟨le_refl _, le_max_left _ _⟩
    · exact ⟨le_refl _, le_max_left _ _⟩
  | cons u us ih =>
    unfold triggerListeners
    dsimp only
    split_ifs with hmax
    · exact ⟨le_refl _, le_max_left _ _⟩
    · obtain ⟨hlow, hhigh⟩ := ih u (n + 1) (update blocked t false)
      have hle := le_max_iff.mp hhigh
      rw [le_max_iff]
      omega

namespace FutexWorld

variable {w : FutexWorld} {uaddr e : U64} {maxToWake : ℤ}

theorem physicalPage_nonneg (e : U64) : ¬(physicalPage e).toInt < 0 := by
  have hmsb : (physicalPage e).msb = false := by
    unfold physicalPage
    rw [BitVec.msb_and]
    exact Bool.and_false _
  rw [BitVec.toInt_eq_toNat_of_msb hmsb]
  omega

theorem keeps_of_nobody (h : w.waiters uaddr = []) : w.Keeps uaddr maxToWake ↔ 0 ≤ maxToWake := by
  unfold Keeps
  simp only [h, and_true]
  omega

/-- What a wake-up does, and when it keeps to its number. -/
theorem futexWake_mapped (h : w.entry uaddr = some e) (maxToWake : ℤ) : ∃ n blocked,
    w.futexWake uaddr maxToWake = .ok (n, { w with
      blocked, calls := w.calls ++ [⟨uaddr, maxToWake, n⟩] }) ∧
    0 ≤ n ∧ (n ≤ maxToWake ↔ w.Keeps uaddr maxToWake) := by
  unfold futexWake
  simp only [h, if_neg (physicalPage_nonneg e)]
  cases hfind : w.table.find hash64 (physicalPage e) with
  | none =>
    have hwaiters : w.waiters uaddr = [] := by simp [waiters, h, hfind]
    exact ⟨0, w.blocked, rfl, le_refl _, (keeps_of_nobody hwaiters).symm⟩
  | some event =>
    cases hlisteners : w.listeners event with
    | nil =>
      have hwaiters : w.waiters uaddr = [] := by simp [waiters, h, hfind, hlisteners]
      refine ⟨0, w.blocked, ?_, le_refl _, (keeps_of_nobody hwaiters).symm⟩
      simp [trigger, hlisteners]
    | cons t ts =>
      have hwaiters : w.waiters uaddr ≠ [] := by simp [waiters, h, hfind, hlisteners]
      obtain ⟨hlow, hhigh⟩ := triggerListeners_count maxToWake t ts 0 w.blocked
      refine ⟨(triggerListeners maxToWake (t :: ts) 0 w.blocked).1,
        (triggerListeners maxToWake (t :: ts) 0 w.blocked).2, ?_, by omega, ?_⟩
      · simp [trigger, hlisteners]
      · have hle := le_max_iff.mp hhigh
        unfold Keeps
        simp only [hwaiters, and_false, or_false]
        omega

theorem keeps_congr {w' : FutexWorld} (hentry : w'.entry = w.entry) (htable : w'.table = w.table)
    (hlisteners : w'.listeners = w.listeners) :
    w'.Keeps uaddr maxToWake ↔ w.Keeps uaddr maxToWake := by
  unfold Keeps waiters
  rw [hentry, htable, hlisteners]

/-! ## The whole call -/

namespace WakeOpCall

variable {c : WakeOpCall}

/-- What the code stores. -/
def stored (c : WakeOpCall) (old : U32) : U32 :=
  (storeOf (c.op.op.code.setWidth 32)
    (if c.op.shift then 1#32 <<< c.op.cmp.code.toNat else c.op.cmp.code.setWidth 32) old).getD old

/-- Whether the code looks for waiters at `uaddr2`. -/
def looks (c : WakeOpCall) (old : U32) : Bool :=
  (cmpOf (c.op.oparg.setWidth 32)).elim false fun cmp => cmp.holds old (c.op.cmparg.setWidth 32)

/-- What the call does, word by word. -/
theorem futexWakeOp_eq {e1 : U64} (h1 : w.entry c.uaddr1 = some e1)
    (h2 : w.entry c.uaddr2 = some c.entry2) : ∃ ret w' n1,
    w.futexWakeOp c.uaddr1 c.maxToWake1 c.uaddr2 c.maxToWake2 c.op.encode = .ok (ret, w') ∧
      w'.memory = update w.memory (physical c.entry2 c.uaddr2) (c.stored (c.old w)) ∧
      (n1 ≤ c.maxToWake1 ↔ w.Keeps c.uaddr1 c.maxToWake1) ∧
      ∃ n2, (n2 ≤ c.maxToWake2 ↔ w.Keeps c.uaddr2 c.maxToWake2) ∧
        w'.calls = w.calls ++ ⟨c.uaddr1, c.maxToWake1, n1⟩ ::
          if c.looks (c.old w) then [⟨c.uaddr2, c.maxToWake2, n2⟩] else [] := by
  let w1 : FutexWorld := { w with
    memory := update w.memory (physical c.entry2 c.uaddr2) (c.stored (c.old w)) }
  obtain ⟨n1, blocked1, hwake1, hpos1, hkeeps1⟩ :=
    futexWake_mapped (w := w1) h1 c.maxToWake1
  let w2 : FutexWorld := { w1 with
    blocked := blocked1, calls := w1.calls ++ [⟨c.uaddr1, c.maxToWake1, n1⟩] }
  obtain ⟨n2, blocked2, hwake2, hpos2, hkeeps2⟩ :=
    futexWake_mapped (w := w2) h2 c.maxToWake2
  have hstart : w.futexWakeOp c.uaddr1 c.maxToWake1 c.uaddr2 c.maxToWake2 c.op.encode =
      w2.compareWake (c.old w) (c.op.oparg.setWidth 32) (c.op.cmparg.setWidth 32) c.uaddr2
        c.maxToWake2 n1 := by
    obtain ⟨v, hv⟩ := storeOf_code c.op.op
      (if c.op.shift then 1#32 <<< c.op.cmp.code.toNat else c.op.cmp.code.setWidth 32) 0#32
    have hcode : (c.op.cmp.code.setWidth 32).toNat = c.op.cmp.code.toNat :=
      BitVec.toNat_setWidth_of_le (by decide)
    have hfetch : w.fetch c.uaddr2 c.stored = .ok (c.old w, w1) := by
      unfold fetch
      rw [h2]
      rfl
    unfold futexWakeOp
    simp only [encode_op, encode_cmp, encode_oparg, encode_cmparg, opField_shift, opField_code,
      hcode, hv, Option.isNone_some, Bool.false_eq_true, if_false]
    show w.fetch c.uaddr2 c.stored >>= _ = _
    rw [hfetch, ok_bind]
    dsimp only
    rw [hwake1, ok_bind]
    exact if_neg (not_lt.mpr hpos1)
  have hkeeps1 : n1 ≤ c.maxToWake1 ↔ w.Keeps c.uaddr1 c.maxToWake1 :=
    hkeeps1.trans (keeps_congr rfl rfl rfl)
  have hkeeps2 : n2 ≤ c.maxToWake2 ↔ w.Keeps c.uaddr2 c.maxToWake2 :=
    hkeeps2.trans (keeps_congr rfl rfl rfl)
  rw [hstart]
  unfold compareWake looks
  cases hcmp : cmpOf (c.op.oparg.setWidth 32) with
  | none => exact ⟨futexInvalid, w2, n1, rfl, rfl, hkeeps1, n2, hkeeps2, rfl⟩
  | some cmp =>
    by_cases hholds : cmp.holds (c.old w) (c.op.cmparg.setWidth 32) = true
    · simp only [hholds, if_true, hwake2, ok_bind, if_neg (not_lt.mpr hpos2), Option.elim_some]
      refine ⟨n1 + n2, _, n1, rfl, rfl, hkeeps1, n2, hkeeps2, ?_⟩
      show w.calls ++ [_] ++ [_] = _
      rw [List.append_assoc]
      rfl
    · simp only [hholds, Option.elim_some]
      exact ⟨n1 + 0, w2, n1, rfl, rfl, hkeeps1, n2, hkeeps2, rfl⟩

theorem storeOf_eq_stored (c : WakeOpCall) (old : U32) : storeOf (c.op.op.code.setWidth 32)
    (if c.op.shift then 1#32 <<< c.op.cmp.code.toNat else c.op.cmp.code.setWidth 32) old =
      some (c.stored old) := by
  obtain ⟨v, hv⟩ := storeOf_code c.op.op
    (if c.op.shift then 1#32 <<< c.op.cmp.code.toNat else c.op.cmp.code.setWidth 32) old
  unfold stored
  rw [hv]
  rfl

/-- **Main theorem.** For every word of a valid operation and a valid comparison, and every old
    value, the call does what the word says exactly if taking the fields for each other is
    harmless. -/
theorem futexWakeOp_decodes_iff {e1 : U64} (h1 : w.entry c.uaddr1 = some e1)
    (h2 : w.entry c.uaddr2 = some c.entry2) :
    (∃ ret w', w.futexWakeOp c.uaddr1 c.maxToWake1 c.uaddr2 c.maxToWake2 c.op.encode =
      .ok (ret, w') ∧ c.Obeyed w w') ↔ c.Harmless w := by
  obtain ⟨ret, w', n1, hrun, hmemory, hn1, n2, hn2, hcalls⟩ := futexWakeOp_eq h1 h2
  constructor
  · rintro ⟨ret', w'', hrun', hobeyed⟩
    rw [hrun] at hrun'
    obtain ⟨rfl, rfl⟩ := pure_pair hrun'
    have hstored : c.stored (c.old w) = c.op.value (c.old w) := by
      have hsame := congrFun (hmemory.symm.trans hobeyed.memory) (physical c.entry2 c.uaddr2)
      rwa [update_self, update_self] at hsame
    obtain ⟨m1, hm1, hasked⟩ := hobeyed.calls
    by_cases hholds : c.holds w = true
    · rw [if_pos hholds] at hasked
      obtain ⟨m2, hm2, hasked⟩ := hasked
      have hlist := List.append_cancel_left (hcalls.symm.trans hasked)
      by_cases hlooks : c.looks (c.old w) = true
      · rw [if_pos hlooks] at hlist
        simp only [List.cons.injEq, FutexWake.mk.injEq, true_and, and_true] at hlist
        obtain ⟨rfl, rfl⟩ := hlist
        exact ⟨hstored ▸ storeOf_eq_stored c _, hlooks.trans hholds.symm, hn1.mp hm1,
          fun _ => hn2.mp hm2⟩
      · rw [if_neg hlooks] at hlist
        simp at hlist
    · rw [if_neg hholds] at hasked
      have hlist := List.append_cancel_left (hcalls.symm.trans hasked)
      by_cases hlooks : c.looks (c.old w) = true
      · rw [if_pos hlooks] at hlist
        simp at hlist
      · rw [if_neg hlooks] at hlist
        simp only [List.cons.injEq, FutexWake.mk.injEq, true_and, and_true] at hlist
        obtain rfl := hlist
        refine ⟨hstored ▸ storeOf_eq_stored c _, ?_, hn1.mp hm1, fun h => absurd h hholds⟩
        exact (Bool.eq_false_of_not_eq_true hlooks).trans (Bool.eq_false_of_not_eq_true hholds).symm
  · intro h
    have hstored : c.stored (c.old w) = c.op.value (c.old w) :=
      Option.some.inj ((storeOf_eq_stored c _).symm.trans h.stored)
    have hlooks : c.looks (c.old w) = c.holds w := h.compared
    refine ⟨ret, w', hrun, hstored ▸ hmemory, n1, hn1.mpr h.keeps1, ?_⟩
    rw [hlooks] at hcalls
    by_cases hholds : c.holds w = true
    · rw [if_pos hholds] at hcalls ⊢
      exact ⟨n2, hn2.mpr (h.keeps2 hholds), hcalls⟩
    · rw [if_neg hholds] at hcalls ⊢
      exact hcalls

/-- `FUTEX_OP(FUTEX_OP_SET, 0, FUTEX_OP_CMP_EQ, 5)`: both fields are zero. -/
theorem futexWakeOp_decodes_iff_set :
    let w : FutexWorld :=
      { entry := fun _ => some 0x1000#64, memory := fun _ => 5#32, table := HashTable.create 256 }
    let c : WakeOpCall := ⟨0x400000#64, 1, 0x400004#64, 1, 0x1000#64, ⟨.set, false, 0, .eq, 5⟩⟩
    ∃ ret w', w.futexWakeOp c.uaddr1 c.maxToWake1 c.uaddr2 c.maxToWake2 c.op.encode =
      .ok (ret, w') ∧ c.Obeyed w w' := by
  intro w c
  have hharmless : c.Harmless w :=
    ⟨by decide, by decide, .inl (le_refl _), fun _ => .inl (le_refl _)⟩
  exact (futexWakeOp_decodes_iff rfl rfl).mpr hharmless

/-- `FUTEX_OP(FUTEX_OP_ADD, 1, FUTEX_OP_CMP_EQ, 0)` adds nothing. -/
theorem add_one_adds_zero :
    let w : FutexWorld :=
      { entry := fun _ => some 0x1000#64, memory := fun _ => 0#32, table := HashTable.create 256 }
    let c : WakeOpCall := ⟨0x400000#64, 1, 0x400004#64, 1, 0x1000#64, ⟨.add, false, 1, .eq, 0⟩⟩
    ¬∃ ret w', w.futexWakeOp c.uaddr1 c.maxToWake1 c.uaddr2 c.maxToWake2 c.op.encode =
      .ok (ret, w') ∧ c.Obeyed w w' := by
  rintro w c ⟨ret, w', hrun, hobeyed⟩
  obtain ⟨ret1, w1, n1, hrun1, hmemory, -⟩ := futexWakeOp_eq (w := w) (c := c) rfl rfl
  rw [hrun] at hrun1
  obtain ⟨rfl, rfl⟩ := pure_pair hrun1
  have hsame := congrFun (hmemory.symm.trans hobeyed.memory) (physical c.entry2 c.uaddr2)
  rw [update_self, update_self] at hsame
  exact absurd hsame (by decide)

end WakeOpCall

end FutexWorld

end Fishix.Userland
