import Fishix.Common.StackMemory
import Fishix.Userland.Cred
import Fishix.Userland.Elf

/-!
# The stack of a new program

How `user_exec` fills the stack (sched/sched.cpp:455-543): the strings from the top downward, below
them the table that the stack pointer will point to. Room is left for the terminators of the
strings, but they are not written.

* `buildStack_ok`: what a stack that has been built holds.
* `buildStack_completes`: it is built if there is room for it.
* `buildStack_room`: if it has been built, there was room for it in the address space.
-/

namespace Fishix.Userland

open ByteMemory
open BitVec (ofNat toNat_ofNat ofNat_add)

/-! ## What is put on the stack -/

/-- The arguments of `user_exec`, the strings without their NUL. -/
structure ExecCall where
  path : List CChar
  argv : List (List CChar)
  envp : List (List CChar)

/-- The new stack: the strings, the vectors and the stack pointer below them
    (sched/sched.cpp:455-543). -/
structure StackPlan where
  argStart : U64
  argEnd : U64
  envStart : U64
  envEnd : U64
  rsp : U64

/-- The bytes that strings take with their NULs. -/
def stringsLength (strings : List (List CChar)) : U64 :=
  ofNat 64 (strings.map fun s => s.length + 1).sum

def stackPlan (call : ExecCall) (interpreter : Option (List CChar × Option (List CChar)))
    (top : U64) : StackPlan :=
  let interpreterArgs := match interpreter with
    | none => []
    | some (path, arg) => path :: arg.toList
  -- a script's path takes the place of `argv[0]`
  let argv := match interpreter, call.argv with
    | some _, _ :: argv => call.path :: argv
    | _, argv => argv
  let envEnd := top - 16#64 - ofNat 64 (call.path.length + 1)
  let envStart := envEnd - stringsLength call.envp
  let argStart := envStart - stringsLength argv - stringsLength interpreterArgs
  let words := call.argv.length + call.envp.length + interpreterArgs.length
  let aligned := alignDown argStart 16#64 - (if (words + 1) % 2 = 1 then 8#64 else 0#64)
  -- 13 auxiliary vectors and their end, the ends of `envp` and `argv`, and `argc`
  { argStart, argEnd := envStart, envStart, envEnd
    rsp := aligned - ofNat 64 (8 * (2 + 2 * 13 + 1 + 1 + 1 + words)) }

/-- `argv`, in which a script's path takes the place of `argv[0]` (sched/sched.cpp:411-418). -/
def scriptArgv (call : ExecCall) (interpreter : Option (List CChar × Option (List CChar))) :
    List (List CChar) :=
  match interpreter, call.argv with
  | some _, _ :: argv => call.path :: argv
  | _, argv => argv

/-- `interpreter_path` and `interpreter_arg`, where they are set. -/
def interpreterArgs (interpreter : Option (List CChar × Option (List CChar))) :
    List (List CChar) :=
  match interpreter with
  | none => []
  | some (path, arg) => path :: arg.toList

/-- The arguments of the new program. -/
def newArgs (call : ExecCall) (interpreter : Option (List CChar × Option (List CChar))) :
    List (List CChar) :=
  interpreterArgs interpreter ++ scriptArgv call interpreter

def AT_NULL : U64 := 0#64
def AT_PHDR : U64 := 3#64
def AT_PHENT : U64 := 4#64
def AT_PHNUM : U64 := 5#64
def AT_PAGESZ : U64 := 6#64
def AT_FLAGS : U64 := 8#64
def AT_ENTRY : U64 := 9#64
def AT_UID : U64 := 11#64
def AT_EUID : U64 := 12#64
def AT_GID : U64 := 13#64
def AT_EGID : U64 := 14#64
def AT_SECURE : U64 := 23#64
def AT_RANDOM : U64 := 25#64
def AT_EXECFN : U64 := 31#64

/-- The auxiliary vector in the order in which it is pushed (sched/sched.cpp:499-511). -/
def auxEntries (execfn randomData : U64) (auxv : Auxval) (cred : Cred) : List (U64 × U64) :=
  [(AT_EXECFN, execfn), (AT_RANDOM, randomData), (AT_SECURE, 0#64),
    (AT_EGID, cred.gids.eid.setWidth 64), (AT_GID, cred.gids.rid.setWidth 64),
    (AT_EUID, cred.uids.eid.setWidth 64), (AT_UID, cred.uids.rid.setWidth 64),
    (AT_ENTRY, auxv.atEntry), (AT_FLAGS, 0#64), (AT_PHNUM, auxv.atPhnum),
    (AT_PHENT, auxv.atPhent), (AT_PHDR, auxv.atPhdr), (AT_PAGESZ, pageSize)]

/-- What is pushed below the strings, block by block (sched/sched.cpp:498-543). -/
def tablePushes (aux : List (U64 × U64)) (argStart envStart : U64)
    (args envp : List (List CChar)) : List (List U64) :=
  [0#64, 0#64] :: aux.map (fun p => [p.1, p.2]) ++
    [[0#64], stringPointers envStart envp, [0#64], stringPointers argStart args,
      [ofNat 64 args.length]]

/-! ## Pushing -/

/-- `stack`, and the page map that it is written to. -/
structure Stack where
  space : Space
  sp : U64

namespace Stack

/-- A string is copied; there is room for its NUL. -/
def pushString (s : Stack) (str : List CChar) : Except Crash Stack := do
  let sp := s.sp - ofNat 64 str.length - 1#64
  let space ← s.space.write sp str
  return ⟨space, sp⟩

/-- A loop over strings, from the last one on. -/
def pushStrings (s : Stack) (strs : List (List CChar)) : Except Crash Stack :=
  strs.reverse.foldlM pushString s

/-- `stack` is lowered, and words are written there. -/
def pushWords (s : Stack) (ws : List U64) : Except Crash Stack := do
  let sp := s.sp - ofNat 64 (8 * ws.length)
  let space ← s.space.write sp (ws.flatMap wordBytes)
  return ⟨space, sp⟩

end Stack

/-- The stack is built below `top` (sched/sched.cpp:455-543). -/
def buildStack (call : ExecCall) (interpreter : Option (List CChar × Option (List CChar)))
    (auxv : Auxval) (cred : Cred) (top : U64) (space : Space) :
    Except Crash (StackPlan × Space) := do
  let argv := scriptArgv call interpreter
  let randomData := top - 16#64
  let space ← space.write randomData (List.replicate 16 0xAF#8)
  let s ← Stack.pushString ⟨space, randomData⟩ call.path
  let execfn := s.sp
  let s ← s.pushStrings call.envp
  let envStart := s.sp
  let s ← s.pushStrings argv
  -- `interpreter_arg`, then `interpreter_path`
  let s ← s.pushStrings (interpreterArgs interpreter)
  let argStart := s.sp
  let words := argv.length + call.envp.length + (interpreterArgs interpreter).length
  let aligned := alignDown s.sp 16#64 - (if (words + 1) % 2 = 1 then 8#64 else 0#64)
  let s ← (tablePushes (auxEntries execfn randomData auxv cred) argStart envStart
    (newArgs call interpreter) call.envp).foldlM Stack.pushWords ⟨s.space, aligned⟩
  return ({ argStart, argEnd := envStart, envStart, envEnd := execfn, rsp := s.sp }, s.space)

/-! ## What has been pushed -/

section Pushed

variable {s s' : Stack}

theorem pushString_ok {str : List CChar} (h : s.pushString str = .ok s') :
    s'.sp = s.sp - ofNat 64 (str.length + 1) ∧ s'.space.flags = s.space.flags ∧
      s'.space.byte = store s.space.byte s'.sp str := by
  unfold Stack.pushString at h
  obtain ⟨space, hwrite, rfl⟩ := bind_pure_ok h
  obtain ⟨-, hflags, -, hbyte⟩ := Space.write_ok hwrite
  refine ⟨?_, hflags, hbyte⟩
  show s.sp - ofNat 64 str.length - 1#64 = _
  rw [ofNat_add, sub_sub]

theorem pushStrings_ok {strs : List (List CChar)} (h : s.pushStrings strs = .ok s') :
    s'.sp = s.sp - ofNat 64 (stringsSize strs) ∧ s'.space.flags = s.space.flags ∧
      s'.space.byte = storeStrings s.space.byte s'.sp strs := by
  induction strs generalizing s' with
  | nil =>
    cases h
    exact ⟨by simp, rfl, rfl⟩
  | cons str strs ih =>
    unfold Stack.pushStrings at h
    rw [List.reverse_cons, List.foldlM_append] at h
    obtain ⟨s1, hrest, h⟩ := bind_ok h
    obtain ⟨s2, hfirst, h⟩ := bind_ok h
    obtain rfl : s2 = s' := Except.ok.inj h
    obtain ⟨hsp, hflags, hbyte⟩ := ih hrest
    obtain ⟨hsp', hflags', hbyte'⟩ := pushString_ok hfirst
    refine ⟨?_, hflags'.trans hflags, ?_⟩
    · rw [hsp', hsp, sub_sub, ← ofNat_add, stringsSize_cons, Nat.add_comm]
    · have hbelow : s2.sp + ofNat 64 (str.length + 1) = s1.sp := by
        rw [hsp', sub_add_cancel]
      unfold storeStrings
      rw [hbyte', hbyte, hbelow]

theorem pushWords_ok {ws : List U64} (h : s.pushWords ws = .ok s') :
    s'.sp = s.sp - ofNat 64 (8 * ws.length) ∧ s'.space.flags = s.space.flags ∧
      s'.space.byte = store s.space.byte s'.sp (ws.flatMap wordBytes) := by
  unfold Stack.pushWords at h
  obtain ⟨space, hwrite, rfl⟩ := bind_pure_ok h
  obtain ⟨-, hflags, -, hbyte⟩ := Space.write_ok hwrite
  exact ⟨rfl, hflags, hbyte⟩

/-- Blocks that are pushed one after the other are one table. -/
theorem pushTable_ok {blocks : List (List U64)} {ws : List U64}
    (hws : blocks.reverse.flatten = ws) (hsize : 8 * ws.length ≤ 2 ^ 64)
    (h : blocks.foldlM Stack.pushWords s = .ok s') :
    s'.sp = s.sp - ofNat 64 (8 * ws.length) ∧ s'.space.flags = s.space.flags ∧
      s'.space.byte = store s.space.byte s'.sp (ws.flatMap wordBytes) := by
  induction blocks generalizing s ws with
  | nil =>
    cases h
    obtain rfl := hws
    exact ⟨by simp, rfl, rfl⟩
  | cons block blocks ih =>
    rw [List.reverse_cons, List.flatten_concat] at hws
    obtain rfl := hws
    rw [List.length_append] at hsize
    obtain ⟨s1, hfirst, h⟩ := bind_ok h
    obtain ⟨hsp, hflags, hbyte⟩ := pushWords_ok hfirst
    obtain ⟨hsp', hflags', hbyte'⟩ := ih rfl (by omega) h
    refine ⟨?_, hflags'.trans hflags, ?_⟩
    · rw [hsp', hsp, sub_sub, ← ofNat_add, List.length_append, Nat.mul_add, Nat.add_comm]
    · have hbelow : s'.sp +
          ofNat 64 (blocks.reverse.flatten.flatMap wordBytes).length = s1.sp := by
        rw [length_flatMap_wordBytes, hsp', sub_add_cancel]
      have hfits : (blocks.reverse.flatten.flatMap wordBytes).length +
          (block.flatMap wordBytes).length ≤ 2 ^ 64 := by
        rw [length_flatMap_wordBytes, length_flatMap_wordBytes]
        omega
      rw [hbyte', hbyte, ← hbelow, store_append hfits, List.flatMap_append]

end Pushed

/-! ## What the stack holds -/

/-- The table below the strings, from the stack pointer up. -/
def tableWords (aux : List (U64 × U64)) (argStart envStart : U64)
    (args envp : List (List CChar)) : List U64 :=
  ofNat 64 args.length :: (stringPointers argStart args ++ 0#64 ::
    (stringPointers envStart envp ++ 0#64 ::
      (aux.reverse.flatMap (fun p => [p.1, p.2]) ++ [0#64, 0#64])))

section Memory

variable {call : ExecCall} {interpreter : Option (List CChar × Option (List CChar))} {auxv : Auxval}
  {cred : Cred} {top : U64} {space space' : Space} {plan : StackPlan}

theorem reverse_tablePushes (aux : List (U64 × U64)) (argStart envStart : U64)
    (args envp : List (List CChar)) :
    (tablePushes aux argStart envStart args envp).reverse.flatten =
      tableWords aux argStart envStart args envp := by
  simp [tablePushes, tableWords, List.flatMap_def]

theorem length_tableWords (aux : List (U64 × U64)) (argStart envStart : U64)
    (args envp : List (List CChar)) : (tableWords aux argStart envStart args envp).length =
      args.length + envp.length + 2 * aux.length + 5 := by
  have haux : (aux.reverse.flatMap fun p => [p.1, p.2]).length = 2 * aux.length := by
    simp [List.length_flatMap, Nat.mul_comm]
  simp only [tableWords, List.length_cons, List.length_append, length_stringPointers, haux,
    List.length_nil]
  omega

@[simp] theorem length_scriptArgv : (scriptArgv call interpreter).length = call.argv.length := by
  unfold scriptArgv
  split
  · rename_i hargv
    simp [hargv]
  · rfl

/-- The strings on the stack, from the lowest one up. -/
def stackStrings (call : ExecCall) (interpreter : Option (List CChar × Option (List CChar))) :
    List (List CChar) :=
  newArgs call interpreter ++ call.envp ++ [call.path]

/-- The memory when the stack has been built. -/
def stackMemory (call : ExecCall) (interpreter : Option (List CChar × Option (List CChar)))
    (auxv : Auxval) (cred : Cred) (top : U64) (m : ByteMemory) : ByteMemory :=
  let plan := stackPlan call interpreter top
  ((m.store (top - 16#64) (List.replicate 16 0xAF#8)).storeStrings plan.argStart
    (stackStrings call interpreter)).store plan.rsp
      ((tableWords (auxEntries plan.envEnd (top - 16#64) auxv cred) plan.argStart plan.envStart
        (newArgs call interpreter) call.envp).flatMap wordBytes)

theorem stackPlan_eq : stackPlan call interpreter top =
    let envEnd := top - 16#64 - ofNat 64 (call.path.length + 1)
    let envStart := envEnd - ofNat 64 (stringsSize call.envp)
    let argStart := envStart - ofNat 64 (stringsSize (scriptArgv call interpreter)) -
      ofNat 64 (stringsSize (interpreterArgs interpreter))
    let words := call.argv.length + call.envp.length + (interpreterArgs interpreter).length
    { argStart, argEnd := envStart, envStart, envEnd
      rsp := alignDown argStart 16#64 - (if (words + 1) % 2 = 1 then 8#64 else 0#64) -
        ofNat 64 (8 * (2 + 2 * 13 + 1 + 1 + 1 + words)) } := rfl

/-- What a stack that has been built holds. -/
theorem buildStack_ok
    (hsize : 8 * ((newArgs call interpreter).length + call.envp.length + 31) ≤ 2 ^ 64)
    (h : buildStack call interpreter auxv cred top space = .ok (plan, space')) :
    plan = stackPlan call interpreter top ∧ space'.flags = space.flags ∧
      space'.byte = stackMemory call interpreter auxv cred top space.byte := by
  unfold buildStack at h
  simp only at h
  obtain ⟨k, hrandom, h⟩ := bind_ok h
  obtain ⟨s1, hpath, h⟩ := bind_ok h
  obtain ⟨s2, henvp, h⟩ := bind_ok h
  obtain ⟨s3, hargv, h⟩ := bind_ok h
  obtain ⟨s4, hinterpreter, h⟩ := bind_ok h
  obtain ⟨s5, htable, h⟩ := bind_ok h
  obtain ⟨hplan, rfl⟩ := pure_pair h
  obtain ⟨-, hflags0, -, hbyte0⟩ := Space.write_ok hrandom
  obtain ⟨hsp1, hflags1, hbyte1⟩ := pushString_ok hpath
  obtain ⟨hsp2, hflags2, hbyte2⟩ := pushStrings_ok henvp
  obtain ⟨hsp3, hflags3, hbyte3⟩ := pushStrings_ok hargv
  obtain ⟨hsp4, hflags4, hbyte4⟩ := pushStrings_ok hinterpreter
  have hwords : (tableWords (auxEntries s1.sp (top - 16#64) auxv cred) s4.sp s2.sp
      (newArgs call interpreter) call.envp).length =
        (newArgs call interpreter).length + call.envp.length + 31 := length_tableWords _ _ _ _ _
  obtain ⟨hsp5, hflags5, hbyte5⟩ := pushTable_ok (reverse_tablePushes _ _ _ _ _)
    (by rw [hwords]; exact hsize) htable
  have hargs : (newArgs call interpreter).length =
      (interpreterArgs interpreter).length + call.argv.length := by simp [newArgs]
  have hplan' : plan = stackPlan call interpreter top := by
    have hcount : 8 * ((interpreterArgs interpreter).length + call.argv.length +
        call.envp.length + 31) = 8 * (2 + 2 * 13 + 1 + 1 + 1 +
          (call.argv.length + call.envp.length + (interpreterArgs interpreter).length)) := by
      omega
    rw [← hplan, stackPlan_eq, hsp5, hwords, hargs, hcount, length_scriptArgv, hsp4, hsp3, hsp2,
      hsp1]
  refine ⟨hplan', ?_, ?_⟩
  · rw [hflags5, hflags4, hflags3, hflags2, hflags1, hflags0]
  · have hstrings : s4.space.byte = storeStrings k.byte s4.sp (stackStrings call interpreter) := by
      have hat3 : s4.sp + ofNat 64 (stringsSize (interpreterArgs interpreter)) = s3.sp := by
        rw [hsp4, sub_add_cancel]
      have hat2 : s3.sp + ofNat 64 (stringsSize (scriptArgv call interpreter)) = s2.sp := by
        rw [hsp3, sub_add_cancel]
      have hat1 : s2.sp + ofNat 64 (stringsSize call.envp) = s1.sp := by
        rw [hsp2, sub_add_cancel]
      unfold stackStrings newArgs
      rw [List.append_assoc, List.append_assoc, storeStrings_append, storeStrings_append,
        storeStrings_append, hat3, hat2, hat1, hbyte4, hbyte3, hbyte2, hbyte1]
      rfl
    unfold stackMemory
    rw [← hplan', ← hplan, hbyte5]
    show store s4.space.byte s5.sp _ = _
    rw [hstrings, hbyte0]

end Memory

/-! ## Room for the stack -/

/-- The bytes of the table, with those that align it (sched/sched.cpp:493-496). -/
def tableSize (call : ExecCall) (interpreter : Option (List CChar × Option (List CChar))) : ℕ :=
  8 * ((newArgs call interpreter).length + call.envp.length + 31) +
    if ((newArgs call interpreter).length + call.envp.length + 1) % 2 = 1 then 8 else 0

/-- There is room for the strings and the table above `bottom`. -/
def FitsAbove (call : ExecCall) (interpreter : Option (List CChar × Option (List CChar)))
    (bottom top : ℕ) : Prop :=
  bottom + tableSize call interpreter ≤
    (top - 16 - stringsSize (stackStrings call interpreter)) / 16 * 16

instance (call : ExecCall) (interpreter : Option (List CChar × Option (List CChar)))
    (bottom top : ℕ) : Decidable (FitsAbove call interpreter bottom top) :=
  inferInstanceAs (Decidable (_ ≤ _))

section Room

variable {call : ExecCall} {interpreter : Option (List CChar × Option (List CChar))} {auxv : Auxval}
  {cred : Cred} {top : U64} {space : Space} {bottom : ℕ}

theorem FitsAbove.mono {b : ℕ} (h : FitsAbove call interpreter bottom top.toNat) (hb : b ≤ bottom) :
    FitsAbove call interpreter b top.toNat :=
  (Nat.add_le_add_right hb _).trans h

theorem sub_ofNat_toNat {a : U64} {n : ℕ} (h : n ≤ a.toNat) :
    (a - ofNat 64 n).toNat = a.toNat - n := by
  have := a.isLt
  have hn : (ofNat 64 n).toNat = n := by
    rw [toNat_ofNat, Nat.mod_eq_of_lt (by omega)]
  rw [BitVec.toNat_sub_of_le (by rw [BitVec.le_def, hn]; exact h), hn]

theorem stringsSize_stackStrings : stringsSize (stackStrings call interpreter) =
    stringsSize (interpreterArgs interpreter) + stringsSize (scriptArgv call interpreter) +
      stringsSize call.envp + (call.path.length + 1) := by
  simp [stackStrings, newArgs, Nat.add_assoc]

theorem length_newArgs : (newArgs call interpreter).length =
    call.argv.length + (interpreterArgs interpreter).length := by
  simp [newArgs, Nat.add_comm]

theorem stackPlan_argStart : (stackPlan call interpreter top).argStart =
    top - ofNat 64 (16 + stringsSize (stackStrings call interpreter)) := by
  rw [stackPlan_eq, stringsSize_stackStrings]
  simp only [sub_sub]
  rw [show (16#64 : U64) = ofNat 64 16 from rfl]
  simp only [← ofNat_add]
  congr 2
  omega

theorem stackPlan_envStart : (stackPlan call interpreter top).envStart =
    (stackPlan call interpreter top).argStart +
      ofNat 64 (stringsSize (newArgs call interpreter)) := by
  have harg : (stackPlan call interpreter top).argStart =
      (stackPlan call interpreter top).envStart -
        ofNat 64 (stringsSize (scriptArgv call interpreter)) -
        ofNat 64 (stringsSize (interpreterArgs interpreter)) := rfl
  unfold newArgs
  rw [stringsSize_append, Nat.add_comm, ofNat_add, harg, sub_sub, sub_add_cancel]

theorem stackPlan_envEnd : (stackPlan call interpreter top).envEnd =
    (stackPlan call interpreter top).argStart +
      ofNat 64 (stringsSize (newArgs call interpreter ++ call.envp)) := by
  have henv : (stackPlan call interpreter top).envStart =
      (stackPlan call interpreter top).envEnd - ofNat 64 (stringsSize call.envp) := rfl
  rw [stringsSize_append, ofNat_add, ← BitVec.add_assoc, ← stackPlan_envStart, henv,
    sub_add_cancel]

/-- Where the strings and the table begin. -/
theorem stackPlan_toNat (h : FitsAbove call interpreter bottom top.toNat) :
    (stackPlan call interpreter top).argStart.toNat =
        top.toNat - 16 - stringsSize (stackStrings call interpreter) ∧
      (stackPlan call interpreter top).rsp.toNat + tableSize call interpreter =
        (stackPlan call interpreter top).argStart.toNat / 16 * 16 ∧
      bottom ≤ (stackPlan call interpreter top).rsp.toNat ∧
      16 + stringsSize (stackStrings call interpreter) ≤ top.toNat := by
  have hpos : 8 ≤ tableSize call interpreter := by
    unfold tableSize
    omega
  unfold FitsAbove at h
  have hroom : 16 + stringsSize (stackStrings call interpreter) ≤ top.toNat := by omega
  have harg : (stackPlan call interpreter top).argStart.toNat =
      top.toNat - 16 - stringsSize (stackStrings call interpreter) := by
    rw [stackPlan_argStart, sub_ofNat_toNat hroom, Nat.sub_add_eq]
  have hrsp : (stackPlan call interpreter top).rsp =
      alignDown (stackPlan call interpreter top).argStart 16#64 -
        ofNat 64 (tableSize call interpreter) := by
    have hargs : (newArgs call interpreter).length =
        call.argv.length + (interpreterArgs interpreter).length := length_newArgs
    have hwords : call.argv.length + call.envp.length + (interpreterArgs interpreter).length =
        (newArgs call interpreter).length + call.envp.length := by omega
    have hrsp : (stackPlan call interpreter top).rsp =
        alignDown (stackPlan call interpreter top).argStart 16#64 -
          (if (call.argv.length + call.envp.length + (interpreterArgs interpreter).length + 1) % 2 =
            1 then 8#64 else 0#64) -
          ofNat 64 (8 * (2 + 2 * 13 + 1 + 1 + 1 +
            (call.argv.length + call.envp.length + (interpreterArgs interpreter).length))) := rfl
    rw [hrsp, hwords, sub_sub]
    congr 1
    unfold tableSize
    split_ifs with hodd
    · rw [show (8#64 : U64) = ofNat 64 8 from rfl, ← ofNat_add]
      congr 1
      omega
    · rw [show (0#64 : U64) = ofNat 64 0 from rfl, ← ofNat_add]
      congr 1
      omega
  have hdown : (alignDown (stackPlan call interpreter top).argStart 16#64).toNat =
      (stackPlan call interpreter top).argStart.toNat / 16 * 16 := toNat_alignDown_eq _ _
  rw [← harg] at h
  have hsp : (stackPlan call interpreter top).rsp.toNat =
      (stackPlan call interpreter top).argStart.toNat / 16 * 16 - tableSize call interpreter := by
    rw [hrsp, sub_ofNat_toNat (by omega), hdown]
  exact ⟨harg, by omega, by omega, hroom⟩

end Room

/-! ## Building it -/

/-- Everything from `bottom` up to `top` is mapped and the user's. -/
def Space.Writable (k : Space) (bottom top : ℕ) : Prop :=
  ∀ a : U64, bottom ≤ a.toNat → a.toNat < top → a < userEnd ∧ (k.flags a).isSome

section Building

variable {s s' : Stack} {bottom top : ℕ}

theorem Space.Writable.congr {k k' : Space} (h : k.Writable bottom top)
    (hflags : k'.flags = k.flags) : k'.Writable bottom top := by
  intro a hlow hhigh
  rw [hflags]
  exact h a hlow hhigh

/-- A write above the bottom. -/
theorem write_completes {k : Space} (h : k.Writable bottom top) (htop : top < 2 ^ 64) (sp : U64)
    (bytes : List CChar) (hlow : bottom ≤ sp.toNat) (hhigh : sp.toNat + bytes.length ≤ top) :
    ∃ k', k.write sp bytes = .ok k' := by
  refine ⟨_, Space.write_of_mapped fun i hi => ?_⟩
  have hat : (sp + ofNat 64 i).toNat = sp.toNat + i := by
    rw [BitVec.toNat_add, toNat_ofNat]
    omega
  exact h _ (by omega) (by omega)

theorem pushString_completes (h : s.space.Writable bottom top) (htop : top < 2 ^ 64)
    (hsp : s.sp.toNat ≤ top) {str : List CChar} (hroom : bottom + (str.length + 1) ≤ s.sp.toNat) :
    ∃ s', s.pushString str = .ok s' := by
  have hat : (s.sp - ofNat 64 str.length - 1#64).toNat = s.sp.toNat - (str.length + 1) := by
    rw [sub_sub, show (1#64 : U64) = ofNat 64 1 from rfl, ← ofNat_add,
      sub_ofNat_toNat (by omega)]
  obtain ⟨k, hwrite⟩ := write_completes h htop (s.sp - ofNat 64 str.length - 1#64) str
    (by omega) (by omega)
  refine ⟨⟨k, s.sp - ofNat 64 str.length - 1#64⟩, ?_⟩
  unfold Stack.pushString
  simp only [hwrite]
  rfl

theorem pushStrings_completes (h : s.space.Writable bottom top) (htop : top < 2 ^ 64)
    (hsp : s.sp.toNat ≤ top) {strs : List (List CChar)}
    (hroom : bottom + stringsSize strs ≤ s.sp.toNat) : ∃ s', s.pushStrings strs = .ok s' := by
  induction strs with
  | nil => exact ⟨s, rfl⟩
  | cons str strs ih =>
    rw [stringsSize_cons] at hroom
    obtain ⟨s1, hrest⟩ := ih (by omega)
    obtain ⟨hsp1, hflags, -⟩ := pushStrings_ok hrest
    have hat : s1.sp.toNat = s.sp.toNat - stringsSize strs := by
      rw [hsp1, sub_ofNat_toNat (by omega)]
    obtain ⟨s2, hfirst⟩ := pushString_completes (h.congr hflags) htop (by omega)
      (show bottom + (str.length + 1) ≤ s1.sp.toNat by omega)
    refine ⟨s2, ?_⟩
    unfold Stack.pushStrings at hrest ⊢
    rw [List.reverse_cons, List.foldlM_append, hrest, ok_bind, List.foldlM_cons, hfirst]
    rfl

theorem pushTable_completes {blocks : List (List U64)} {ws : List U64}
    (hws : blocks.reverse.flatten = ws) (h : s.space.Writable bottom top) (htop : top < 2 ^ 64)
    (hsp : s.sp.toNat ≤ top) (hroom : bottom + 8 * ws.length ≤ s.sp.toNat) :
    ∃ s', blocks.foldlM Stack.pushWords s = .ok s' := by
  induction blocks generalizing s ws with
  | nil => exact ⟨s, rfl⟩
  | cons block blocks ih =>
    rw [List.reverse_cons, List.flatten_concat] at hws
    obtain rfl := hws
    rw [List.length_append] at hroom
    have hat : (s.sp - ofNat 64 (8 * block.length)).toNat = s.sp.toNat - 8 * block.length :=
      sub_ofNat_toNat (by omega)
    obtain ⟨k, hwrite⟩ := write_completes h htop (s.sp - ofNat 64 (8 * block.length))
      (block.flatMap wordBytes) (by omega) (by rw [length_flatMap_wordBytes]; omega)
    have hfirst : s.pushWords block = .ok ⟨k, s.sp - ofNat 64 (8 * block.length)⟩ := by
      unfold Stack.pushWords
      simp only [hwrite]
      rfl
    obtain ⟨hsp1, hflags, -⟩ := pushWords_ok hfirst
    have hlow : (s.sp - ofNat 64 (8 * block.length)).toNat ≤ top := by omega
    have hroom' : bottom + 8 * blocks.reverse.flatten.length ≤
        (s.sp - ofNat 64 (8 * block.length)).toNat := by omega
    obtain ⟨s', hrest⟩ := ih rfl (h.congr hflags) hlow hroom'
    exact ⟨s', by rw [List.foldlM_cons, hfirst, ok_bind, hrest]⟩

variable {call : ExecCall} {interpreter : Option (List CChar × Option (List CChar))} {auxv : Auxval}
  {cred : Cred} {space : Space}

/-- The stack is built if there is room for it. -/
theorem buildStack_completes {top : U64} (h : space.Writable bottom top.toNat)
    (hfits : FitsAbove call interpreter bottom top.toNat) :
    ∃ r, buildStack call interpreter auxv cred top space = .ok r := by
  obtain ⟨harg, hrsp, hbottom, hroom⟩ := stackPlan_toNat hfits
  have hsize : stringsSize (stackStrings call interpreter) = _ := stringsSize_stackStrings
  have htop := top.isLt
  have hbase : (top - 16#64).toNat = top.toNat - 16 := sub_ofNat_toNat (n := 16) (by omega)
  obtain ⟨k, hrandom⟩ := write_completes h htop (top - 16#64) (List.replicate 16 0xAF#8) (by omega)
    (by rw [List.length_replicate]; omega)
  obtain ⟨-, hflags0, -, -⟩ := Space.write_ok hrandom
  have h0 := h.congr hflags0
  have hpathRoom : bottom + (call.path.length + 1) ≤ (top - 16#64).toNat := by omega
  obtain ⟨s1, hpath⟩ := pushString_completes (s := ⟨k, top - 16#64⟩) h0 htop
    (hbase.trans_le (Nat.sub_le _ _)) hpathRoom
  obtain ⟨hsp1, hflags1, -⟩ := pushString_ok hpath
  have h1 := h0.congr hflags1
  have hat1 : s1.sp.toNat = top.toNat - 16 - (call.path.length + 1) := by
    rw [hsp1, sub_ofNat_toNat (show call.path.length + 1 ≤ (top - 16#64).toNat by omega), hbase]
  obtain ⟨s2, henvp⟩ := pushStrings_completes h1 htop (by omega)
    (show bottom + stringsSize call.envp ≤ s1.sp.toNat by omega)
  obtain ⟨hsp2, hflags2, -⟩ := pushStrings_ok henvp
  have h2 := h1.congr hflags2
  have hat2 : s2.sp.toNat = s1.sp.toNat - stringsSize call.envp := by
    rw [hsp2, sub_ofNat_toNat (by omega)]
  obtain ⟨s3, hargv⟩ := pushStrings_completes h2 htop (by omega)
    (show bottom + stringsSize (scriptArgv call interpreter) ≤ s2.sp.toNat by omega)
  obtain ⟨hsp3, hflags3, -⟩ := pushStrings_ok hargv
  have h3 := h2.congr hflags3
  have hat3 : s3.sp.toNat = s2.sp.toNat - stringsSize (scriptArgv call interpreter) := by
    rw [hsp3, sub_ofNat_toNat (by omega)]
  obtain ⟨s4, hinterpreter⟩ := pushStrings_completes h3 htop (by omega)
    (show bottom + stringsSize (interpreterArgs interpreter) ≤ s3.sp.toNat by omega)
  obtain ⟨hsp4, hflags4, -⟩ := pushStrings_ok hinterpreter
  have h4 := h3.congr hflags4
  have hat4 : s4.sp.toNat = (stackPlan call interpreter top).argStart.toNat := by
    rw [hsp4, sub_ofNat_toNat (by omega)]
    omega
  have hargs : (newArgs call interpreter).length =
      call.argv.length + (interpreterArgs interpreter).length := length_newArgs
  obtain ⟨aligned, haligned⟩ : ∃ aligned, aligned = alignDown s4.sp 16#64 -
      (if ((scriptArgv call interpreter).length + call.envp.length +
        (interpreterArgs interpreter).length + 1) % 2 = 1 then 8#64 else 0#64) := ⟨_, rfl⟩
  have hdown : (alignDown s4.sp 16#64).toNat = s4.sp.toNat / 16 * 16 := toNat_alignDown_eq _ _
  have htable : bottom + 8 * ((newArgs call interpreter).length + call.envp.length + 31) ≤
      aligned.toNat ∧ aligned.toNat ≤ s4.sp.toNat := by
    unfold tableSize at hrsp
    rw [haligned, length_scriptArgv]
    split_ifs at hrsp ⊢ with hodd hodd' hodd'
    · rw [show (8#64 : U64) = ofNat 64 8 from rfl, sub_ofNat_toNat (by omega), hdown, hat4]
      omega
    · omega
    · omega
    · rw [BitVec.sub_zero, hdown, hat4]
      omega
  have hwords : (tableWords (auxEntries s1.sp (top - 16#64) auxv cred) s4.sp s2.sp
      (newArgs call interpreter) call.envp).length =
        (newArgs call interpreter).length + call.envp.length + 31 := length_tableWords _ _ _ _ _
  have hlow : aligned.toNat ≤ top.toNat := by omega
  obtain ⟨s5, hpushed⟩ := pushTable_completes (s := ⟨s4.space, aligned⟩)
    (reverse_tablePushes (auxEntries s1.sp (top - 16#64) auxv cred) s4.sp s2.sp
      (newArgs call interpreter) call.envp) h4 htop hlow (by rw [hwords]; exact htable.1)
  refine ⟨(⟨s4.sp, s2.sp, s2.sp, s1.sp, s5.sp⟩, s5.space), ?_⟩
  unfold buildStack
  simp only [hrandom, ok_bind, hpath, henvp, hargv, hinterpreter, ← haligned, hpushed]
  rfl

end Building


/-! ## Room that there was -/

section Built

variable {s s' : Stack} {top n c : ℕ}

theorem sub_ofNat_toNat_of_lt {a : U64} {n : ℕ} (h : a.toNat < n) (hn : n < 2 ^ 64) :
    (a - ofNat 64 n).toNat = 2 ^ 64 + a.toNat - n := by
  rw [BitVec.toNat_sub, toNat_ofNat]
  omega

/-- Where something has been written is below the end of user space. -/
theorem write_below {k k' : Space} {sp dst : U64} {bytes : List CChar} {gap : ℕ}
    (h : k.write dst bytes = .ok k') (hdst : dst + ofNat 64 (bytes.length + gap) = sp)
    {i : ℕ} (hlow : gap < i) (hhigh : i ≤ bytes.length + gap) :
    (sp - ofNat 64 i).toNat < 2 ^ 47 := by
  obtain ⟨hmapped, -, -, -⟩ := Space.write_ok h
  have hlt := (hmapped (bytes.length + gap - i) (by omega)).1
  have hat : sp - ofNat 64 i = dst + ofNat 64 (bytes.length + gap - i) := by
    rw [← hdst, sub_eq_iff_eq_add, BitVec.add_assoc, ← ofNat_add,
      Nat.sub_add_cancel hhigh]
  rw [hat]
  exact hlt

/-- Where the stack pointer is when `c` strings of `n` bytes have been pushed from `top`: there was
    room for them, or nothing has been written since it passed zero. -/
def Lowered (top n c sp : ℕ) : Prop := sp + n = top ∨ 2 ^ 64 ≤ sp + c

theorem pushString_room {str : List CChar} (h : s.pushString str = .ok s') (hc : c < 2 ^ 62)
    (hs : Lowered top n c s.sp.toNat) : Lowered top (n + (str.length + 1)) (c + 1) s'.sp.toNat := by
  obtain ⟨hsp, -, -⟩ := pushString_ok h
  unfold Stack.pushString at h
  obtain ⟨space, hwrite, h⟩ := bind_ok h
  have hdst : s.sp - ofNat 64 str.length - 1#64 + ofNat 64 (str.length + 1) =
      s.sp := by
    rw [ofNat_add, sub_sub, sub_add_cancel]
  have hlt := s.sp.isLt
  by_cases hempty : str.length = 0
  · rw [hempty] at hsp ⊢
    by_cases hroom : 0 + 1 ≤ s.sp.toNat
    · rw [hsp, sub_ofNat_toNat hroom]
      exact hs.imp (by omega) (by omega)
    · rw [hsp, sub_ofNat_toNat_of_lt (by omega) (by omega)]
      exact .inr (by omega)
  · by_cases hroom : str.length + 1 ≤ s.sp.toNat
    · rw [hsp, sub_ofNat_toNat hroom]
      rcases hs with hs | hs
      · exact .inl (by omega)
      · have hbelow := write_below hwrite hdst (i := 2) (by omega) (by omega)
        rw [sub_ofNat_toNat (by omega)] at hbelow
        omega
    · -- a byte of the string would lie at the end of the address space
      have hbelow := write_below hwrite hdst (i := max 2 (s.sp.toNat + 1)) (by omega) (by omega)
      have hsmall : s.sp.toNat + 1 < 2 ^ 64 := by
        by_contra hlast
        have hbelow := write_below hwrite hdst (i := 2) (by omega) (by omega)
        rw [sub_ofNat_toNat (by omega)] at hbelow
        omega
      rw [sub_ofNat_toNat_of_lt (by omega) (by omega)] at hbelow
      omega

theorem pushStrings_room {strs : List (List CChar)} (h : s.pushStrings strs = .ok s')
    (hc : c + strs.length < 2 ^ 62) (hs : Lowered top n c s.sp.toNat) :
    Lowered top (n + stringsSize strs) (c + strs.length) s'.sp.toNat := by
  induction strs generalizing s' with
  | nil =>
    cases h
    exact hs
  | cons str strs ih =>
    unfold Stack.pushStrings at h
    rw [List.reverse_cons, List.foldlM_append] at h
    obtain ⟨s1, hrest, h⟩ := bind_ok h
    obtain ⟨s2, hfirst, h⟩ := bind_ok h
    obtain rfl : s2 = s' := Except.ok.inj h
    rw [List.length_cons] at hc
    have hnext := pushString_room hfirst (by omega) (ih hrest (by omega))
    rwa [Nat.add_assoc, Nat.add_assoc, Nat.add_comm (stringsSize strs), ← stringsSize_cons] at hnext

theorem pushWords_room {ws : List U64} (h : s.pushWords ws = .ok s') :
    s'.sp.toNat + 8 * ws.length = s.sp.toNat ∧ (ws ≠ [] → s.sp.toNat ≤ 2 ^ 47) := by
  obtain ⟨hsp, -, -⟩ := pushWords_ok h
  unfold Stack.pushWords at h
  obtain ⟨space, hwrite, h⟩ := bind_ok h
  have hdst : s.sp - ofNat 64 (8 * ws.length) +
      ofNat 64 ((ws.flatMap wordBytes).length + 0) = s.sp := by
    rw [Nat.add_zero, length_flatMap_wordBytes, sub_add_cancel]
  have hlt := s.sp.isLt
  have hbelow : ∀ i, 0 < i → i ≤ 8 * ws.length →
      (s.sp - ofNat 64 i).toNat < 2 ^ 47 := by
    intro i hlow hhigh
    exact write_below hwrite hdst hlow (by rw [length_flatMap_wordBytes]; exact hhigh)
  constructor
  · by_contra hroom
    have hcross : s.sp.toNat < 8 * ws.length := by
      by_contra hfits
      rw [hsp, sub_ofNat_toNat (by omega)] at hroom
      omega
    have hlast := hbelow 1 (by omega) (by omega)
    by_cases hzero : s.sp.toNat = 0
    · rw [sub_ofNat_toNat_of_lt (by omega) (by omega)] at hlast
      omega
    · rw [sub_ofNat_toNat (by omega)] at hlast
      have hacross := hbelow (s.sp.toNat + 1) (by omega) (by omega)
      rw [sub_ofNat_toNat_of_lt (by omega) (by omega)] at hacross
      omega
  · intro hne
    have hpos : 0 < ws.length := List.length_pos_iff.mpr hne
    have hlast := hbelow 1 (by omega) (by omega)
    by_cases hzero : s.sp.toNat = 0
    · omega
    · rw [sub_ofNat_toNat (by omega)] at hlast
      omega

theorem pushTable_room {blocks : List (List U64)} {ws : List U64}
    (hws : blocks.reverse.flatten = ws) (h : blocks.foldlM Stack.pushWords s = .ok s') :
    s'.sp.toNat + 8 * ws.length = s.sp.toNat := by
  induction blocks generalizing s ws with
  | nil =>
    cases h
    obtain rfl := hws
    rfl
  | cons block blocks ih =>
    rw [List.reverse_cons, List.flatten_concat] at hws
    obtain rfl := hws
    obtain ⟨s1, hfirst, h⟩ := bind_ok h
    obtain ⟨hblock, -⟩ := pushWords_room hfirst
    have hrest := ih rfl h
    rw [List.length_append]
    omega

variable {call : ExecCall} {interpreter : Option (List CChar × Option (List CChar))} {auxv : Auxval}
  {cred : Cred} {space : Space} {r : StackPlan × Space}

/-- A stack that has been built had room in the address space; the numbers of the strings are
    `int`s. -/
theorem buildStack_room {top : U64} (htop : 16 ≤ top.toNat) (hargv : call.argv.length < 2 ^ 31)
    (henvp : call.envp.length < 2 ^ 31)
    (h : buildStack call interpreter auxv cred top space = .ok r) :
    FitsAbove call interpreter 0 top.toNat := by
  have hbase : (top - 16#64).toNat = top.toNat - 16 := sub_ofNat_toNat (n := 16) htop
  have hfew : (interpreterArgs interpreter).length ≤ 2 := by
    cases interpreter with
    | none => exact Nat.zero_le 2
    | some p =>
      obtain ⟨path, _ | arg⟩ := p
      · exact Nat.le_succ 1
      · exact Nat.le_refl 2
  unfold buildStack at h
  simp only at h
  obtain ⟨k, -, h⟩ := bind_ok h
  obtain ⟨s1, hpath, h⟩ := bind_ok h
  obtain ⟨s2, henv, h⟩ := bind_ok h
  obtain ⟨s3, harg, h⟩ := bind_ok h
  obtain ⟨s4, hinterpreter, h⟩ := bind_ok h
  obtain ⟨s5, htable, -⟩ := bind_ok h
  have h0 : Lowered (top.toNat - 16) 0 0 (top - 16#64).toNat := .inl hbase
  have h1 := pushString_room hpath (by omega) h0
  have h2 := pushStrings_room henv (by omega) h1
  have h3 := pushStrings_room harg (by rw [length_scriptArgv]; omega) h2
  have h4 := pushStrings_room hinterpreter (by rw [length_scriptArgv]; omega) h3
  have hdown : (alignDown s4.sp 16#64).toNat = s4.sp.toNat / 16 * 16 := toNat_alignDown_eq _ _
  obtain ⟨aligned, haligned⟩ : ∃ aligned, aligned = alignDown s4.sp 16#64 -
      (if ((scriptArgv call interpreter).length + call.envp.length +
        (interpreterArgs interpreter).length + 1) % 2 = 1 then 8#64 else 0#64) := ⟨_, rfl⟩
  rw [← haligned] at htable
  have hwords : s5.sp.toNat + 8 * (tableWords (auxEntries s1.sp (top - 16#64) auxv cred) s4.sp
      s2.sp (newArgs call interpreter) call.envp).length = aligned.toNat :=
    pushTable_room (reverse_tablePushes _ _ _ _ _) htable
  have hentries : (auxEntries s1.sp (top - 16#64) auxv cred).length = 13 := rfl
  rw [length_tableWords, hentries] at hwords
  obtain ⟨s', hfirst, -⟩ := bind_ok htable
  have hlow : aligned.toNat ≤ 2 ^ 47 := (pushWords_room hfirst).2 (List.cons_ne_nil _ _)
  have hargs : (newArgs call interpreter).length =
      call.argv.length + (interpreterArgs interpreter).length := length_newArgs
  rw [length_scriptArgv] at h3 h4 haligned
  have htable : aligned.toNat + (if ((newArgs call interpreter).length + call.envp.length + 1) % 2 =
      1 then 8 else 0) = s4.sp.toNat / 16 * 16 := by
    rw [haligned] at hlow ⊢
    split_ifs at hlow ⊢ with hodd hodd' hodd'
    · by_cases hroom : 8 ≤ (alignDown s4.sp 16#64).toNat
      · rw [show (8#64 : U64) = ofNat 64 8 from rfl, sub_ofNat_toNat hroom]
        omega
      · rw [show (8#64 : U64) = ofNat 64 8 from rfl,
          sub_ofNat_toNat_of_lt (by omega) (by omega)] at hlow
        omega
    · omega
    · omega
    · rw [BitVec.sub_zero, hdown, Nat.add_zero]
  unfold FitsAbove tableSize
  rw [stringsSize_stackStrings]
  rcases h4 with h4 | h4
  · have hat : top.toNat - 16 - (stringsSize (interpreterArgs interpreter) +
        stringsSize (scriptArgv call interpreter) + stringsSize call.envp +
          (call.path.length + 1)) = s4.sp.toNat := by omega
    rw [hat, ← htable]
    omega
  · have hpad : (if ((newArgs call interpreter).length + call.envp.length + 1) % 2 = 1 then 8
        else 0) ≤ 8 := by split_ifs <;> omega
    omega

end Built

end Fishix.Userland
