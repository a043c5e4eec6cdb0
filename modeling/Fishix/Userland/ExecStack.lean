import Fishix.Userland.ElfImage

/-!
# What a program finds on its stack

The table at the stack pointer is right for whatever strings `execve` is called with: the counts,
the pointers, computed in a second pass over the strings (sched/sched.cpp:514-541), and the
alignment. The strings themselves are copied without their terminators (sched/sched.cpp:464-489);
that they end is left to the zeros of fresh pages, and a program that has a segment across an end of
the stack gets it on pages that are not fresh.

* `readsBack_iff`: the strings are found exactly if zeros stood where their terminators belong.
* `exec_stack_reads_back`: `execve`, for everything that fits on the stack.
-/

namespace Fishix.Userland

open ByteMemory
open Fishix.Fs (Vfs VNode EntryId NodeType)
open BitVec (ofNat ofNat_add)

/-! ## What the program finds -/

/-- The `i`-th word of the table that the stack pointer points to. -/
def tableWord (m : ByteMemory) (rsp : U64) (i : ℕ) : U64 :=
  m.loadWord (rsp + ofNat 64 (8 * i))

/-- `argc`, and `argv` with its null. -/
structure ArgumentsAt (m : ByteMemory) (rsp : U64) (args : List (List CChar)) : Prop where
  argc : tableWord m rsp 0 = ofNat 64 args.length
  argv : ∀ i (h : i < args.length), m.StringAt (tableWord m rsp (1 + i)) args[i]
  null : tableWord m rsp (1 + args.length) = 0#64

/-- The index of the `i`-th entry of the auxiliary vector. -/
def auxIndex (args envp : List (List CChar)) (i : ℕ) : ℕ := 3 + args.length + envp.length + 2 * i

/-- The table and the strings, where the table has `n` auxiliary entries and then `AT_NULL`, and the
    `e`-th one is `AT_EXECFN`. -/
def stackRegions (m : ByteMemory) (rsp : U64) (args envp : List (List CChar)) (path : List CChar)
    (n e : ℕ) : List (U64 × ℕ) :=
  (rsp, 8 * (auxIndex args envp n + 2)) ::
    (args.mapIdx (fun i s => (tableWord m rsp (1 + i), s.length + 1)) ++
      envp.mapIdx (fun i s => (tableWord m rsp (2 + args.length + i), s.length + 1)) ++
      [(tableWord m rsp (auxIndex args envp e + 1), path.length + 1)])

/-- What a program finds at its stack pointer: its arguments and its environment, the auxiliary
    vector with the path, all apart from each other. -/
structure ReadsBack (m : ByteMemory) (rsp : U64) (args envp : List (List CChar))
    (path : List CChar) : Prop extends ArgumentsAt m rsp args where
  aligned : rsp.toNat % 16 = 0
  env : ∀ i (h : i < envp.length), m.StringAt (tableWord m rsp (2 + args.length + i)) envp[i]
  envNull : tableWord m rsp (2 + args.length + envp.length) = 0#64
  auxv : ∃ n, tableWord m rsp (auxIndex args envp n) = AT_NULL ∧
    (∀ i < n, tableWord m rsp (auxIndex args envp i) ≠ AT_NULL) ∧
    ∃ e < n, tableWord m rsp (auxIndex args envp e) = AT_EXECFN ∧
      m.StringAt (tableWord m rsp (auxIndex args envp e + 1)) path ∧
      (stackRegions m rsp args envp path n e).Pairwise fun p q => Apart p.1 p.2 q.1 q.2

section Finds

variable {aux : List (U64 × U64)} {argStart envStart : U64} {args envp : List (List CChar)} {i : ℕ}

/-- The auxiliary vector with its end. -/
def auxTable (aux : List (U64 × U64)) : List (U64 × U64) := aux.reverse ++ [(AT_NULL, 0#64)]

theorem getElem?_behind {α : Type} (xs ys : List α) (x : α) (i : ℕ) :
    (xs ++ x :: ys)[xs.length + 1 + i]? = ys[i]? := by
  rw [List.getElem?_append_right (by omega), show xs.length + 1 + i - xs.length = i + 1 by omega,
    List.getElem?_cons_succ]

theorem getElem?_pairs (l : List (U64 × U64)) (i : ℕ) :
    (l.flatMap fun p => [p.1, p.2])[2 * i]? = l[i]?.map Prod.fst ∧
      (l.flatMap fun p => [p.1, p.2])[2 * i + 1]? = l[i]?.map Prod.snd := by
  induction l generalizing i with
  | nil => simp
  | cons p l ih =>
    cases i with
    | zero => simp
    | succ i => simpa [Nat.mul_add] using ih i

theorem tableWords_argv (hi : i < args.length) :
    (tableWords aux argStart envStart args envp)[1 + i]? =
      some (argStart + ofNat 64 (stringOffset args i)) := by
  unfold tableWords
  rw [Nat.add_comm, List.getElem?_cons_succ, List.getElem?_append_left (by simpa using hi),
    List.getElem?_eq_getElem (by simpa using hi), getElem_stringPointers]

theorem tableWords_null :
    (tableWords aux argStart envStart args envp)[1 + args.length]? = some 0#64 := by
  unfold tableWords
  rw [Nat.add_comm, List.getElem?_cons_succ, List.getElem?_append_right (by simp)]
  simp

theorem tableWords_behind : (tableWords aux argStart envStart args envp)[2 + args.length + i]? =
    (stringPointers envStart envp ++ 0#64 ::
      (auxTable aux).flatMap fun p => [p.1, p.2])[i]? := by
  have h := getElem?_behind (stringPointers argStart args) (stringPointers envStart envp ++ 0#64 ::
    (auxTable aux).flatMap fun p => [p.1, p.2]) 0#64 i
  rw [length_stringPointers] at h
  rw [← h, show 2 + args.length + i = args.length + 1 + i + 1 by omega]
  unfold tableWords auxTable
  rw [List.getElem?_cons_succ, List.flatMap_append]
  rfl

theorem tableWords_env (hi : i < envp.length) :
    (tableWords aux argStart envStart args envp)[2 + args.length + i]? =
      some (envStart + ofNat 64 (stringOffset envp i)) := by
  rw [tableWords_behind, List.getElem?_append_left (by simpa using hi),
    List.getElem?_eq_getElem (by simpa using hi), getElem_stringPointers]

theorem tableWords_envNull :
    (tableWords aux argStart envStart args envp)[2 + args.length + envp.length]? = some 0#64 := by
  rw [tableWords_behind, List.getElem?_append_right (by simp)]
  simp

theorem tableWords_aux :
    (tableWords aux argStart envStart args envp)[auxIndex args envp i]? =
        (auxTable aux)[i]?.map Prod.fst ∧
      (tableWords aux argStart envStart args envp)[auxIndex args envp i + 1]? =
        (auxTable aux)[i]?.map Prod.snd := by
  have hbehind : ∀ j,
      (tableWords aux argStart envStart args envp)[3 + args.length + envp.length + j]? =
        ((auxTable aux).flatMap fun p => [p.1, p.2])[j]? := by
    intro j
    have h := getElem?_behind (stringPointers envStart envp)
      ((auxTable aux).flatMap fun p => [p.1, p.2]) 0#64 j
    rw [length_stringPointers] at h
    have hat : 3 + args.length + envp.length + j = 2 + args.length + (envp.length + 1 + j) := by
      omega
    rw [hat, tableWords_behind, h]
  obtain ⟨htag, hvalue⟩ := getElem?_pairs (auxTable aux) i
  exact ⟨(hbehind _).trans htag, (hbehind _).trans hvalue⟩

end Finds

section Finds

variable {call : ExecCall} {interpreter : Option (List CChar × Option (List CChar))} {auxv : Auxval}
  {cred : Cred} {top : U64} {m : ByteMemory} {i : ℕ} {s : List CChar}

/-- Where the `i`-th string begins. -/
def stringAddr (call : ExecCall) (interpreter : Option (List CChar × Option (List CChar)))
    (top : U64) (i : ℕ) : U64 :=
  (stackPlan call interpreter top).argStart +
    ofNat 64 (stringOffset (stackStrings call interpreter) i)

/-- Where the terminators of the strings belong. -/
def terminators (call : ExecCall) (interpreter : Option (List CChar × Option (List CChar)))
    (top : U64) : List U64 :=
  (stackStrings call interpreter).mapIdx fun i s =>
    stringAddr call interpreter top i + ofNat 64 s.length

section

variable (hfits : FitsAbove call interpreter 0 top.toNat)

include hfits

theorem tableWord_stackMemory {x : U64} (h : (tableWords (auxEntries (stackPlan call interpreter
    top).envEnd (top - 16#64) auxv cred) (stackPlan call interpreter top).argStart (stackPlan call
    interpreter top).envStart (newArgs call interpreter) call.envp)[i]? = some x) :
    tableWord (stackMemory call interpreter auxv cred top m) (stackPlan call interpreter top).rsp
      i = x := by
  obtain ⟨hi, rfl⟩ := List.getElem?_eq_some_iff.mp h
  refine loadWord_store_words ?_ hi
  obtain ⟨-, hrsp, -, -⟩ := stackPlan_toNat hfits
  have := (stackPlan call interpreter top).argStart.isLt
  have hwords : (tableWords (auxEntries (stackPlan call interpreter top).envEnd (top - 16#64) auxv
      cred) (stackPlan call interpreter top).argStart (stackPlan call interpreter top).envStart
      (newArgs call interpreter) call.envp).length =
        (newArgs call interpreter).length + call.envp.length + 31 := length_tableWords _ _ _ _ _
  rw [hwords]
  unfold tableSize at hrsp
  omega

/-- The strings, as they lie above the table. -/
theorem stringAddr_rsp :
    ∃ p, 8 * ((newArgs call interpreter).length + call.envp.length + 31) ≤ p ∧
      p + stringsSize (stackStrings call interpreter) + 16 ≤ 2 ^ 64 ∧
      (∀ i, stringAddr call interpreter top i = (stackPlan call interpreter top).rsp +
        ofNat 64 (p + stringOffset (stackStrings call interpreter) i)) ∧
      top - 16#64 = (stackPlan call interpreter top).rsp +
        ofNat 64 (p + stringsSize (stackStrings call interpreter)) := by
  obtain ⟨harg, hrsp, -, hroom⟩ := stackPlan_toNat hfits
  have htop := top.isLt
  have hsize : 8 * ((newArgs call interpreter).length + call.envp.length + 31) ≤
      tableSize call interpreter := Nat.le_add_right _ _
  have hat : (stackPlan call interpreter top).argStart = (stackPlan call interpreter top).rsp +
      ofNat 64 ((stackPlan call interpreter top).argStart.toNat -
        (stackPlan call interpreter top).rsp.toNat) := by
    apply BitVec.eq_of_toNat_eq
    rw [BitVec.toNat_add, BitVec.toNat_ofNat]
    omega
  refine ⟨(stackPlan call interpreter top).argStart.toNat -
    (stackPlan call interpreter top).rsp.toNat, by omega, by omega, fun i => ?_, ?_⟩
  · unfold stringAddr
    rw [ofNat_add, ← BitVec.add_assoc, ← hat]
  · rw [ofNat_add, ← BitVec.add_assoc, ← hat, stackPlan_argStart, ofNat_add 16,
      ← sub_sub, sub_add_cancel]

/-- A string is found exactly if there was a zero where its terminator belongs. -/
theorem stringAt_stackMemory (hs : (stackStrings call interpreter)[i]? = some s) :
    (stackMemory call interpreter auxv cred top m).StringAt (stringAddr call interpreter top i) s ↔
      m (stringAddr call interpreter top i + ofNat 64 s.length) = 0#8 := by
  obtain ⟨hi, rfl⟩ := List.getElem?_eq_some_iff.mp hs
  obtain ⟨p, hlow, hhigh, hat, hrandom⟩ := stringAddr_rsp hfits
  have hlast := stringOffset_le_size hi
  have hwords : ((tableWords (auxEntries (stackPlan call interpreter top).envEnd (top - 16#64) auxv
      cred) (stackPlan call interpreter top).argStart (stackPlan call interpreter top).envStart
      (newArgs call interpreter) call.envp).flatMap wordBytes).length =
        8 * ((newArgs call interpreter).length + call.envp.length + 31) := by
    rw [length_flatMap_wordBytes, length_tableWords]
    rfl
  have htable : Apart (stringAddr call interpreter top i)
      ((stackStrings call interpreter)[i].length + 1) (stackPlan call interpreter top).rsp
      (8 * ((newArgs call interpreter).length + call.envp.length + 31)) := by
    rw [hat]
    exact apart_above (by omega) (by omega)
  rw [← hwords] at htable
  unfold stackMemory
  rw [stringAt_congr (load_store_of_apart htable)]
  unfold stringAddr
  rw [stringAt_storeStrings_iff (by omega) hi]
  have hbehind : Apart (stringAddr call interpreter top i +
      ofNat 64 (stackStrings call interpreter)[i].length) 1 (top - 16#64)
      (List.replicate 16 0xAF#8).length := by
    rw [hat, hrandom, BitVec.add_assoc, ← ofNat_add, List.length_replicate]
    exact apart_of_offsets (by omega) (by omega) (.inl (by omega))
  have hkept := store_of_apart (m := m) hbehind
  unfold stringAddr at hkept
  rw [hkept]

end

/-! ### The table -/

theorem stackStrings_arg (hs : (newArgs call interpreter)[i]? = some s) :
    (stackStrings call interpreter)[i]? = some s := by
  obtain ⟨hi, -⟩ := List.getElem?_eq_some_iff.mp hs
  unfold stackStrings
  rw [List.append_assoc, List.getElem?_append_left hi, hs]

theorem stackStrings_env (hs : call.envp[i]? = some s) :
    (stackStrings call interpreter)[(newArgs call interpreter).length + i]? = some s := by
  obtain ⟨hi, -⟩ := List.getElem?_eq_some_iff.mp hs
  unfold stackStrings
  rw [List.append_assoc, List.getElem?_append_right (by omega), Nat.add_sub_cancel_left,
    List.getElem?_append_left hi, hs]

theorem stackStrings_path : (stackStrings call interpreter)[(newArgs call interpreter).length +
    call.envp.length]? = some call.path := by
  unfold stackStrings
  rw [List.getElem?_append_right (by simp)]
  simp

theorem stackStrings_cases (hs : (stackStrings call interpreter)[i]? = some s) :
    (newArgs call interpreter)[i]? = some s ∨
    (∃ j, i = (newArgs call interpreter).length + j ∧ call.envp[j]? = some s) ∨
    i = (newArgs call interpreter).length + call.envp.length ∧ s = call.path := by
  unfold stackStrings at hs
  rw [List.append_assoc] at hs
  by_cases harg : i < (newArgs call interpreter).length
  · rw [List.getElem?_append_left harg] at hs
    exact .inl hs
  · obtain ⟨j, rfl⟩ := Nat.exists_eq_add_of_le (Nat.le_of_not_lt harg)
    rw [List.getElem?_append_right (by omega), Nat.add_sub_cancel_left] at hs
    by_cases henv : j < call.envp.length
    · rw [List.getElem?_append_left henv] at hs
      exact .inr (.inl ⟨j, rfl, hs⟩)
    · rw [List.getElem?_append_right (by omega), List.getElem?_singleton] at hs
      split_ifs at hs with hlast
      exact .inr (.inr ⟨by omega, (Option.some.inj hs).symm⟩)

section

variable (hfits : FitsAbove call interpreter 0 top.toNat)

include hfits

theorem tableWord_argv (hi : i < (newArgs call interpreter).length) :
    tableWord (stackMemory call interpreter auxv cred top m) (stackPlan call interpreter top).rsp
      (1 + i) = stringAddr call interpreter top i := by
  unfold stringAddr stackStrings
  rw [tableWord_stackMemory hfits (tableWords_argv hi), List.append_assoc,
    stringOffset_append_left (by omega)]

theorem tableWord_env (hi : i < call.envp.length) :
    tableWord (stackMemory call interpreter auxv cred top m) (stackPlan call interpreter top).rsp
      (2 + (newArgs call interpreter).length + i) =
        stringAddr call interpreter top ((newArgs call interpreter).length + i) := by
  unfold stringAddr stackStrings
  rw [tableWord_stackMemory hfits (tableWords_env hi), List.append_assoc,
    stringOffset_append_right, stringOffset_append_left (by omega), stackPlan_envStart,
    BitVec.add_assoc, ← ofNat_add]

/-- The auxiliary vector: its tags, and the path. -/
theorem tableWord_aux (hi : i < 14) :
    tableWord (stackMemory call interpreter auxv cred top m) (stackPlan call interpreter top).rsp
      (auxIndex (newArgs call interpreter) call.envp i) =
        [AT_PAGESZ, AT_PHDR, AT_PHENT, AT_PHNUM, AT_FLAGS, AT_ENTRY, AT_UID, AT_EUID, AT_GID,
          AT_EGID, AT_SECURE, AT_RANDOM, AT_EXECFN, AT_NULL].getD i 0#64 := by
  refine tableWord_stackMemory hfits (tableWords_aux.1.trans ?_)
  have htags : (auxTable (auxEntries (stackPlan call interpreter top).envEnd (top - 16#64) auxv
      cred)).map Prod.fst = [AT_PAGESZ, AT_PHDR, AT_PHENT, AT_PHNUM, AT_FLAGS, AT_ENTRY, AT_UID,
        AT_EUID, AT_GID, AT_EGID, AT_SECURE, AT_RANDOM, AT_EXECFN, AT_NULL] := rfl
  rw [← List.getElem?_map, htags, List.getD_eq_getElem _ _ hi]
  exact List.getElem?_eq_getElem hi

theorem tableWord_execfn :
    tableWord (stackMemory call interpreter auxv cred top m) (stackPlan call interpreter top).rsp
      (auxIndex (newArgs call interpreter) call.envp 12 + 1) =
        stringAddr call interpreter top ((newArgs call interpreter).length + call.envp.length) := by
  have hvalue : (auxTable (auxEntries (stackPlan call interpreter top).envEnd (top - 16#64) auxv
      cred))[12]?.map Prod.snd = some (stackPlan call interpreter top).envEnd := rfl
  have hat : stringOffset (stackStrings call interpreter)
      ((newArgs call interpreter).length + call.envp.length) =
        stringsSize (newArgs call interpreter ++ call.envp) := by
    unfold stackStrings
    rw [← List.length_append, stringOffset_append_left (Nat.le_refl _), stringOffset_length]
  rw [tableWord_stackMemory hfits (tableWords_aux.2.trans hvalue), stackPlan_envEnd]
  unfold stringAddr
  rw [hat]

/-- The regions are the table and the strings above it. -/
theorem stackRegions_eq :
    stackRegions (stackMemory call interpreter auxv cred top m) (stackPlan call interpreter top).rsp
      (newArgs call interpreter) call.envp call.path 13 12 =
        ((stackPlan call interpreter top).rsp,
          8 * ((newArgs call interpreter).length + call.envp.length + 31)) ::
        (stackStrings call interpreter).mapIdx fun i s =>
          (stringAddr call interpreter top i, s.length + 1) := by
  unfold stackRegions
  congr 1
  · unfold auxIndex
    congr 2
    omega
  · have hargv : (newArgs call interpreter).mapIdx (fun i s =>
        (tableWord (stackMemory call interpreter auxv cred top m)
          (stackPlan call interpreter top).rsp (1 + i), s.length + 1)) =
        (newArgs call interpreter).mapIdx fun i s =>
          (stringAddr call interpreter top i, s.length + 1) := by
      refine List.mapIdx_eq_mapIdx_iff.mpr ?_
      intro i hi
      rw [tableWord_argv hfits hi]
    have henv : call.envp.mapIdx (fun i s =>
        (tableWord (stackMemory call interpreter auxv cred top m)
          (stackPlan call interpreter top).rsp (2 + (newArgs call interpreter).length + i),
            s.length + 1)) =
        call.envp.mapIdx fun i s =>
          (stringAddr call interpreter top (i + (newArgs call interpreter).length),
            s.length + 1) := by
      refine List.mapIdx_eq_mapIdx_iff.mpr ?_
      intro i hi
      rw [tableWord_env hfits hi, Nat.add_comm i]
    have hpath : (0 + (newArgs call interpreter ++ call.envp).length) =
        (newArgs call interpreter).length + call.envp.length := by simp
    rw [hargv, henv, tableWord_execfn hfits]
    unfold stackStrings
    rw [List.mapIdx_append, List.mapIdx_append, List.mapIdx_singleton, hpath]

theorem stackRegions_apart :
    (stackRegions (stackMemory call interpreter auxv cred top m)
      (stackPlan call interpreter top).rsp (newArgs call interpreter) call.envp call.path 13
        12).Pairwise fun p q => Apart p.1 p.2 q.1 q.2 := by
  obtain ⟨p, hlow, hhigh, hat, -⟩ := stringAddr_rsp hfits
  rw [stackRegions_eq hfits, List.pairwise_cons]
  constructor
  · intro q hq
    obtain ⟨i, hi, rfl⟩ := List.mem_mapIdx.mp hq
    have hlast := stringOffset_le_size hi
    have h : Apart (stringAddr call interpreter top i)
        ((stackStrings call interpreter)[i].length + 1) (stackPlan call interpreter top).rsp
        (8 * ((newArgs call interpreter).length + call.envp.length + 31)) := by
      rw [hat]
      exact apart_above (by omega) (by omega)
    exact h.symm (by omega)
  · rw [List.pairwise_iff_getElem]
    intro i j hi hj hij
    rw [List.length_mapIdx] at hi hj
    have hnext := stringOffset_add_le hi hij
    have hlast := stringOffset_le_size hj
    rw [List.getElem_mapIdx, List.getElem_mapIdx]
    simp only [hat]
    exact apart_of_offsets (by omega) (by omega) (.inl (by omega))

end

/-! ### The strings -/

theorem terminators_zero_iff : (∀ a ∈ terminators call interpreter top, m a = 0#8) ↔
    ∀ i s, (stackStrings call interpreter)[i]? = some s →
      m (stringAddr call interpreter top i + ofNat 64 s.length) = 0#8 := by
  unfold terminators
  constructor
  · intro h i s hs
    obtain ⟨hi, rfl⟩ := List.getElem?_eq_some_iff.mp hs
    exact h _ (List.mem_mapIdx.mpr ⟨i, hi, rfl⟩)
  · intro h a ha
    obtain ⟨i, hi, rfl⟩ := List.mem_mapIdx.mp ha
    exact h i _ (List.getElem?_eq_getElem hi)

/-- The arguments are found exactly if zeros stood where their terminators belong. -/
theorem argumentsAt_iff (hfits : FitsAbove call interpreter 0 top.toNat) :
    ArgumentsAt (stackMemory call interpreter auxv cred top m) (stackPlan call interpreter top).rsp
      (newArgs call interpreter) ↔
    ∀ i s, (newArgs call interpreter)[i]? = some s →
      m (stringAddr call interpreter top i + ofNat 64 s.length) = 0#8 := by
  constructor
  · rintro ⟨-, hargv, -⟩ i s hs
    obtain ⟨hi, rfl⟩ := List.getElem?_eq_some_iff.mp hs
    have hstring := hargv i hi
    rw [tableWord_argv hfits hi] at hstring
    exact (stringAt_stackMemory hfits (stackStrings_arg hs)).mp hstring
  · intro h
    refine ⟨tableWord_stackMemory hfits rfl, ?_, tableWord_stackMemory hfits tableWords_null⟩
    intro i hi
    have hs := List.getElem?_eq_getElem hi
    rw [tableWord_argv hfits hi]
    exact (stringAt_stackMemory hfits (stackStrings_arg hs)).mpr (h i _ hs)

/-- The program finds everything exactly if zeros stood where the terminators belong. -/
theorem readsBack_iff (hfits : FitsAbove call interpreter 0 top.toNat) :
    ReadsBack (stackMemory call interpreter auxv cred top m) (stackPlan call interpreter top).rsp
      (newArgs call interpreter) call.envp call.path ↔
    ∀ a ∈ terminators call interpreter top, m a = 0#8 := by
  rw [terminators_zero_iff]
  constructor
  · rintro ⟨hargs, -, henv, -, n, hnull, hnot, e, he, htag, hpath, -⟩ i s hs
    have hn : n ≤ 13 := by
      by_contra hn
      exact hnot 13 (by omega) (tableWord_aux hfits (by omega))
    have he12 : e = 12 := by
      rw [tableWord_aux hfits (by omega)] at htag
      have htags : ∀ e < 13, [AT_PAGESZ, AT_PHDR, AT_PHENT, AT_PHNUM, AT_FLAGS, AT_ENTRY, AT_UID,
          AT_EUID, AT_GID, AT_EGID, AT_SECURE, AT_RANDOM, AT_EXECFN, AT_NULL].getD e 0#64 =
            AT_EXECFN → e = 12 := by decide
      exact htags e (by omega) htag
    rw [he12, tableWord_execfn hfits] at hpath
    rcases stackStrings_cases hs with harg | ⟨j, rfl, hj⟩ | ⟨rfl, rfl⟩
    · exact (argumentsAt_iff hfits).mp hargs i s harg
    · obtain ⟨hlt, rfl⟩ := List.getElem?_eq_some_iff.mp hj
      have hstring := henv j hlt
      rw [tableWord_env hfits hlt] at hstring
      exact (stringAt_stackMemory hfits hs).mp hstring
    · exact (stringAt_stackMemory hfits hs).mp hpath
  · intro h
    refine ⟨(argumentsAt_iff hfits).mpr fun i s hs => h i s (stackStrings_arg hs), ?_, ?_,
      tableWord_stackMemory hfits tableWords_envNull, 13, tableWord_aux hfits (by omega), ?_, 12,
      by omega, tableWord_aux hfits (by omega), ?_, stackRegions_apart hfits⟩
    · obtain ⟨-, hrsp, -, -⟩ := stackPlan_toNat hfits
      unfold tableSize at hrsp
      split_ifs at hrsp <;> omega
    · intro i hi
      have hs := List.getElem?_eq_getElem hi
      rw [tableWord_env hfits hi]
      exact (stringAt_stackMemory hfits (stackStrings_env hs)).mpr (h _ _ (stackStrings_env hs))
    · intro i hi
      rw [tableWord_aux hfits (by omega)]
      have htags : ∀ i < 13, [AT_PAGESZ, AT_PHDR, AT_PHENT, AT_PHNUM, AT_FLAGS, AT_ENTRY, AT_UID,
          AT_EUID, AT_GID, AT_EGID, AT_SECURE, AT_RANDOM, AT_EXECFN, AT_NULL].getD i 0#64 ≠
            AT_NULL := by decide
      exact htags i hi
    · rw [tableWord_execfn hfits]
      exact (stringAt_stackMemory hfits stackStrings_path).mpr (h _ _ stackStrings_path)

end Finds

/-! ## `execve` -/

/-- The interpreter and its argument, if `execve` loads a script. -/
def interpreterOf (calls : ℕ) (call : ExecCall) (m : Machine) :
    Option (List CChar × Option (List CChar)) :=
  match openRegular calls m.vfs (call.path ++ [0#8]) (startingPoint call.path m.process.cwd) with
  | .ok (.ok (_, node), _) => if (readHeader node).accepted then none else parseShebang node
  | _ => none

/-- The program that `execve` loads, and what is in memory with its dynamic linker
    (sched/sched.cpp:319-438). -/
def loadedBy (calls : ℕ) (heap : List CChar) (call : ExecCall) (m : Machine) :
    Except Crash (Option (Program × Loading)) := do
  let (opened, vfs) ←
    openRegular calls m.vfs (call.path ++ [0#8]) (startingPoint call.path m.process.cwd)
  match opened with
  | .error _ => return none
  | .ok (entry, node) =>
    let (loaded, vfs) ← loadProgram calls heap vfs m.process.cwd entry node
    match loaded with
    | .error _ => return none
    | .ok program =>
      let (linked, _) ← loadLinker calls heap vfs m.process.cwd program.loading
      match linked with
      | .error _ => return none
      | .ok linked => return some (program, linked)

/-- `execve` gets as far as the new stack. -/
def Loads (calls : ℕ) (heap : List CChar) (call : ExecCall) (m : Machine) (program : Program)
    (linked : Loading) : Prop :=
  loadedBy calls heap call m = .ok (some (program, linked))

/-- The top of the stack. -/
def stackTop : U64 := userMmapBase + userStackSize

/-- The address space when the stack has been mapped (sched/sched.cpp:441-443). -/
def stackSpace (linked : Loading) : Space :=
  linked.space.mapAnonymous userMmapBase userStackSize
    (PAGE_PRESENT ||| PAGE_USER ||| PAGE_WRITABLE ||| PAGE_NO_EXECUTE)

/-- The memory of the process. -/
def Machine.memory (m : Machine) : ByteMemory := (m.pagemaps m.process.pagemap).byte

section Execve

variable {calls : ℕ} {heap : List CChar} {call : ExecCall} {m m' : Machine} {program : Program}
  {linked : Loading}

theorem loads_iff : Loads calls heap call m program linked ↔ ∃ entry node vfs vfs1 vfs2,
    openRegular calls m.vfs (call.path ++ [0#8]) (startingPoint call.path m.process.cwd) =
      .ok (.ok (entry, node), vfs) ∧
    loadProgram calls heap vfs m.process.cwd entry node = .ok (.ok program, vfs1) ∧
    loadLinker calls heap vfs1 m.process.cwd program.loading = .ok (.ok linked, vfs2) := by
  unfold Loads loadedBy
  constructor
  · intro h
    obtain ⟨⟨opened, vfs⟩, hopen, h⟩ := bind_ok h
    cases opened with
    | error err => cases Except.ok.inj h
    | ok found =>
      obtain ⟨entry, node⟩ := found
      obtain ⟨⟨loaded, vfs1⟩, hload, h⟩ := bind_ok h
      cases loaded with
      | error err => cases Except.ok.inj h
      | ok program1 =>
        obtain ⟨⟨linked1, vfs2⟩, hlink, h⟩ := bind_ok h
        cases linked1 with
        | error err => cases Except.ok.inj h
        | ok linked1 =>
          obtain ⟨rfl, rfl⟩ := Prod.mk.inj (Option.some.inj (Except.ok.inj h))
          exact ⟨entry, node, vfs, vfs1, vfs2, hopen, hload, hlink⟩
  · rintro ⟨entry, node, vfs, vfs1, vfs2, hopen, hload, hlink⟩
    rw [hopen, ok_bind]
    simp only
    rw [hload, ok_bind]
    simp only
    rw [hlink]
    rfl

theorem Loads.interpreter (h : Loads calls heap call m program linked) :
    program.interpreter = interpreterOf calls call m := by
  obtain ⟨entry, node, vfs, vfs1, vfs2, hopen, hload, -⟩ := loads_iff.mp h
  unfold interpreterOf
  rw [hopen]
  obtain ⟨-, -, -, hinterpreter⟩ := loadProgram_ok hload
  exact hinterpreter

theorem closeOnExec_pagemap (p : Process) : (closeOnExec p).pagemap = p.pagemap := by
  unfold closeOnExec
  refine List.foldlRecOn (motive := fun (q : Process) => q.pagemap = p.pagemap) _ _ rfl ?_
  intro q hq i _
  split
  · split_ifs
    · exact hq
    · exact hq
  · exact hq

/-- The stack of the program that takes over. -/
theorem takeOver_ok {old : PagemapId} (hold : old ≠ m.process.pagemap)
    (hfits : FitsAbove call program.interpreter 0 stackTop.toNat)
    (h : takeOver call program linked old m = .ok m') :
    m'.memory = stackMemory call program.interpreter program.loading.auxv m.thread.cred stackTop
        (stackSpace linked).byte ∧
      m'.thread.gprState.rsp = (stackPlan call program.interpreter stackTop).rsp := by
  unfold takeOver at h
  simp only at h
  obtain ⟨⟨plan, space⟩, hbuild, rfl⟩ := bind_pure_ok h
  have hsize : 8 * ((newArgs call program.interpreter).length + call.envp.length + 31) ≤
      2 ^ 64 := by
    obtain ⟨-, hrsp, -, -⟩ := stackPlan_toNat hfits
    have := (stackPlan call program.interpreter stackTop).argStart.isLt
    unfold tableSize at hrsp
    omega
  obtain ⟨rfl, -, hbyte⟩ := buildStack_ok hsize hbuild
  refine ⟨?_, rfl⟩
  unfold Machine.memory
  show (Function.update (Function.update m.pagemaps m.process.pagemap space) old {}
    (closeOnExec m.process).pagemap).byte = _
  rw [closeOnExec_pagemap, Function.update_of_ne hold.symm, Function.update_self, hbyte]
  rfl

theorem stackSpace_writable (linked : Loading) :
    (stackSpace linked).Writable userMmapBase.toNat stackTop.toNat := by
  intro a hlow hhigh
  have hbase : userMmapBase.toNat = 0x7f0000000000 := rfl
  have htop : stackTop.toNat = 0x7f0000800000 := rfl
  have hend : userEnd.toNat = 0x800000000000 := rfl
  have hsize : userStackSize.toNat = 0x800000 := rfl
  refine ⟨by rw [BitVec.lt_def]; omega, ?_⟩
  unfold stackSpace
  rw [Space.mapAnonymous_flags, if_pos]
  · rfl
  · rw [BitVec.lt_def, BitVec.toNat_sub_of_le (by rw [BitVec.le_def]; omega)]
    omega

theorem takeOver_completes {old : PagemapId}
    (hfits : FitsAbove call program.interpreter userMmapBase.toNat stackTop.toNat) :
    ∃ m', takeOver call program linked old m = .ok m' := by
  obtain ⟨r, hbuild⟩ : ∃ r, buildStack call program.interpreter program.loading.auxv m.thread.cred
      stackTop (stackSpace linked) = .ok r :=
    buildStack_completes (stackSpace_writable linked) hfits
  cases h : takeOver call program linked old m with
  | ok m' => exact ⟨m', rfl⟩
  | error e =>
    unfold takeOver at h
    rcases bind_error_iff.mp h with hbuild' | ⟨r', -, h⟩
    · cases hbuild.symm.trans hbuild'
    · cases h

theorem userExec_loads (h : Loads calls heap call m program linked) :
    ∃ m0 : Machine, m0.process.pagemap = m.nextPagemap ∧ m0.thread.cred = m.thread.cred ∧
      userExec calls heap call m =
        (takeOver call program linked m.process.pagemap m0).map fun m' => (none, m') := by
  obtain ⟨entry, node, vfs, vfs1, vfs2, hopen, hload, hlink⟩ := loads_iff.mp h
  let m1 := newPagemap { m with
    vfs, thread := { m.thread with name := strncpy m.thread.name (vfs.entry entry).name 16 } }
  let m2 := keepLoading program.loading { m1 with vfs := vfs1 }
  let m3 : Machine := { m2 with
    vfs := vfs2, process := { m2.process with brk := m2.process.mmapAnonBase + brkOffset } }
  refine ⟨keepLoading linked m3, rfl, rfl, ?_⟩
  have hbody : execBody calls heap call entry node m.process.pagemap m1 =
      (takeOver call program linked m.process.pagemap (keepLoading linked m3)).map
        fun m' => (none, m') := by
    unfold execBody
    rw [show loadProgram calls heap m1.vfs m1.process.cwd entry node = _ from hload, ok_bind]
    simp only
    rw [show loadLinker calls heap (keepLoading program.loading { m1 with vfs := vfs1 }).vfs
      (keepLoading program.loading { m1 with vfs := vfs1 }).process.cwd program.loading = _ from
        hlink]
    show (takeOver call program linked m.process.pagemap (keepLoading linked m3) >>= fun m' =>
      pure (none, m')) = _
    cases takeOver call program linked m.process.pagemap (keepLoading linked m3) with
    | ok m' => rfl
    | error e => rfl
  unfold userExec
  rw [hopen, ok_bind]
  simp only
  rw [show execBody calls heap call entry node m.process.pagemap _ = _ from hbody]
  cases takeOver call program linked m.process.pagemap (keepLoading linked m3) with
  | ok m' => rfl
  | error e => rfl

theorem loads_of_userExec (h : userExec calls heap call m = .ok (none, m')) :
    ∃ program linked, Loads calls heap call m program linked := by
  unfold userExec at h
  obtain ⟨⟨opened, vfs⟩, hopen, h⟩ := bind_ok h
  cases opened with
  | error err =>
    obtain ⟨hnone, -⟩ := pure_pair h
    cases hnone
  | ok found =>
    obtain ⟨entry, node⟩ := found
    obtain ⟨⟨err, m1⟩, hbody, h⟩ := bind_ok h
    cases err with
    | some err =>
      obtain ⟨hnone, -⟩ := pure_pair h
      cases hnone
    | none =>
      unfold execBody at hbody
      obtain ⟨⟨loaded, vfs1⟩, hload, hbody⟩ := bind_ok hbody
      cases loaded with
      | error err =>
        obtain ⟨hnone, -⟩ := pure_pair hbody
        cases hnone
      | ok program =>
        obtain ⟨⟨linked, vfs2⟩, hlink, hbody⟩ := bind_ok hbody
        cases linked with
        | error err =>
          obtain ⟨hnone, -⟩ := pure_pair hbody
          cases hnone
        | ok linked =>
          exact ⟨program, linked,
            loads_iff.mpr ⟨entry, node, vfs, vfs1, vfs2, hopen, hload, hlink⟩⟩

/-- **Main theorem.** When everything has been loaded and the strings fit on the stack, `execve`
    succeeds, and the program finds its arguments, its environment and its path exactly if zeros
    stood where their terminators belong. -/
theorem exec_stack_reads_back (hrunning : m.Running)
    (hloads : Loads calls heap call m program linked)
    (hfits : FitsAbove call program.interpreter userMmapBase.toNat stackTop.toNat) :
    ∃ m', userExec calls heap call m = .ok (none, m') ∧
      (ReadsBack m'.memory m'.thread.gprState.rsp (newArgs call program.interpreter) call.envp
          call.path ↔
        ∀ a ∈ terminators call program.interpreter stackTop, (stackSpace linked).byte a = 0#8) := by
  obtain ⟨m0, hpagemap, -, hexec⟩ := userExec_loads hloads
  obtain ⟨m', htake⟩ : ∃ m', takeOver call program linked m.process.pagemap m0 = .ok m' :=
    takeOver_completes hfits
  have hold : m.process.pagemap ≠ m0.process.pagemap := by
    rw [hpagemap]
    exact Nat.ne_of_lt hrunning.allocated
  have hfits0 := hfits.mono (Nat.zero_le _)
  obtain ⟨hmemory, hrsp⟩ := takeOver_ok hold hfits0 htake
  refine ⟨m', by rw [hexec, htake]; rfl, ?_⟩
  rw [hmemory, hrsp]
  exact readsBack_iff hfits0

end Execve

/-! ## Two programs -/

/-- `execve("/p", { "p", "x" }, { "A=1" })`. -/
def execTwoArgs : ExecCall := ⟨chars "/p", [chars "p", chars "x"], [chars "A=1"]⟩

/-- A program without segments. -/
def emptyProgram : List CChar := (executable [] []).data.getD []

/-- A program with a segment across the top of the stack, filled with `x`. -/
def acrossStack : List CChar :=
  (executable [(120, 0x7f00007fff00, 256, 4352)] (List.replicate 256 0x78#8)).data.getD []

theorem exec_stack_reads_back_twoArgs : ∃ m' : Machine,
    userExec 1 [] execTwoArgs (caller (withFile emptyProgram)) = .ok (none, m') ∧
      ReadsBack m'.memory m'.thread.gprState.rsp [chars "p", chars "x"] [chars "A=1"]
        (chars "/p") := by
  obtain ⟨r, hloads, hread⟩ := exists_ok_of_map
    (show (loadedBy 1 [] execTwoArgs (caller (withFile emptyProgram))).map (fun r =>
      r.map fun q => q.1.interpreter.isNone && (terminators execTwoArgs none stackTop).all fun a =>
        (stackSpace q.2).byte a = 0#8) = .ok (some true) by decide +kernel)
  obtain ⟨⟨program, linked⟩, rfl, hboth⟩ := Option.map_eq_some_iff.mp hread
  obtain ⟨hinterpreter, hzero⟩ := Bool.and_eq_true_iff.mp hboth
  have hinterpreter' : program.interpreter = none := Option.isNone_iff_eq_none.mp hinterpreter
  obtain ⟨m', hexec, hfound⟩ := exec_stack_reads_back (caller_running _) hloads
    (by rw [hinterpreter']; decide +kernel)
  rw [hinterpreter'] at hfound
  refine ⟨m', hexec, hfound.mpr fun a ha => ?_⟩
  exact of_decide_eq_true (List.all_eq_true.mp hzero a ha)

/-- The first argument does not end. -/
theorem terminator_missing : ¬∀ calls heap call m program linked, m.Running →
    Loads calls heap call m program linked →
    FitsAbove call program.interpreter userMmapBase.toNat stackTop.toNat →
    ∃ m' : Machine, userExec calls heap call m = .ok (none, m') ∧
      ReadsBack m'.memory m'.thread.gprState.rsp (newArgs call program.interpreter) call.envp
        call.path := by
  intro hclaim
  obtain ⟨r, hloads, hread⟩ := exists_ok_of_map
    (show (loadedBy 1 [] execFile (caller (withFile acrossStack))).map (fun r =>
      r.map fun q => q.1.interpreter) = .ok (some none) by decide +kernel)
  obtain ⟨⟨program, linked⟩, rfl, hinterpreter⟩ := Option.map_eq_some_iff.mp hread
  have hinterpreter' : program.interpreter = none := hinterpreter
  obtain ⟨m', hexec, hfound⟩ := hclaim 1 [] execFile _ program linked (caller_running _) hloads
    (by rw [hinterpreter']; decide +kernel)
  -- what stands behind the first argument
  obtain ⟨⟨err, m1⟩, hexec', hbehind⟩ := exists_ok_of_map
    (show (userExec 1 [] execFile (caller (withFile acrossStack))).map (fun r =>
      r.2.memory (tableWord r.2.memory r.2.thread.gprState.rsp 1 + 1#64)) = .ok 0x78#8 by
        decide +kernel)
  obtain ⟨-, rfl⟩ := pure_pair (hexec'.symm.trans hexec)
  rw [hinterpreter'] at hfound
  have hend := (hfound.argv 0 (by decide)).terminator
  exact absurd (hbehind.symm.trans hend) (by decide)

end Fishix.Userland
