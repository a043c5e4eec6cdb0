import Fishix.Userland.ExecStack

/-!
# Scripts

A file that is no program names its interpreter in the first line (sched/sched.cpp:363-409). The
scanner ends the path at a space and looks for the argument there: the loop that should take the
argument (sched/sched.cpp:391-393) ends where it begins, since the spaces before the argument are
not skipped. The path of the script takes the place of `argv[0]`, also where the caller gave none;
it is then not counted (sched/sched.cpp:411-418).

* `parseShebang_script`: an interpreter is found with whatever spaces, its argument never.
* `exec_script`: which argument vector the interpreter gets.
-/

namespace Fishix.Userland

open ByteMemory
open Fishix.Fs (Vfs VNode EntryId NodeType)

/-! ## The first line -/

/-- `#!`, spaces, the interpreter, spaces, its argument. -/
def scriptLine (spaces : ℕ) (interpreter : List CChar) (gap : ℕ) (arg : List CChar) : List CChar :=
  chars "#!" ++ (List.replicate spaces 0x20#8 ++
    (interpreter ++ (List.replicate gap 0x20#8 ++ arg)))

/-- A script for an interpreter, with an argument unless that is empty. -/
structure IsScript (file : VNode) (interpreter arg : List CChar) : Prop where
  line : ∃ spaces gap rest,
    contents file = scriptLine spaces interpreter gap arg ++ 0x0a#8 :: rest ∧
    (scriptLine spaces interpreter gap arg).length < 256 ∧ (arg ≠ [] → 0 < gap)
  path : interpreter ≠ []
  word : ∀ c ∈ interpreter, c ≠ 0#8 ∧ c ≠ 0x0a#8 ∧ c ≠ 0x20#8
  argument : ∀ c ∈ arg, c ≠ 0#8 ∧ c ≠ 0x0a#8
  first : arg.head? ≠ some 0x20#8

section Parse

variable {file : VNode} {interpreter arg : List CChar} {spaces gap : ℕ}

theorem mem_scriptLine {c : CChar} (h : c ∈ scriptLine spaces interpreter gap arg) :
    c = 0x23#8 ∨ c = 0x21#8 ∨ c = 0x20#8 ∨ c ∈ interpreter ∨ c ∈ arg := by
  unfold scriptLine at h
  rw [show chars "#!" = [0x23#8, 0x21#8] from rfl] at h
  simp only [List.mem_append, List.mem_cons, List.mem_replicate, List.not_mem_nil, or_false] at h
  tauto

/-- A line that is shorter than the buffer is in it with its newline. -/
theorem padded_readAt_line {line rest : List CChar} (hfile : file.nodeType ≠ .directory)
    (hline : contents file = line ++ 0x0a#8 :: rest) (hlength : line.length < 256) :
    ∃ behind, padded 256 (readAt file 256#64 0#64) = line ++ 0x0a#8 :: behind := by
  have hread : readAt file 256#64 0#64 =
      line ++ 0x0a#8 :: rest.take (255 - line.length) := by
    unfold readAt
    rw [if_neg hfile]
    show ((contents file).drop 0).take 256 = _
    obtain ⟨n, hn⟩ : ∃ n, 256 - line.length = n + 1 := ⟨255 - line.length, by omega⟩
    rw [hline, List.drop_zero, List.take_append, List.take_of_length_le (by omega), hn,
      List.take_succ_cons, show 255 - line.length = n by omega]
  refine ⟨(rest.take (255 - line.length) ++ List.replicate 256 0#8).take (255 - line.length), ?_⟩
  unfold padded
  obtain ⟨n, hn⟩ : ∃ n, 256 - line.length = n + 1 := ⟨255 - line.length, by omega⟩
  rw [hread, List.append_assoc, List.take_append, List.take_of_length_le (by omega), hn,
    List.cons_append, List.take_succ_cons, show 255 - line.length = n by omega]

theorem dropWhile_spaces (n : ℕ) {s : List CChar} (h : s.head? ≠ some 0x20#8) :
    (List.replicate n 0x20#8 ++ s).dropWhile (· = 0x20#8) = s := by
  rw [List.dropWhile_append_of_pos (by simp)]
  cases s with
  | nil => rfl
  | cons c s => exact List.dropWhile_cons_of_neg (by simpa using h)

/-- Up to a space there is nothing where a space comes first. -/
theorem takeWhile_gap (hgap : arg ≠ [] → 0 < gap) :
    (List.replicate gap 0x20#8 ++ arg).takeWhile (· ≠ 0x20#8) = [] := by
  cases gap with
  | zero =>
    have hnone : arg = [] := by
      by_contra hne
      exact absurd (hgap hne) (Nat.lt_irrefl 0)
    rw [hnone]
    rfl
  | succ n => rfl

/-- The interpreter is found, its argument is not. -/
theorem parseShebang_script (hfile : file.nodeType ≠ .directory)
    (h : IsScript file interpreter arg) : parseShebang file = some (interpreter, none) := by
  obtain ⟨spaces, gap, rest, hline, hlength, hgap⟩ := h.line
  obtain ⟨behind, hbuf⟩ := padded_readAt_line hfile hline hlength
  have hplain : ∀ c ∈ scriptLine spaces interpreter gap arg, c ≠ 0#8 ∧ c ≠ 0x0a#8 := by
    intro c hc
    rcases mem_scriptLine hc with rfl | rfl | rfl | hc | hc
    · decide
    · decide
    · decide
    · exact ⟨(h.word c hc).1, (h.word c hc).2.1⟩
    · exact h.argument c hc
  have hnewline : (padded 256 (readAt file 256#64 0#64)).idxOf? 0x0a#8 =
      some (scriptLine spaces interpreter gap arg).length := by
    rw [hbuf]
    exact idxOf?_append_cons (fun hc => (hplain _ hc).2 rfl) behind
  have htake : (padded 256 (readAt file 256#64 0#64)).take
      (scriptLine spaces interpreter gap arg).length = scriptLine spaces interpreter gap arg := by
    rw [hbuf, List.take_left]
  have hrest : (cstr ((scriptLine spaces interpreter gap arg).drop 2)).dropWhile (· = 0x20#8) =
      interpreter ++ (List.replicate gap 0x20#8 ++ arg) := by
    have hzero : 0#8 ∉ (scriptLine spaces interpreter gap arg).drop 2 :=
      fun hc => (hplain _ (List.mem_of_mem_drop hc)).1 rfl
    rw [cstr_of_not_mem hzero]
    refine dropWhile_spaces spaces ?_
    obtain ⟨c, path, rfl⟩ := List.exists_cons_of_ne_nil h.path
    intro hc
    exact (h.word c List.mem_cons_self).2.2 (Option.some.inj hc)
  have hpath : (interpreter ++ (List.replicate gap 0x20#8 ++ arg)).takeWhile (· ≠ 0x20#8) =
      interpreter := by
    rw [List.takeWhile_append_of_pos (fun c hc => by simpa using (h.word c hc).2.2),
      takeWhile_gap hgap, List.append_nil]
  unfold parseShebang
  simp only [hnewline, htake, hrest, hpath, List.drop_left, takeWhile_gap hgap, if_neg h.path,
    if_true]
  exact if_neg (by simp [scriptLine, chars])

end Parse

theorem not_accepted_of_script {file : VNode} {interpreter arg : List CChar}
    (hfile : file.nodeType ≠ .directory) (h : IsScript file interpreter arg) :
    (readHeader file).accepted = false := by
  obtain ⟨spaces, gap, rest, hline, -, -⟩ := h.line
  have hread : readAt file 64#64 0#64 = (contents file).take 64 := by
    unfold readAt
    rw [if_neg hfile]
    rfl
  have hmagic : (readHeader file).identifier.take 4 ≠ 0x7f#8 :: chars "ELF" := by
    show ((padded 64 (readAt file 64#64 0#64)).take 16).take 4 ≠ _
    rw [hread, hline]
    intro hsame
    have hfirst := congrArg List.head? hsame
    cases hfirst
  unfold Header.accepted
  rw [decide_eq_false hmagic]
  rfl

/-! ## The arguments -/

/-- The arguments that the interpreter should get. -/
def scriptArgs (call : ExecCall) (interpreter arg : List CChar) : List (List CChar) :=
  interpreter :: ((if arg = [] then [] else [arg]) ++ call.path :: call.argv.tail)

section Arguments

variable {call : ExecCall} {interpreter arg : List CChar} {auxv : Auxval} {cred : Cred} {top : U64}
  {m : ByteMemory}

theorem length_scriptArgs : (scriptArgs call interpreter arg).length =
    (newArgs call (some (interpreter, none))).length +
      ((if arg = [] then 0 else 1) + if call.argv = [] then 1 else 0) := by
  obtain ⟨path, argv, envp⟩ := call
  cases argv with
  | nil =>
    by_cases harg : arg = []
    · simp [newArgs, interpreterArgs, scriptArgv, scriptArgs, harg]
    · simp [newArgs, interpreterArgs, scriptArgv, scriptArgs, harg]
  | cons a argv =>
    by_cases harg : arg = []
    · simp [newArgs, interpreterArgs, scriptArgv, scriptArgs, harg]
    · simp [newArgs, interpreterArgs, scriptArgv, scriptArgs, harg]

theorem newArgs_script (hargv : call.argv ≠ []) :
    newArgs call (some (interpreter, none)) = scriptArgs call interpreter [] := by
  obtain ⟨path, argv, envp⟩ := call
  cases argv with
  | nil => exact absurd rfl hargv
  | cons a argv => rfl

/-- The interpreter gets the arguments that it should exactly if there is none of its own, there is
    an `argv[0]` whose place the path takes, and zeros stood where the terminators belong. -/
theorem argumentsAt_script_iff
    (hfits : FitsAbove call (some (interpreter, none)) 0 top.toNat) :
    ArgumentsAt (stackMemory call (some (interpreter, none)) auxv cred top m)
        (stackPlan call (some (interpreter, none)) top).rsp (scriptArgs call interpreter arg) ↔
      arg = [] ∧ call.argv ≠ [] ∧ ∀ i s, (scriptArgs call interpreter arg)[i]? = some s →
        m (stringAddr call (some (interpreter, none)) top i + BitVec.ofNat 64 s.length) = 0#8 := by
  constructor
  · intro h
    have hargc : BitVec.ofNat 64 (newArgs call (some (interpreter, none))).length =
        BitVec.ofNat 64 (scriptArgs call interpreter arg).length :=
      (tableWord_stackMemory hfits rfl).symm.trans h.argc
    have hlength : (newArgs call (some (interpreter, none))).length =
        (scriptArgs call interpreter arg).length := by
      obtain ⟨-, hrsp, -, -⟩ := stackPlan_toNat hfits
      have htop := (stackPlan call (some (interpreter, none)) top).argStart.isLt
      unfold tableSize at hrsp
      have hmore : (scriptArgs call interpreter arg).length ≤
          (newArgs call (some (interpreter, none))).length + 2 := by
        rw [length_scriptArgs]
        split_ifs <;> omega
      have hmod := congrArg BitVec.toNat hargc
      rw [BitVec.toNat_ofNat, BitVec.toNat_ofNat] at hmod
      omega
    rw [length_scriptArgs] at hlength
    have harg : arg = [] := by
      by_contra harg
      rw [if_neg harg] at hlength
      omega
    have hargv : call.argv ≠ [] := by
      intro hargv
      rw [if_pos hargv] at hlength
      omega
    subst harg
    rw [← newArgs_script hargv] at h ⊢
    exact ⟨rfl, hargv, (argumentsAt_iff hfits).mp h⟩
  · rintro ⟨rfl, hargv, hzero⟩
    rw [← newArgs_script hargv] at hzero ⊢
    exact (argumentsAt_iff hfits).mpr hzero

end Arguments

/-! ## `execve` of a script -/

section Execve

variable {calls : ℕ} {heap : List CChar} {call : ExecCall} {m m' : Machine} {program : Program}
  {linked : Loading} {interpreter arg : List CChar} {entry : EntryId} {node : VNode} {vfs : Vfs}

theorem openRegular_regular {path : List CChar} {start : Option EntryId} {vfs' : Vfs}
    (h : openRegular calls vfs path start = .ok (.ok (entry, node), vfs')) :
    node.nodeType = .regular := by
  unfold openRegular at h
  obtain ⟨⟨found, vfs1⟩, -, h⟩ := bind_ok h
  simp only at h
  split at h
  · cases Except.ok.inj h
  · split_ifs at h with hregular
    · cases Except.ok.inj h
      exact hregular
    · cases Except.ok.inj h

theorem Loads.interpreter_script (hloads : Loads calls heap call m program linked)
    (hopen : openRegular calls m.vfs (call.path ++ [0#8]) (startingPoint call.path m.process.cwd) =
      .ok (.ok (entry, node), vfs))
    (hscript : IsScript node interpreter arg) : program.interpreter = some (interpreter, none) := by
  have hfile : node.nodeType ≠ .directory := by
    rw [openRegular_regular hopen]
    decide
  rw [hloads.interpreter]
  unfold interpreterOf
  simp only [hopen]
  rw [not_accepted_of_script hfile hscript, parseShebang_script hfile hscript]
  rfl

/-- The stack that an `execve` has left, whose strings had room. -/
theorem userExec_ok (hrunning : m.Running) (hargv : call.argv.length < 2 ^ 31)
    (henvp : call.envp.length < 2 ^ 31) (hexec : userExec calls heap call m = .ok (none, m')) :
    ∃ program linked auxv cred, Loads calls heap call m program linked ∧
      FitsAbove call program.interpreter 0 stackTop.toNat ∧
      m'.memory = stackMemory call program.interpreter auxv cred stackTop
        (stackSpace linked).byte ∧
      m'.thread.gprState.rsp = (stackPlan call program.interpreter stackTop).rsp := by
  obtain ⟨program, linked, hloads⟩ := loads_of_userExec hexec
  obtain ⟨m0, hpagemap, -, hmap⟩ := userExec_loads hloads
  rw [hexec] at hmap
  obtain ⟨m1, htake⟩ : ∃ m1, takeOver call program linked m.process.pagemap m0 = .ok m1 := by
    cases htake : takeOver call program linked m.process.pagemap m0 with
    | ok m1 => exact ⟨m1, rfl⟩
    | error crash =>
      rw [htake] at hmap
      cases hmap
  obtain ⟨-, rfl⟩ := Prod.mk.inj (map_ok_eq htake _ hmap.symm)
  have hfits : FitsAbove call program.interpreter 0 stackTop.toNat := by
    unfold takeOver at htake
    obtain ⟨r, hbuild, -⟩ := bind_ok htake
    exact buildStack_room (by decide) hargv henvp hbuild
  have hold : m.process.pagemap ≠ m0.process.pagemap := by
    rw [hpagemap]
    exact Nat.ne_of_lt hrunning.allocated
  obtain ⟨hmemory, hrsp⟩ := takeOver_ok hold hfits htake
  exact ⟨program, linked, _, _, hloads, hfits, hmemory, hrsp⟩

/-- **Main theorem.** After an `execve` of a script that succeeds, the interpreter finds its path,
    its argument, the path of the script and the other arguments exactly if the script gives no
    argument for it, there was an `argv[0]`, and zeros stood where the terminators belong. -/
theorem exec_script (hrunning : m.Running) (hargv : call.argv.length < 2 ^ 31)
    (henvp : call.envp.length < 2 ^ 31)
    (hopen : openRegular calls m.vfs (call.path ++ [0#8]) (startingPoint call.path m.process.cwd) =
      .ok (.ok (entry, node), vfs))
    (hscript : IsScript node interpreter arg)
    (hexec : userExec calls heap call m = .ok (none, m')) :
    ∃ program linked, Loads calls heap call m program linked ∧
      (ArgumentsAt m'.memory m'.thread.gprState.rsp (scriptArgs call interpreter arg) ↔
        arg = [] ∧ call.argv ≠ [] ∧ ∀ i s, (scriptArgs call interpreter arg)[i]? = some s →
          (stackSpace linked).byte (stringAddr call (some (interpreter, none)) stackTop i +
            BitVec.ofNat 64 s.length) = 0#8) := by
  obtain ⟨program, linked, auxv, cred, hloads, hfits, hmemory, hrsp⟩ :=
    userExec_ok hrunning hargv henvp hexec
  refine ⟨program, linked, hloads, ?_⟩
  rw [hloads.interpreter_script hopen hscript] at hfits hmemory hrsp
  rw [hmemory, hrsp]
  exact argumentsAt_script_iff hfits

end Execve

/-! ## Two scripts -/

/-- The script `/p` beside the program `/i`. -/
def scriptTree (script : List CChar) : Vfs :=
  let (e, v) := (withFile script).lookup 0 (chars "i")
  match v.create e .regular with
  | .ok v => v.writeStart e emptyProgram
  | .error _ => v

/-- `#!/i x`. -/
def scriptWithArg : List CChar := chars "#!/i x\n"

/-- `#!  /i`. -/
def scriptWithoutArg : List CChar := chars "#!  /i\n"

theorem isScript_withArg {file : VNode} (h : contents file = scriptWithArg) :
    IsScript file (chars "/i") (chars "x") where
  line := ⟨0, 1, [], h, by decide, fun _ => Nat.one_pos⟩
  path := by decide
  word := by decide
  argument := by decide
  first := by decide

theorem isScript_withoutArg {file : VNode} (h : contents file = scriptWithoutArg) :
    IsScript file (chars "/i") [] where
  line := ⟨2, 0, [], h, by decide, fun hne => absurd rfl hne⟩
  path := by decide
  word := by decide
  argument := by decide
  first := by decide

/-- The file that is opened. -/
theorem open_script (call : ExecCall) (m : Machine) (script : List CChar)
    (h : (openRegular 1 m.vfs (call.path ++ [0#8]) (startingPoint call.path m.process.cwd)).map
      (fun r => r.1.toOption.map fun q => contents q.2) = .ok (some script)) :
    ∃ entry node vfs, openRegular 1 m.vfs (call.path ++ [0#8])
      (startingPoint call.path m.process.cwd) = .ok (.ok (entry, node), vfs) ∧
        contents node = script := by
  obtain ⟨⟨opened, vfs⟩, hopen, hread⟩ := exists_ok_of_map h
  cases opened with
  | error err => cases hread
  | ok found =>
    obtain ⟨entry, node⟩ := found
    exact ⟨entry, node, vfs, hopen, Option.some.inj hread⟩

/-- What stands behind the arguments, where their terminators belong. -/
def behindArgs (call : ExecCall) (interpreter arg : List CChar) (linked : Loading) : List CChar :=
  (scriptArgs call interpreter arg).mapIdx fun i s => (stackSpace linked).byte
    (stringAddr call (some (interpreter, none)) stackTop i + BitVec.ofNat 64 s.length)

/-- `#!  /i`, with two arguments. -/
theorem exec_script_withoutArg : ∃ m' : Machine,
    userExec 1 [] execTwoArgs (caller (scriptTree scriptWithoutArg)) = .ok (none, m') ∧
      ArgumentsAt m'.memory m'.thread.gprState.rsp [chars "/i", chars "/p", chars "x"] := by
  obtain ⟨⟨err, m'⟩, hexec, hnone⟩ := exists_ok_of_map
    (show (userExec 1 [] execTwoArgs (caller (scriptTree scriptWithoutArg))).map Prod.fst =
      .ok none by decide +kernel)
  obtain rfl : err = none := hnone
  obtain ⟨entry, node, vfs, hopen, hcontents⟩ :=
    open_script execTwoArgs (caller (scriptTree scriptWithoutArg)) scriptWithoutArg
      (by decide +kernel)
  obtain ⟨program, linked, hloads, hfound⟩ := exec_script (caller_running _) (by decide)
    (by decide) hopen (isScript_withoutArg hcontents) hexec
  refine ⟨m', hexec, hfound.mpr ⟨rfl, by decide, ?_⟩⟩
  have hread : (loadedBy 1 [] execTwoArgs (caller (scriptTree scriptWithoutArg))).map (fun r =>
      r.map fun q => behindArgs execTwoArgs (chars "/i") [] q.2) =
        .ok (some [0#8, 0#8, 0#8]) := by decide +kernel
  have hzero : behindArgs execTwoArgs (chars "/i") [] linked = [0#8, 0#8, 0#8] :=
    Option.some.inj (map_ok_eq hloads _ hread)
  intro i s hs
  have hat := congrArg (fun l => l[i]?) hzero
  unfold behindArgs at hat
  simp only [List.getElem?_mapIdx, hs, Option.map_some] at hat
  have hall : ∀ x ∈ [0#8, 0#8, 0#8], x = (0#8 : CChar) := by decide
  exact hall _ (List.mem_of_getElem? hat.symm)

/-- The interpreter does not get its argument. -/
theorem script_argument_dropped : ¬∀ calls heap call m m' interpreter arg entry node vfs,
    m.Running → call.argv.length < 2 ^ 31 → call.envp.length < 2 ^ 31 →
    openRegular calls m.vfs (call.path ++ [0#8]) (startingPoint call.path m.process.cwd) =
      .ok (.ok (entry, node), vfs) →
    IsScript node interpreter arg → userExec calls heap call m = .ok (none, m') →
    ArgumentsAt m'.memory m'.thread.gprState.rsp (scriptArgs call interpreter arg) := by
  intro hclaim
  obtain ⟨⟨err, m'⟩, hexec, hread⟩ := exists_ok_of_map
    (show (userExec 1 [] execFile (caller (scriptTree scriptWithArg))).map (fun r =>
      (r.1, tableWord r.2.memory r.2.thread.gprState.rsp 0)) = .ok (none, 2#64) by decide +kernel)
  obtain ⟨hnone, hargc⟩ := Prod.mk.inj hread
  obtain rfl : err = none := hnone
  obtain ⟨entry, node, vfs, hopen, hcontents⟩ :=
    open_script execFile (caller (scriptTree scriptWithArg)) scriptWithArg
      (by decide +kernel)
  have hfound := hclaim 1 [] execFile _ m' _ _ entry node vfs (caller_running _) (by decide)
    (by decide) hopen (isScript_withArg hcontents) hexec
  exact absurd (hargc.symm.trans hfound.argc) (by decide)

end Fishix.Userland
