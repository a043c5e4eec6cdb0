import Fishix.Fs.Resolution

/-!
# The current directory

Model of `getcwd` and `chdir` (fs/vfs.cpp:553-577) and of `Entry::print_path` (fs/vfs.hpp:96-101).
`print_path` calls itself for the parent; `calls` bounds the number of calls, as in
`path_to_entry`.

* `getcwd_chdir`: what `getcwd` returns leads back to the same directory.
-/

namespace Fishix.Fs

/-- `Entry::print_path` (fs/vfs.hpp:96-101). -/
def Vfs.printPath (v : Vfs) : ℕ → EntryId → Except Fault (List CChar)
  | 0, _ => .error .outOfCalls
  | calls + 1, e => do
    let front ← match (v.entry e).parent with
      | some p => if (v.entry p).parent = none then .ok [] else v.printPath calls p
      | none => .ok []
    return front ++ slash :: (v.entry e).name

/-- `syscall_getcwd` (fs/vfs.cpp:553-565): what it leaves in `buf`, or `none` for `-ERANGE`. -/
def Vfs.getcwd (v : Vfs) (calls : ℕ) (cwd : EntryId) (size : ℕ) :
    Except Fault (Option (List CChar)) := do
  let path ← v.printPath calls cwd
  let buf := path.foldl (fun buf c => if buf.length + 1 < size then buf ++ [c] else buf) []
  return if buf.length + 1 ≥ size then none else some (buf ++ [0#8])

/-- `syscall_chdir` (fs/vfs.cpp:567-577): the new directory. -/
def Vfs.chdir (v : Vfs) (calls : ℕ) (path : List CChar) (cwd : EntryId) :
    Except Fault (Except Errno EntryId × Vfs) := do
  let (e, v) ← pathToEntry v true calls path (some cwd)
  if (v.entry e).vnode = none then return (.error .enoent, v)
  else if v.typeOf e ≠ some .directory then return (.error .enotdir, v)
  else return (.ok e, v)

/-- The directory `e` is reached from the root by the names `cs`, with no redirection on the way. -/
inductive UnderRoot (v : Vfs) : List Name → EntryId → Prop
  | root (top : (v.entry v.root).parent = none) (unnamed : (v.entry v.root).name = []) :
      UnderRoot v [] v.root
  | child {cs : List Name} {d e : EntryId} (dir : UnderRoot v cs d)
      (parent : (v.entry e).parent = some d) (found : v.findChild d (v.entry e).name = some e)
      (nonempty : (v.entry e).name ≠ []) (name : slash ∉ (v.entry e).name)
      (terminated : 0#8 ∉ (v.entry e).name) (type : v.typeOf e = some .directory)
      (reduced : v.reduce e = e) : UnderRoot v (cs ++ [(v.entry e).name]) e

/-- The names with slashes between them, in front of `q`. -/
def joined (cs : List Name) (q : List CChar) : List CChar := cs.foldr (· ++ slash :: ·) q

section UnderRoot

variable {v : Vfs} {cs : List Name} {d e : EntryId} {c q : List CChar}

theorem joined_concat (cs : List Name) (c q : List CChar) :
    joined (cs ++ [c]) q = joined cs (c ++ slash :: q) := by
  simp [joined]

theorem joined_append (cs : List Name) (q r : List CChar) :
    joined cs q ++ r = joined cs (q ++ r) := by
  induction cs with
  | nil => rfl
  | cons c cs ih =>
    show (c ++ slash :: joined cs q) ++ r = c ++ slash :: joined cs (q ++ r)
    rw [List.append_assoc, List.cons_append, ih]

theorem length_le_joined (cs : List Name) (q : List CChar) :
    cs.length + q.length ≤ (joined cs q).length := by
  induction cs with
  | nil => simp [joined]
  | cons c cs ih =>
    show cs.length + 1 + q.length ≤ (c ++ slash :: joined cs q).length
    rw [List.length_append, List.length_cons]
    omega

theorem UnderRoot.directory (hv : TreeOk v) (h : UnderRoot v cs e) :
    v.typeOf e = some .directory := by
  cases h with
  | root => exact hv.root_directory
  | child _ _ _ _ _ _ type _ => exact type

theorem UnderRoot.terminated (h : UnderRoot v cs e) (hq : 0#8 ∉ q) : 0#8 ∉ joined cs q := by
  induction h generalizing q with
  | root => exact hq
  | child _ _ _ _ _ terminated _ _ ih =>
    rw [joined_concat]
    apply ih
    simp only [List.mem_append, List.mem_cons, not_or]
    exact ⟨terminated, by decide, hq⟩

/-- `print_path` puts the names together. -/
theorem UnderRoot.printPath (h : UnderRoot v cs e) {calls : ℕ} (hcalls : cs.length < calls) :
    v.printPath calls e = .ok (slash :: joined cs.dropLast (cs.getLast?.getD [])) := by
  induction h generalizing calls with
  | root top unnamed =>
    obtain ⟨n, rfl⟩ := Nat.exists_eq_add_of_lt hcalls
    simp [Vfs.printPath, top, unnamed, joined, pure, Except.pure]
  | @child cs d e dir parent _ _ _ _ _ _ ih =>
    rw [List.length_append, List.length_singleton] at hcalls
    obtain ⟨n, rfl⟩ := Nat.exists_eq_add_of_lt hcalls
    rw [List.dropLast_concat, List.getLast?_concat, Option.getD_some, Vfs.printPath, parent]
    cases dir with
    | root top _ => simp [top, joined, pure, Except.pure]
    | @child cs' d' _ _ parent' =>
      simp only [parent', reduceCtorEq, if_false]
      rw [ih (by omega), List.dropLast_concat, List.getLast?_concat, Option.getD_some,
        joined_concat, ← joined_append]
      rfl

/-- `buf` holds the path if it is long enough for it. -/
theorem getcwd_eq {calls : ℕ} {p : List CChar} (hp : v.printPath calls e = .ok p) (size : ℕ) :
    v.getcwd calls e size = .ok (if p.length + 1 < size then some (p ++ [0#8]) else none) := by
  have hfill : ∀ p buf : List CChar,
      p.foldl (fun buf c => if buf.length + 1 < size then buf ++ [c] else buf) buf =
        buf ++ p.take (size - 1 - buf.length) := by
    intro p
    induction p with
    | nil => simp
    | cons c p ih =>
      intro buf
      rw [List.foldl_cons, ih]
      split_ifs with hroom
      · rw [show size - 1 - buf.length = size - 1 - (buf.length + 1) + 1 by omega]
        simp
      · simp [show size - 1 - buf.length = 0 by omega]
  unfold Vfs.getcwd
  rw [hp, ok_bind, hfill, List.nil_append, List.length_nil, Nat.sub_zero]
  dsimp only
  rw [List.length_take]
  by_cases hfits : p.length + 1 < size
  · rw [if_pos hfits, if_neg (by omega), List.take_of_length_le (by omega)]
    rfl
  · rw [if_neg hfits, if_pos (by omega)]
    rfl

theorem component_directory (hfound : v.findChild d c = some e) (htype : v.typeOf e = some .directory)
    (last : Bool) (s : List CChar) :
    component v true d c last s = .ok (if last then .inl (.done e v) else .inr e) := by
  obtain ⟨n, hn, hdir⟩ := Vfs.typeOf_eq_some.mp htype
  have hlookup : v.lookup d c = (e, v) := by simp [Vfs.lookup, hfound]
  unfold component
  simp only [hlookup, hn, hdir, reduceCtorEq, and_false, if_false]
  cases last <;> rfl

/-- The loop goes down the names. -/
theorem UnderRoot.walk (hv : TreeOk v) (h : UnderRoot v cs d) (hq : q ≠ []) (h0 : 0#8 ∉ q)
    (turns : ℕ) (tail : List CChar) :
    walk v true (cs.length + turns) v.root (joined cs q ++ 0#8 :: tail) (joined cs q).length =
      walk v true turns d (q ++ 0#8 :: tail) q.length := by
  induction h generalizing q turns with
  | root =>
    rw [List.length_nil, Nat.zero_add]
    rfl
  | @child cs d e dir _ found nonempty name terminated type reduced ih =>
    have h0' : 0#8 ∉ (v.entry e).name ++ slash :: q := by
      simp only [List.mem_append, List.mem_cons, not_or]
      exact ⟨terminated, by decide, h0⟩
    rw [joined_concat, List.length_append, List.length_singleton, Nat.add_assoc, Nat.add_comm 1,
      ih (by simp) h0']
    refine (walk_component (k := 0) (dir.directory hv) h0' name (.inl nonempty)).trans ?_
    rw [component_directory found type, decide_eq_false (show ¬q.length + 0 = 0 by simpa using hq)]
    simp only [Bool.false_eq_true, if_false, ok_bind, reduced]
    rfl

/-- **Main theorem.** Of a directory that the root reaches, `getcwd` returns the path, if the
    buffer has room for one byte more than the path and its NUL, and `chdir` of that path, from
    wherever, leads back to it. -/
theorem getcwd_chdir (hv : TreeOk v) (h : UnderRoot v cs e) {calls : ℕ} (hcalls : cs.length < calls) :
    ∃ p, (∀ size, v.getcwd calls e size =
        .ok (if p.length + 1 < size then some (p ++ [0#8]) else none)) ∧
      ∀ tail cwd, v.chdir calls (p ++ 0#8 :: tail) cwd = .ok (.ok e, v) := by
  refine ⟨_, getcwd_eq (h.printPath hcalls), fun tail cwd => ?_⟩
  suffices hturn : pathTurn v true (slash :: joined cs.dropLast (cs.getLast?.getD []) ++ 0#8 :: tail)
      (some cwd) = .ok (.done e v) by
    obtain ⟨n, rfl⟩ := Nat.exists_eq_add_of_lt hcalls
    obtain ⟨x, hx, -⟩ := Vfs.typeOf_eq_some.mp (h.directory hv)
    have hnode : (v.entry e).vnode ≠ none := by
      intro hnone
      simp [Vfs.node, hnone] at hx
    unfold Vfs.chdir pathToEntry
    rw [hturn]
    simp [hnode, h.directory hv, ok_bind, pure, Except.pure]
  cases h with
  | root => rfl
  | @child cs d _ dir _ found nonempty name terminated type _ =>
    rw [List.dropLast_concat, List.getLast?_concat, Option.getD_some]
    have h0 : 0#8 ∉ slash :: joined cs (v.entry e).name := by
      simp only [List.mem_cons, not_or]
      exact ⟨by decide, dir.terminated terminated⟩
    have hlen := length_le_joined cs (v.entry e).name
    have hpos := List.length_pos_of_ne_nil nonempty
    obtain ⟨turns, hturns⟩ := Nat.exists_eq_add_of_lt (show cs.length <
      (slash :: joined cs (v.entry e).name ++ 0#8 :: tail).length by
        simp only [List.cons_append, List.length_cons, List.length_append]
        omega)
    unfold pathTurn
    rw [strlen_append h0, hturns]
    simp only [orFault, ok_bind, List.length_cons, List.cons_append, List.head?_cons, if_true,
      List.tail_cons, Nat.add_sub_cancel]
    rw [if_neg (by omega), if_neg (by omega), Nat.add_assoc, dir.walk hv nonempty terminated]
    refine (walk_end (k := 0) (dir.directory hv) terminated name (by simp)).trans ?_
    rw [component_directory found type]
    rfl

/-- The tree after `mkdir("/tmp")`. -/
def withTmp : Vfs :=
  match mkdiratImpl Vfs.booted 1 (cliteral "/tmp") none with
  | .ok (_, v) => v
  | .error _ => Vfs.booted

theorem getcwd_chdir_tmp : ∃ p, (∀ size, withTmp.getcwd 2 4 size =
      .ok (if p.length + 1 < size then some (p ++ [0#8]) else none)) ∧
    ∀ tail cwd, withTmp.chdir 2 (p ++ 0#8 :: tail) cwd = .ok (.ok 4, withTmp) :=
  getcwd_chdir (treeOk_of_entries (by decide) (by decide) (by decide))
    (.child (.root (by decide) (by decide)) (by decide) (by decide) (by decide) (by decide)
      (by decide) (by decide) (by decide)) (by decide)

end UnderRoot

end Fishix.Fs
