import Fishix.Fs.Effects

/-!
# The null entry

`path_to_entry` returns one shared entry for every path whose parent directory is not there. The
calls that create test its parent before they write to it; `renameat_impl` and `linkat_impl` do
not, and follow a null pointer behind `new_entry->vnode = old_entry->vnode` (fs/vfs.cpp:822-825,
1056-1060).

* `Found.sameTree`: a lookup leaves what names stand for as it is.
* `nullEntry_stays_null`: the null entry in every run, and what a call does that meets it.
* `rename_into_missing`: a rename that ends in a fault.
-/

namespace Fishix.Fs

namespace Vfs

/-- The entry names something. -/
def Live (v : Vfs) (e : EntryId) : Prop := (v.entry e).vnode ≠ none

instance (v : Vfs) : DecidablePred v.Live := fun _ => inferInstanceAs (Decidable (_ ≠ _))

/-- The tree is the same but for entries that name nothing. -/
structure SameTree (v v' : Vfs) : Prop where
  nodes : v'.nodes = v.nodes
  root : v'.root = v.root
  vnode : ∀ e, (v'.entry e).vnode = (v.entry e).vnode
  parent : ∀ e < v.entries.length, (v'.entry e).parent = (v.entry e).parent
  redirect : ∀ e < v.entries.length, (v'.entry e).redirect = (v.entry e).redirect
  name : ∀ e < v.entries.length, (v'.entry e).name = (v.entry e).name
  children : ∀ e, (v'.entry e).children.filter (v'.Live ·) = (v.entry e).children.filter (v.Live ·)

theorem SameTree.refl (v : Vfs) : SameTree v v :=
  ⟨rfl, rfl, fun _ => rfl, fun _ _ => rfl, fun _ _ => rfl, fun _ _ => rfl, fun _ => rfl⟩

variable {v : Vfs} {d x : EntryId} {c : Name}

/-- Every entry but the new one is as before, with the new one as a child of `d`. -/
theorem negative_entry (hd : d < v.entries.length) : (v.negative d c).entry x =
    if x = d then { v.entry d with children := v.entries.length :: (v.entry d).children }
    else if x = v.entries.length then Entry.construct none (some d) c none
    else v.entry x := by
  unfold negative
  rw [addChild_entry, alloc_entry, alloc_entry, if_neg (Nat.ne_of_lt hd)]
  have hlen : d < (v.alloc (Entry.construct none (some d) c none)).2.entries.length := by
    simpa [alloc] using Nat.lt_succ_of_lt hd
  by_cases hx : x = d
  · rw [if_pos ⟨hx, hlen⟩, if_pos hx]
  · rw [if_neg (fun h => hx h.1), if_neg hx]

theorem sameTree_negative (hd : (v.entry d).vnode ≠ none) : SameTree v (v.negative d c) := by
  have hlt := lt_of_vnode hd
  have hold : ∀ e < v.entries.length, e ≠ v.entries.length := fun e he => Nat.ne_of_lt he
  have hlive : ∀ l : List EntryId, l.filter ((v.negative d c).Live ·) = l.filter (v.Live ·) := by
    intro l
    refine List.filter_congr ?_
    intro e _
    exact decide_eq_decide.mpr (by rw [Live, negative_vnode]; rfl)
  refine ⟨rfl, rfl, negative_vnode, ?_, ?_, ?_, ?_⟩
  · intro e he
    rw [negative_entry hlt, if_neg (hold e he)]
    split_ifs with hx
    · rw [hx]
    · rfl
  · intro e he
    rw [negative_entry hlt, if_neg (hold e he)]
    split_ifs with hx
    · rw [hx]
    · rfl
  · intro e he
    rw [negative_entry hlt, if_neg (hold e he)]
    split_ifs with hx
    · rw [hx]
    · rfl
  · intro e
    rw [hlive, negative_entry hlt]
    split_ifs with hx hnew
    · -- the new child names nothing
      rw [hx, List.filter_cons_of_neg]
      simp [Live, entry_of_le, Entry.construct]
    · rw [hnew, entry_of_le (Nat.le_refl _)]
      rfl
    · rfl

end Vfs

namespace Found

variable {v v' : Vfs} {e : EntryId}

theorem sameTree (h : Found v e v') : v.SameTree v' := by
  cases h with
  | null => exact .refl v
  | root => exact .refl v
  | child dir h => exact .refl v
  | nullMissing dir h => exact Vfs.sameTree_negative dir.vnode
  | missing dir h => exact Vfs.sameTree_negative dir.vnode

theorem nullEntry (h : Found v e v') : v'.nullEntry = v.nullEntry := by
  cases h <;> rfl

end Found

/-! ## Calls that meet the null entry -/

/-- The path has no parent directory: its lookup ends at the null entry. -/
def EndsAtNull (v : Vfs) (a : PathArg) (follow : Bool) : Prop :=
  ∃ w, a.lookup v follow = .ok (v.nullEntry, w)

/-- One of the paths of the call has no parent directory. -/
def MissingParent (v : Vfs) : PathOp → Prop
  | .lookup a follow => EndsAtNull v a follow
  | .openat a flags => EndsAtNull v a !flags.nofollow
  | .mkdirat a => EndsAtNull v a true
  | .mknodat a _ => EndsAtNull v a true
  | .symlinkat _ a => EndsAtNull v a true
  | .linkat old new => EndsAtNull v old true ∨
      ∃ o w, old.lookup v true = .ok (o, w) ∧ EndsAtNull w new true
  | .renameat old new => EndsAtNull v old true ∨
      ∃ o w, old.lookup v true = .ok (o, w) ∧ EndsAtNull w new true
  | .unlinkat a _ => EndsAtNull v a true
  | .bind a => EndsAtNull v a true

/-- The call gives the null entry a node: a rename or a link of something that exists. -/
def Unchecked (v : Vfs) : PathOp → Prop
  | .linkat old new => ∃ o w, old.lookup v true = .ok (o, w) ∧ (w.entry o).vnode ≠ none ∧
      EndsAtNull w new true
  | .renameat old new => ∃ o w, old.lookup v true = .ok (o, w) ∧ (w.entry o).vnode ≠ none ∧
      EndsAtNull w new true
  | _ => False

/-- The call returns an error, and names stand for what they stood for. -/
def Fails (t : Tree) (op : PathOp) : Prop :=
  ∃ errno t', t.call op = .ok (.error errno, t') ∧ t.vfs.SameTree t'.vfs ∧
    t'.rootUnlinked = t.rootUnlinked

section Calls

variable {t : Tree} {a old new : PathArg} {follow : Bool} {w : Vfs} {o : EntryId}

section

variable (hv : Forest t.vfs)

include hv

theorem null_of_lookup (h : a.lookup t.vfs follow = .ok (t.vfs.nullEntry, w)) :
    w.entry t.vfs.nullEntry = Entry.construct none none [] none := by
  rw [← (pathToEntry_found hv h).nullEntry]
  exact (hv.lookup h).null

theorem fails_lift (hlook : a.lookup t.vfs follow = .ok (o, w))
    {x : Except Fault (Except Errno Unit × Vfs)} (errno : Errno) (hx : x = .ok (.error errno, w))
    {op : PathOp} (hop : t.call op = t.lift x) : Fails t op := by
  refine ⟨errno, { t with vfs := w }, ?_, (pathToEntry_found hv hlook).sameTree, rfl⟩
  rw [hop, hx]
  rfl

/-- A call with one path that ends at the null entry fails. -/
theorem fails_of_onePath {op : PathOp} (hm : MissingParent t.vfs op)
    (hlink : ∀ old new, op ≠ .linkat old new) (hrename : ∀ old new, op ≠ .renameat old new) :
    Fails t op := by
  cases op with
  | linkat old new => exact absurd rfl (hlink old new)
  | renameat old new => exact absurd rfl (hrename old new)
  | lookup a follow =>
    obtain ⟨w, hw⟩ := hm
    have hnull := null_of_lookup hv hw
    exact fails_lift hv hw Errno.enoent (by simp [hw, hnull, Except.map, Entry.construct]) rfl
  | openat a flags =>
    obtain ⟨w, hw⟩ := hm
    have hnull := null_of_lookup hv hw
    refine fails_lift hv hw Errno.enoent ?_ rfl
    simp only [Vfs.openat, hw, ok_bind, hnull, Entry.construct]
    split_ifs <;> rfl
  | mkdirat a =>
    obtain ⟨w, hw⟩ := hm
    have hnull := null_of_lookup hv hw
    refine fails_lift hv hw Errno.enoent ?_ rfl
    unfold PathArg.lookup at hw
    simp only [mkdiratImpl, hw, ok_bind, hnull, Entry.construct]
    rfl
  | mknodat a type =>
    obtain ⟨w, hw⟩ := hm
    have hnull := null_of_lookup hv hw
    refine fails_lift hv hw Errno.enoent ?_ rfl
    simp only [Vfs.mknodat, hw, ok_bind, hnull, Entry.construct]
    rfl
  | symlinkat target a =>
    obtain ⟨w, hw⟩ := hm
    have hnull := null_of_lookup hv hw
    refine fails_lift hv hw Errno.enoent ?_ rfl
    unfold PathArg.lookup at hw
    simp only [symlinkatImpl, hw, ok_bind, hnull, Entry.construct]
    rfl
  | bind a =>
    obtain ⟨w, hw⟩ := hm
    have hnull := null_of_lookup hv hw
    refine fails_lift hv hw Errno.enoent ?_ rfl
    simp only [Vfs.bind, hw, ok_bind, hnull, Entry.construct]
    rfl
  | unlinkat a removeDir =>
    obtain ⟨w, hw⟩ := hm
    have hnull := null_of_lookup hv hw
    refine ⟨.enoent, { t with vfs := w }, ?_, (pathToEntry_found hv hw).sameTree, rfl⟩
    have hnode : w.node t.vfs.nullEntry = none := by simp [Vfs.node, hnull, Entry.construct]
    show t.unlinkat a removeDir = _
    simp only [Tree.unlinkat, hw, ok_bind, hnode]
    rfl

/-- With two paths, one that ends at the null entry: the first names nothing, or the call gives
    the null entry a node. -/
theorem first_missing (hm : EndsAtNull t.vfs old true ∨ ∃ o w, old.lookup t.vfs true = .ok (o, w) ∧
    EndsAtNull w new true) (hno : ¬∃ o w, old.lookup t.vfs true = .ok (o, w) ∧ (w.entry o).vnode ≠
    none ∧ EndsAtNull w new true) :
    ∃ o w, old.lookup t.vfs true = .ok (o, w) ∧ (w.entry o).vnode = none := by
  rcases hm with ⟨w, hold⟩ | ⟨o, w, hold, hnull⟩
  · refine ⟨_, w, hold, ?_⟩
    rw [null_of_lookup hv hold]
    rfl
  · refine ⟨o, w, hold, ?_⟩
    by_contra hnode
    exact hno ⟨o, w, hold, hnode, hnull⟩

theorem rename_fails_iff (hm : MissingParent t.vfs (.renameat old new)) :
    Fails t (.renameat old new) ↔ ¬Unchecked t.vfs (.renameat old new) := by
  constructor
  · rintro ⟨errno, t', hcall, -, -⟩ ⟨o, w, hold, hnode, u, hnew⟩
    obtain ⟨o', w', hold', hcase⟩ := Tree.renameat_cases (show t.renameat old new = _ from hcall)
    obtain ⟨rfl, rfl⟩ := pure_pair (hold'.symm.trans hold)
    rcases hcase with ⟨hnone, -, -⟩ | ⟨e, u', t1, p, -, -, -, -, hr, -⟩
    · exact hnode hnone
    · simp at hr
  · intro hno
    obtain ⟨o, w, hold, hnone⟩ := first_missing hv hm hno
    refine ⟨.enoent, { t with vfs := w }, ?_, (pathToEntry_found hv hold).sameTree, rfl⟩
    show t.renameat old new = _
    simp only [Tree.renameat, hold, ok_bind, hnone]
    rfl

theorem link_fails_iff (hm : MissingParent t.vfs (.linkat old new)) :
    Fails t (.linkat old new) ↔ ¬Unchecked t.vfs (.linkat old new) := by
  constructor
  · rintro ⟨errno, t', hcall, -, -⟩ ⟨o, w, hold, hnode, u, hnew⟩
    obtain ⟨v, hx, -⟩ := Tree.lift_cases hcall
    obtain ⟨o', w', hold', hcase⟩ := linkat_cases hx
    obtain ⟨rfl, rfl⟩ := pure_pair (hold'.symm.trans hold)
    rcases hcase with ⟨hnone, -, -⟩ | ⟨e, u', -, hnew', ⟨hexist, -, -⟩ | ⟨p, -, hp, -, -⟩⟩
    · exact hnode hnone
    · -- the second lookup ended at the null entry, which has neither node nor parent
      obtain ⟨rfl, rfl⟩ := pure_pair (hnew'.symm.trans hnew)
      have hnull := null_of_lookup (t := { t with vfs := w' }) (hv.lookup hold') hnew'
      exact hexist (by rw [hnull]; rfl)
    · obtain ⟨rfl, rfl⟩ := pure_pair (hnew'.symm.trans hnew)
      have hnull := null_of_lookup (t := { t with vfs := w' }) (hv.lookup hold') hnew'
      simp [hnull, Entry.construct] at hp
  · intro hno
    obtain ⟨o, w, hold, hnone⟩ := first_missing hv hm hno
    refine fails_lift hv hold Errno.enoent ?_ rfl
    simp only [Vfs.linkat, hold, ok_bind, hnone]
    rfl

end

end Calls

/-- **Main theorem.** After any calls the null entry is as it was made; and a call with a path
    that has no parent directory fails and leaves the tree as it is, if and only if it is no
    rename or link of something that exists. -/
theorem nullEntry_stays_null {t : Tree} (h : Run Tree.step (fun _ _ => True) Tree.booted t) :
    t.vfs.entry t.vfs.nullEntry = Entry.construct none none [] none ∧
      ∀ op, MissingParent t.vfs op → (Fails t op ↔ ¬Unchecked t.vfs op) := by
  have hv := forest_run h
  refine ⟨hv.null, ?_⟩
  intro op hm
  cases op with
  | linkat old new => exact link_fails_iff hv hm
  | renameat old new => exact rename_fails_iff hv hm
  | _ =>
    have hfails := fails_of_onePath hv hm (by simp) (by simp)
    exact ⟨fun _ hno => hno, fun _ => hfails⟩

/-- An absolute path, looked up with one call. -/
def absolute (path : String) : PathArg := { path := cliteral path, calls := 1 }

/-- The tree after `mkdir("/a")`. -/
def madeA : Except Fault Tree := Tree.booted.step (.mkdirat (absolute "/a"))

theorem nullEntry_stays_null_mkdir : ∃ t, Run Tree.step (fun _ _ => True) Tree.booted t ∧
    MissingParent t.vfs (.mkdirat (absolute "/m/b")) ∧ Fails t (.mkdirat (absolute "/m/b")) := by
  obtain ⟨t, ht, hend⟩ := exists_ok_of_map (show madeA.map (fun t =>
    ((absolute "/m/b").lookup t.vfs true).map (fun r => decide (r.1 = t.vfs.nullEntry))) =
      .ok (.ok true) by decide +kernel)
  obtain ⟨⟨e, w⟩, hlook, he⟩ := exists_ok_of_map hend
  have hrun : Run Tree.step (fun _ _ => True) Tree.booted t := Run.start.step trivial ht
  have hm : MissingParent t.vfs (.mkdirat (absolute "/m/b")) := by
    obtain rfl : e = t.vfs.nullEntry := of_decide_eq_true he
    exact ⟨w, hlook⟩
  exact ⟨t, hrun, hm, ((nullEntry_stays_null hrun).2 _ hm).mpr id⟩

/-- `rename("/a", "/m/b")` with no directory `/m` does not return. -/
theorem rename_into_missing : ∃ t, Run Tree.step (fun _ _ => True) Tree.booted t ∧
    MissingParent t.vfs (.renameat (absolute "/a") (absolute "/m/b")) ∧
    t.call (.renameat (absolute "/a") (absolute "/m/b")) = .error .nullPointer ∧
    ¬Fails t (.renameat (absolute "/a") (absolute "/m/b")) := by
  obtain ⟨t, ht, hend⟩ := exists_ok_of_map (show madeA.map (fun t =>
    (((absolute "/a").lookup t.vfs true).bind fun r => ((absolute "/m/b").lookup r.2 true).map fun q =>
      decide (q.1 = r.2.nullEntry),
      (t.call (.renameat (absolute "/a") (absolute "/m/b"))).map fun _ => ())) =
      .ok (.ok true, .error .nullPointer) by decide +kernel)
  obtain ⟨hnull, hfault⟩ := Prod.mk.inj hend
  have hcall : t.call (.renameat (absolute "/a") (absolute "/m/b")) = .error .nullPointer := by
    cases hcall : t.call (.renameat (absolute "/a") (absolute "/m/b")) with
    | error f =>
      rw [hcall] at hfault
      exact congrArg Except.error (Except.error.inj hfault)
    | ok r =>
      rw [hcall] at hfault
      cases hfault
  refine ⟨t, Run.start.step trivial ht, .inr ?_, hcall, ?_⟩
  · obtain ⟨⟨o, w⟩, hold, h⟩ := bind_ok hnull
    obtain ⟨⟨e, u⟩, hnew, he⟩ := exists_ok_of_map h
    obtain rfl : e = w.nullEntry := of_decide_eq_true he
    exact ⟨o, w, hold, u, hnew⟩
  · rintro ⟨errno, t', hret, -, -⟩
    rw [hcall] at hret
    cases hret

end Fishix.Fs
