import Fishix.Fs.Lookup

/-!
# What a call does to the tree

One lemma for each call: where its lookups ended, what it returned, and what became of the entries.
A call that returns leaves a `Forest`.

* `create_eq`, `createNode_eq`, `createLink_eq`: an entry gets its node.
* `openat_cases`, `mkdirat_cases`, `mknodat_cases`, `symlinkat_cases`, `bind_cases`,
  `linkat_cases`, `unlinkat_cases`, `renameat_cases`: the calls.
* `Forest.step`, `forest_run`: the forest in every run.
* `KeptByChanges.run`: what the single changes keep holds in every run.
-/

namespace Fishix.Fs

namespace Vfs

variable {v v' : Vfs} {d e p x : EntryId} {c : Name}

/-! ## Creating an entry -/

theorem addMissing_vnode : ((v.addMissing p e).entry x).vnode = (v.entry x).vnode := by
  unfold addMissing
  split
  · rfl
  · rw [addChild_entry]
    split_ifs with hx
    · rw [hx.1]
    · rfl

@[simp] theorem addMissing_nodes : (v.addMissing p e).nodes = v.nodes := by
  unfold addMissing
  split <;> rfl

@[simp] theorem addMissing_length : (v.addMissing p e).entries.length = v.entries.length := by
  unfold addMissing
  split
  · rfl
  · exact updateEntry_length _

theorem createLink_eq : v.createLink e = (match (v.entry e).parent with
    | none => .error .nullPointer
    | some p => .ok (v.enter p e)) := by
  unfold createLink
  cases (v.entry e).parent <;> rfl

theorem createNode_eq (y : VNode) : v.createNode e y = (match (v.entry e).parent with
    | none => .error .nullPointer
    | some p => .ok ((v.pushNode y).place p e v.nodes.length)) := by
  unfold createNode
  cases (v.entry e).parent with
  | none => rfl
  | some p =>
    show Except.ok _ = Except.ok _
    simp [place, setNode, pushNode]

theorem create_eq (t : NodeType) : v.create e t = v.createNode e ⟨t, some []⟩ := by
  rw [createNode_eq]
  unfold create
  cases hp : (v.entry e).parent with
  | none => rfl
  | some p =>
    have hlt : e < v.entries.length := lt_of_parent (by simp [hp])
    have hvnode : ((((v.pushNode ⟨t, some []⟩).setNode e (some v.nodes.length)).addMissing p
        e).entry e).vnode = some v.nodes.length := by
      rw [addMissing_vnode, setNode_entry, if_pos ⟨rfl, by simpa [pushNode] using hlt⟩]
    have htype : ((((v.pushNode ⟨t, some []⟩).setNode e (some v.nodes.length)).addMissing p
        e).node e).map (·.nodeType) = some t := by
      unfold node
      rw [hvnode, Option.bind_some, addMissing_nodes]
      simp [setNode, pushNode]
    show (if t = .directory then _ else _) = Except.ok (Vfs.enter _ p e)
    unfold enter
    simp only [htype, Option.some.injEq]
    by_cases hdir : t = .directory
    · rw [if_pos hdir, if_pos hdir]
      unfold addDots
      simp only [hvnode]
      rfl
    · rw [if_neg hdir, if_neg hdir]
      rfl

theorem createLink_share {o : EntryId} (h : (v.shareNode e o).createLink e = .ok v') :
    ∃ p, (v.entry e).parent = some p ∧ v' = (v.setNode e (v.entry o).vnode).enter p e := by
  rw [createLink_eq] at h
  have hparent : ((v.shareNode e o).entry e).parent = (v.entry e).parent := by
    unfold shareNode
    rw [updateEntry_entry]
    split_ifs <;> rfl
  rw [hparent] at h
  cases hp : (v.entry e).parent with
  | none => simp [hp] at h
  | some p =>
    simp only [hp] at h
    cases h
    exact ⟨p, rfl, rfl⟩

/-- What a node holds is replaced. -/
def setData (v : Vfs) (n : VNodeId) (data : List CChar) : Vfs :=
  { v with nodes := v.nodes.modify n fun x => { x with data := some data } }

end Vfs

theorem Forest.node_eq_none {v : Vfs} (hv : Forest v) {e : EntryId} :
    v.node e = none ↔ (v.entry e).vnode = none := by
  unfold Vfs.node
  cases hn : (v.entry e).vnode with
  | none => simp
  | some n => simpa using hv.vnode_lt hn

theorem Forest.setData {v : Vfs} (hv : Forest v) (n : VNodeId) (data : List CChar) :
    Forest (v.setData n data) := hv.modifyNode n _

/-! ## Calls with one path -/

/-- A lookup that ended at `e` and left `w`: the entry may have got a new node, and the data of a
    node may have been replaced. -/
inductive Creates (w : Vfs) (e : EntryId) : Vfs → Prop
  | kept : Creates w e w
  | made {p : EntryId} (y : VNode) (free : w.node e = none) (parent : (w.entry e).parent = some p) :
      Creates w e ((w.pushNode y).place p e w.nodes.length)
  | data {u : Vfs} (h : Creates w e u) (n : VNodeId) (data : List CChar) :
      Creates w e (u.setData n data)

section Cases

variable {v v' w : Vfs} {a : PathArg} {r : Except Errno Unit}

theorem Creates.unchanged {e : EntryId} {r' : Except Errno Unit}
    (h : (pure (r', w) : Except Fault (Except Errno Unit × Vfs)) = .ok (r, v')) :
    Creates w e v' := by
  cases h
  exact .kept

theorem createNode_made {e : EntryId} {y : VNode} (hfree : w.node e = none)
    (h : w.createNode e y = .ok v') : Creates w e v' := by
  rw [Vfs.createNode_eq] at h
  cases hp : (w.entry e).parent with
  | none => simp [hp] at h
  | some p =>
    simp only [hp] at h
    cases h
    exact .made y hfree hp

theorem create_made {e : EntryId} {t : NodeType} (hfree : w.node e = none)
    (h : w.create e t = .ok v') : Creates w e v' := by
  rw [Vfs.create_eq] at h
  exact createNode_made hfree h

theorem node_of_free {e : EntryId} (h : ¬(w.entry e).vnode ≠ none) : w.node e = none := by
  simp [Vfs.node, not_not.mp h]

theorem openat_cases {flags : OpenFlags} (h : v.openat a flags = .ok (r, v')) :
    ∃ e w, a.lookup v (!flags.nofollow) = .ok (e, w) ∧ Creates w e v' := by
  unfold Vfs.openat at h
  obtain ⟨⟨e, w⟩, hlook, h⟩ := bind_ok h
  refine ⟨e, w, hlook, ?_⟩
  simp only at h
  split at h
  · next n x hvnode hnode =>
    split_ifs at h
    · exact .unchanged h
    · exact .unchanged h
    · exact .unchanged h
    · exact .unchanged h
    · exact .unchanged h
    · cases h
      exact Creates.kept.data n []
    · exact .unchanged h
  · next hno =>
    have hfree : w.node e = none := by
      cases hv : (w.entry e).vnode with
      | none => simp [Vfs.node, hv]
      | some n =>
        cases hn : w.node e with
        | none => rfl
        | some x => exact absurd hn (hno n x hv)
    split_ifs at h
    · exact .unchanged h
    · exact .unchanged h
    · obtain ⟨u, hu, h⟩ := bind_ok h
      cases h
      exact create_made hfree hu

theorem mkdirat_cases (h : mkdiratImpl v a.calls a.path a.start = .ok (r, v')) :
    ∃ e w, a.lookup v true = .ok (e, w) ∧ Creates w e v' := by
  unfold mkdiratImpl at h
  obtain ⟨⟨e, w⟩, hlook, h⟩ := bind_ok h
  refine ⟨e, w, hlook, ?_⟩
  simp only at h
  split_ifs at h with hvnode hparent
  · exact .unchanged h
  · exact .unchanged h
  · obtain ⟨u, hu, h⟩ := bind_ok h
    cases h
    exact create_made (node_of_free hvnode) hu

theorem mknodat_cases {type : MknodType} (h : v.mknodat a type = .ok (r, v')) :
    ∃ e w, a.lookup v true = .ok (e, w) ∧ Creates w e v' := by
  unfold Vfs.mknodat at h
  obtain ⟨⟨e, w⟩, hlook, h⟩ := bind_ok h
  refine ⟨e, w, hlook, ?_⟩
  simp only at h
  split_ifs at h with hvnode hparent
  · exact .unchanged h
  · exact .unchanged h
  · split at h
    · obtain ⟨u, hu, h⟩ := bind_ok h
      cases h
      exact create_made (node_of_free hvnode) hu
    · obtain ⟨u, hu, h⟩ := bind_ok h
      cases h
      exact createNode_made (node_of_free hvnode) hu
    · exact .unchanged h

theorem bind_cases (h : v.bind a = .ok (r, v')) :
    ∃ e w, a.lookup v true = .ok (e, w) ∧ Creates w e v' := by
  unfold Vfs.bind at h
  obtain ⟨⟨e, w⟩, hlook, h⟩ := bind_ok h
  refine ⟨e, w, hlook, ?_⟩
  simp only at h
  split_ifs at h with hvnode hparent
  · exact .unchanged h
  · exact .unchanged h
  · obtain ⟨u, hu, h⟩ := bind_ok h
    cases h
    exact createNode_made (node_of_free hvnode) hu

theorem symlinkat_cases {target : List CChar}
    (h : symlinkatImpl v a.calls target a.path a.start = .ok (r, v')) :
    ∃ e w, a.lookup v true = .ok (e, w) ∧ Creates w e v' := by
  unfold symlinkatImpl at h
  obtain ⟨⟨e, w⟩, hlook, h⟩ := bind_ok h
  refine ⟨e, w, hlook, ?_⟩
  simp only at h
  split_ifs at h with hparent hvnode
  · exact .unchanged h
  · exact .unchanged h
  · obtain ⟨u, hu, h⟩ := bind_ok h
    cases h
    have hmade := create_made (node_of_free hvnode) hu
    unfold Vfs.writeStart
    cases (u.entry e).vnode with
    | none => exact hmade
    | some n => exact hmade.data n (cstr target)

/-! ## Calls with two paths, and those that remove -/

/-- `linkat` looks up both paths, and may give the second entry the node of the first. -/
theorem linkat_cases {old new : PathArg} (h : v.linkat old new = .ok (r, v')) :
    ∃ o w, old.lookup v true = .ok (o, w) ∧
      (((w.entry o).vnode = none ∧ r = .error .enoent ∧ v' = w) ∨
      ∃ e u, (w.entry o).vnode ≠ none ∧ new.lookup w true = .ok (e, u) ∧
        (((u.entry e).vnode ≠ none ∧ r = .error .eexist ∧ v' = u) ∨
        ∃ p, (u.entry e).vnode = none ∧ (u.entry e).parent = some p ∧ r = .ok () ∧
          v' = (u.setNode e (u.entry o).vnode).enter p e)) := by
  unfold Vfs.linkat at h
  obtain ⟨⟨o, w⟩, hlook, h⟩ := bind_ok h
  refine ⟨o, w, hlook, ?_⟩
  simp only at h
  split_ifs at h with hvnode
  · simp only [pure, Except.pure, Except.ok.injEq, Prod.mk.injEq] at h
    exact .inl ⟨hvnode, h.1.symm, h.2.symm⟩
  · obtain ⟨⟨e, u⟩, hnew, h⟩ := bind_ok h
    refine .inr ⟨e, u, hvnode, hnew, ?_⟩
    simp only at h
    split_ifs at h with hexist
    · simp only [pure, Except.pure, Except.ok.injEq, Prod.mk.injEq] at h
      exact .inl ⟨hexist, h.1.symm, h.2.symm⟩
    · obtain ⟨u', hu', h⟩ := bind_ok h
      simp only [pure, Except.pure, Except.ok.injEq, Prod.mk.injEq] at h
      obtain ⟨p, hp, rfl⟩ := Vfs.createLink_share hu'
      exact .inr ⟨p, not_not.mp hexist, hp, h.1.symm, h.2.symm⟩

end Cases

namespace Tree

variable {t t' : Tree} {a : PathArg} {r : Except Errno Unit} {e : EntryId}

/-- `remove` takes an entry out of the list of its parent, or clears the links of the root. -/
theorem remove_cases (h : t.remove e = .ok t') : (t.vfs.entry e).vnode ≠ none ∧
    ((∃ p, (t.vfs.entry e).parent = some p ∧ e ∈ (t.vfs.entry p).children ∧
      t' = { t with vfs := t.vfs.unlink p e }) ∨
    ((t.vfs.entry e).parent = none ∧ t' = { t with rootUnlinked := true })) := by
  unfold remove at h
  obtain ⟨n, hn, h⟩ := bind_ok h
  have hvnode : (t.vfs.entry e).vnode ≠ none := by
    intro hnone
    simp [hnone, orFault] at hn
  refine ⟨hvnode, ?_⟩
  cases hp : (t.vfs.entry e).parent with
  | none =>
    simp only [hp] at h
    split_ifs at h
    simp only [pure, Except.pure, Except.ok.injEq] at h
    exact .inr ⟨rfl, h.symm⟩
  | some p =>
    simp only [hp] at h
    split_ifs at h with hmem
    simp only [pure, Except.pure, Except.ok.injEq] at h
    exact .inl ⟨p, rfl, hmem, h.symm⟩

theorem unlinkat_cases {removeDir : Bool} (h : t.unlinkat a removeDir = .ok (r, t')) :
    ∃ e w, a.lookup t.vfs true = .ok (e, w) ∧
      ((∃ errno, r = .error errno ∧ t' = { t with vfs := w }) ∨
      (r = .ok () ∧ (w.typeOf e ≠ some .directory ∨ removeDir) ∧
        Tree.remove { t with vfs := w } e = .ok t')) := by
  unfold unlinkat at h
  obtain ⟨⟨e, w⟩, hlook, h⟩ := bind_ok h
  refine ⟨e, w, hlook, ?_⟩
  simp only at h
  cases hn : w.node e with
  | none =>
    simp only [hn, pure, Except.pure, Except.ok.injEq, Prod.mk.injEq] at h
    exact .inl ⟨_, h.1.symm, h.2.symm⟩
  | some x =>
    simp only [hn] at h
    split_ifs at h with hdir
    · simp only [pure, Except.pure, Except.ok.injEq, Prod.mk.injEq] at h
      exact .inl ⟨_, h.1.symm, h.2.symm⟩
    · obtain ⟨u, hu, h⟩ := bind_ok h
      simp only [pure, Except.pure, Except.ok.injEq, Prod.mk.injEq] at h
      refine .inr ⟨h.1.symm, ?_, ?_⟩
      · simp only [Vfs.typeOf, hn, Option.map_some, ne_eq, Option.some.injEq]
        by_cases hd : x.nodeType = .directory
        · right
          simpa [hd] using hdir
        · exact .inl hd
      · rw [← h.2]
        exact hu

theorem renameat_cases {old new : PathArg} (h : t.renameat old new = .ok (r, t')) :
    ∃ o w, old.lookup t.vfs true = .ok (o, w) ∧
      (((w.entry o).vnode = none ∧ r = .error .enoent ∧ t' = { t with vfs := w }) ∨
      ∃ e u t1 p, (w.entry o).vnode ≠ none ∧ new.lookup w true = .ok (e, u) ∧
        (((u.entry e).vnode = none ∧ t1 = { t with vfs := u }) ∨
          ((u.entry e).vnode ≠ none ∧ Tree.remove { t with vfs := u } e = .ok t1)) ∧
        (t1.vfs.entry e).parent = some p ∧ r = .ok () ∧
        Tree.remove { t1 with vfs := (t1.vfs.setNode e (t1.vfs.entry o).vnode).enter p e } o =
          .ok t') := by
  unfold renameat at h
  obtain ⟨⟨o, w⟩, hlook, h⟩ := bind_ok h
  refine ⟨o, w, hlook, ?_⟩
  simp only at h
  split_ifs at h with hvnode
  · simp only [pure, Except.pure, Except.ok.injEq, Prod.mk.injEq] at h
    exact .inl ⟨hvnode, h.1.symm, h.2.symm⟩
  · obtain ⟨⟨e, u⟩, hnew, h⟩ := bind_ok h
    -- what follows when the new entry is free to take the node
    have hrest : ∀ t1 : Tree, (do
        let v ← (t1.vfs.shareNode e o).createLink e
        let t ← Tree.remove { t1 with vfs := v } o
        pure (Except.ok (), t) : Except Fault (Except Errno Unit × Tree)) = .ok (r, t') →
        ∃ p, (t1.vfs.entry e).parent = some p ∧ r = .ok () ∧
          Tree.remove { t1 with vfs := (t1.vfs.setNode e (t1.vfs.entry o).vnode).enter p e } o =
            .ok t' := by
      intro t1 h
      obtain ⟨v1, hv1, h⟩ := bind_ok h
      obtain ⟨p, hp, rfl⟩ := Vfs.createLink_share hv1
      obtain ⟨t2, ht2, h⟩ := bind_ok h
      cases h
      exact ⟨p, hp, rfl, ht2⟩
    right
    simp only at h
    by_cases hexist : (u.entry e).vnode ≠ none
    · rw [if_pos hexist] at h
      obtain ⟨t1, ht1, h⟩ := bind_ok h
      obtain ⟨p, hp, hr, hlast⟩ := hrest t1 h
      exact ⟨e, u, t1, p, hvnode, hnew, .inr ⟨hexist, ht1⟩, hp, hr, hlast⟩
    · rw [if_neg hexist] at h
      obtain ⟨p, hp, hr, hlast⟩ := hrest { t with vfs := u } h
      exact ⟨e, u, _, p, hvnode, hnew, .inl ⟨not_not.mp hexist, rfl⟩, hp, hr, hlast⟩

/-- A call that only changes the entries. -/
theorem lift_cases {x : Except Fault (Except Errno Unit × Vfs)} (h : t.lift x = .ok (r, t')) :
    ∃ v, x = .ok (r, v) ∧ t' = { t with vfs := v } := by
  unfold lift at h
  obtain ⟨y, hy, h⟩ := exists_ok_of_map h
  cases h
  exact ⟨y.2, hy, rfl⟩

end Tree

/-- A call with one path, other than `unlinkat`, looks the path up and may create the entry. -/
theorem Tree.single_cases {t t' : Tree} {op : PathOp} {r : Except Errno Unit}
    (h : t.call op = .ok (r, t')) (hlink : ∀ old new, op ≠ .linkat old new)
    (hrename : ∀ old new, op ≠ .renameat old new) (hunlink : ∀ a d, op ≠ .unlinkat a d) :
    ∃ a follow e w, PathArg.lookup a t.vfs follow = .ok (e, w) ∧ Creates w e t'.vfs := by
  cases op with
  | linkat old new => exact absurd rfl (hlink old new)
  | renameat old new => exact absurd rfl (hrename old new)
  | unlinkat a removeDir => exact absurd rfl (hunlink a removeDir)
  | lookup a follow =>
    obtain ⟨v, hx, rfl⟩ := Tree.lift_cases h
    obtain ⟨⟨e, w⟩, hlook, hpair⟩ := exists_ok_of_map hx
    cases hpair
    exact ⟨a, follow, e, w, hlook, .kept⟩
  | openat a flags =>
    obtain ⟨v, hx, rfl⟩ := Tree.lift_cases h
    obtain ⟨e, w, hlook, hmade⟩ := openat_cases hx
    exact ⟨a, _, e, w, hlook, hmade⟩
  | mkdirat a =>
    obtain ⟨v, hx, rfl⟩ := Tree.lift_cases h
    obtain ⟨e, w, hlook, hmade⟩ := mkdirat_cases hx
    exact ⟨a, _, e, w, hlook, hmade⟩
  | mknodat a type =>
    obtain ⟨v, hx, rfl⟩ := Tree.lift_cases h
    obtain ⟨e, w, hlook, hmade⟩ := mknodat_cases hx
    exact ⟨a, _, e, w, hlook, hmade⟩
  | symlinkat target a =>
    obtain ⟨v, hx, rfl⟩ := Tree.lift_cases h
    obtain ⟨e, w, hlook, hmade⟩ := symlinkat_cases hx
    exact ⟨a, _, e, w, hlook, hmade⟩
  | bind a =>
    obtain ⟨v, hx, rfl⟩ := Tree.lift_cases h
    obtain ⟨e, w, hlook, hmade⟩ := bind_cases hx
    exact ⟨a, _, e, w, hlook, hmade⟩

/-! ## The forest in a run -/

namespace Forest

variable {v v' w : Vfs} {e d p : EntryId}

theorem found (hv : Forest v) (h : Found v e v') : Forest v' := by
  cases h with
  | null => exact hv
  | root => exact hv
  | child dir h => exact hv
  | nullMissing dir h => exact hv.negative dir.vnode
  | missing dir h => exact hv.negative dir.vnode

theorem lookup {a : PathArg} {follow : Bool} (hv : Forest v) (h : a.lookup v follow = .ok (e, v')) :
    Forest v' := hv.found (pathToEntry_found hv h)

theorem creates (hw : Forest w) (h : Creates w e v') : Forest v' := by
  induction h with
  | kept => exact hw
  | made y free parent =>
    exact (hw.pushNode y).place parent (by simp [Vfs.pushNode])
  | data h n data ih => exact ih.setData n data

theorem remove_entry {t t' : Tree} (h : t.remove e = .ok t') (x : EntryId) :
    (t'.vfs.entry x).vnode = (t.vfs.entry x).vnode ∧
      (t'.vfs.entry x).parent = (t.vfs.entry x).parent := by
  obtain ⟨-, ⟨p, -, -, rfl⟩ | ⟨-, rfl⟩⟩ := Tree.remove_cases h
  · obtain ⟨hvnode, -, -, hparent⟩ := t.vfs.unlink_fields p e x
    exact ⟨hvnode, hparent⟩
  · exact ⟨rfl, rfl⟩

end Forest

/-- A lookup leaves every entry with the node it had. -/
theorem Vfs.negative_vnode {v : Vfs} {d : EntryId} {c : Name} (x : EntryId) :
    ((v.negative d c).entry x).vnode = (v.entry x).vnode := by
  unfold Vfs.negative
  rw [Vfs.entry_addChild, Vfs.entry_alloc _ _ rfl]

theorem Found.vnode {v v' : Vfs} {e : EntryId} (h : Found v e v') (x : EntryId) :
    (v'.entry x).vnode = (v.entry x).vnode := by
  cases h with
  | null => rfl
  | root => rfl
  | child dir h => rfl
  | nullMissing dir h => exact Vfs.negative_vnode x
  | missing dir h => exact Vfs.negative_vnode x

/-! ## What the changes keep, every call keeps -/

/-- `P` is kept by each change that calls are made of, in a forest. -/
structure KeptByChanges (P : Vfs → Prop) : Prop where
  negative : ∀ {v d c}, Forest v → P v → v.IsDir d → v.findChild d c = none → P (v.negative d c)
  pushNode : ∀ {v}, P v → ∀ y, P (v.pushNode y)
  setData : ∀ {v}, P v → ∀ n data, P (v.setData n data)
  place : ∀ {v p e n}, Forest v → P v → (v.entry e).parent = some p → n < v.nodes.length →
    P (v.place p e n)
  unlink : ∀ {v p e}, Forest v → P v → e ∈ (v.entry p).children → P (v.unlink p e)

namespace KeptByChanges

variable {P : Vfs → Prop} {v w u : Vfs} {e o p : EntryId} {t t' : Tree}

section

variable (hP : KeptByChanges P)

include hP

theorem found (hv : Forest v) (h : P v) (hf : Found v e w) : P w := by
  cases hf with
  | null => exact h
  | root => exact h
  | child dir hfind => exact h
  | nullMissing dir hfind => exact hP.negative hv h dir hfind
  | missing dir hfind => exact hP.negative hv h dir hfind

theorem lookup {a : PathArg} {follow : Bool} (hv : Forest v) (h : P v)
    (hlook : a.lookup v follow = .ok (e, w)) : Forest w ∧ P w :=
  ⟨hv.lookup hlook, hP.found hv h (pathToEntry_found hv hlook)⟩

theorem creates (hw : Forest w) (h : P w) (hc : Creates w e u) : Forest u ∧ P u := by
  refine ⟨hw.creates hc, ?_⟩
  induction hc with
  | kept => exact h
  | made y free parent =>
    exact hP.place (hw.pushNode y) (hP.pushNode h y) parent (by simp [Vfs.pushNode])
  | data hc n data ih => exact hP.setData ih n data

/-- An entry takes over the node of another. -/
theorem share (hv : Forest v) (h : P v) (hp : (v.entry e).parent = some p)
    (ho : (v.entry o).vnode ≠ none) : Forest ((v.setNode e (v.entry o).vnode).enter p e) ∧
      P ((v.setNode e (v.entry o).vnode).enter p e) := by
  obtain ⟨n, hn⟩ := Option.ne_none_iff_exists'.mp ho
  rw [hn]
  exact ⟨hv.place hp (hv.vnode_lt hn), hP.place hv h hp (hv.vnode_lt hn)⟩

theorem remove (hv : Forest t.vfs) (h : P t.vfs) (hr : t.remove e = .ok t') :
    Forest t'.vfs ∧ P t'.vfs := by
  obtain ⟨-, ⟨p, -, hmem, rfl⟩ | ⟨-, rfl⟩⟩ := Tree.remove_cases hr
  · exact ⟨hv.unlink (hv.lt_of_listed hmem).2.2, hP.unlink hv h hmem⟩
  · exact ⟨hv, h⟩

theorem rename {old new : PathArg} {r : Except Errno Unit} (hv : Forest t.vfs) (h : P t.vfs)
    (hcall : t.renameat old new = .ok (r, t')) : Forest t'.vfs ∧ P t'.vfs := by
  obtain ⟨o, w, hold, ⟨-, -, rfl⟩ | ⟨e, u, t1, p, hnode, hnew, ht1, hp, -, hlast⟩⟩ :=
    Tree.renameat_cases hcall
  · exact hP.lookup hv h hold
  obtain ⟨hw, hPw⟩ := hP.lookup hv h hold
  obtain ⟨hu, hPu⟩ := hP.lookup hw hPw hnew
  have hkeep : (u.entry o).vnode ≠ none := by
    rw [(pathToEntry_found hw hnew).vnode o]
    exact hnode
  have ht1P : (Forest t1.vfs ∧ P t1.vfs) ∧ (t1.vfs.entry o).vnode ≠ none := by
    rcases ht1 with ⟨-, rfl⟩ | ⟨-, hremove⟩
    · exact ⟨⟨hu, hPu⟩, hkeep⟩
    · refine ⟨hP.remove (t := { t with vfs := u }) hu hPu hremove, ?_⟩
      rw [(Forest.remove_entry hremove o).1]
      exact hkeep
  obtain ⟨hs, hPs⟩ := hP.share ht1P.1.1 ht1P.1.2 hp ht1P.2
  exact hP.remove (t := { t1 with vfs := _ }) hs hPs hlast

theorem step {op : PathOp} (hv : Forest t.vfs) (h : P t.vfs) (hstep : t.step op = .ok t') :
    Forest t'.vfs ∧ P t'.vfs := by
  obtain ⟨⟨r, t''⟩, hcall, rfl⟩ := exists_ok_of_map hstep
  cases op with
  | linkat old new =>
    obtain ⟨v, hx, rfl⟩ := Tree.lift_cases hcall
    obtain ⟨o, w, hold, hcase⟩ := linkat_cases hx
    obtain ⟨hw, hPw⟩ := hP.lookup hv h hold
    obtain ⟨-, -, rfl⟩ | ⟨e, u, hnode, hnew, ⟨-, -, rfl⟩ | ⟨p, -, hp, -, rfl⟩⟩ := hcase
    · exact ⟨hw, hPw⟩
    · exact hP.lookup hw hPw hnew
    · obtain ⟨hu, hPu⟩ := hP.lookup hw hPw hnew
      refine hP.share hu hPu hp ?_
      rw [(pathToEntry_found hw hnew).vnode o]
      exact hnode
  | renameat old new => exact hP.rename hv h hcall
  | unlinkat a removeDir =>
    obtain ⟨e, w, hlook, ⟨errno, -, rfl⟩ | ⟨-, -, hremove⟩⟩ := Tree.unlinkat_cases hcall
    · exact hP.lookup hv h hlook
    · obtain ⟨hw, hPw⟩ := hP.lookup hv h hlook
      exact hP.remove (t := { t with vfs := w }) hw hPw hremove
  | _ =>
    obtain ⟨a, follow, e, w, hlook, hmade⟩ := Tree.single_cases hcall (by simp) (by simp) (by simp)
    obtain ⟨hw, hPw⟩ := hP.lookup hv h hlook
    exact hP.creates hw hPw hmade

theorem run (hbooted : P Vfs.booted) (h : Run Tree.step (fun _ _ => True) Tree.booted t) :
    Forest t.vfs ∧ P t.vfs :=
  h.invariant (P := fun t => Forest t.vfs ∧ P t.vfs)
    (fun _ _ _ hs _ next => hP.step hs.1 hs.2 next) ⟨Forest.booted, hbooted⟩

end

/-- Every call keeps the forest. -/
theorem trivial : KeptByChanges fun _ => True := by
  constructor <;> exact fun _ => by intros; exact True.intro

end KeptByChanges

theorem Forest.step {t t' : Tree} {op : PathOp} (hv : Forest t.vfs) (h : t.step op = .ok t') :
    Forest t'.vfs :=
  (KeptByChanges.trivial.step hv True.intro h).1

theorem forest_run {t : Tree} {Ok : Tree → PathOp → Prop} (h : Run Tree.step Ok Tree.booted t) :
    Forest t.vfs :=
  h.invariant (P := fun t => Forest t.vfs) (fun _ _ _ hs _ next => hs.step next) Forest.booted

end Fishix.Fs
