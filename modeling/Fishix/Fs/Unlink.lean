import Fishix.Fs.Directories

/-!
# Removing a name

`unlinkat_impl` looks its path up as `open` does, so a symlink in the last component is followed
and its target is removed (fs/vfs.cpp:604); `readlinkat_impl` asks `path_to_entry` not to.

* `findChild_unlink`: what `find_child` returns behind `remove`.
* `root_directory`: the root is a directory in every run.
* `unlinkat_removes_iff`: when a successful call has removed the entry its path names.
* `unlink_removes_target`: a link whose target goes.
-/

namespace Fishix.Fs

/-! ## The first of a list, behind `erase` -/

theorem find?_erase_of_not {α : Type} [BEq α] [LawfulBEq α] {q : α → Bool} {a : α} (ha : q a = false) :
    ∀ l : List α, (l.erase a).find? q = l.find? q
  | [] => rfl
  | b :: l => by
    rw [List.erase_cons]
    split_ifs with hb
    · obtain rfl := beq_iff_eq.mp hb
      rw [List.find?_cons_of_neg (by simp [ha])]
    · simp only [List.find?_cons, find?_erase_of_not ha l]

theorem find?_erase_of_ne {α : Type} [BEq α] [LawfulBEq α] {q : α → Bool} {a x : α} (hne : x ≠ a) :
    ∀ {l : List α}, l.find? q = some a → (l.erase x).find? q = some a
  | [], h => by simp at h
  | b :: l, h => by
    rw [List.find?_cons] at h
    rw [List.erase_cons]
    cases hq : q b with
    | true =>
      rw [hq] at h
      obtain rfl := Option.some.inj h
      rw [if_neg (by simpa using Ne.symm hne), List.find?_cons, hq]
    | false =>
      rw [hq] at h
      split_ifs with hb
      · exact h
      · rw [List.find?_cons, hq]
        exact find?_erase_of_ne hne h

/-! ## Names -/

/-- The node that the name `c` stands for in the directory `d`. -/
def Vfs.names (v : Vfs) (d : EntryId) (c : Name) : Option VNodeId :=
  (v.findChild d c).bind fun e => (v.entry e).vnode

/-- The entry `e` is gone from the directory that held it, and no other name is touched. -/
structure RemovesOnly (v : Vfs) (e : EntryId) (v' : Vfs) : Prop where
  names : ∀ d c, v'.names d c =
    if (v.entry e).parent = some d ∧ (v.entry e).name = c then none else v.names d c
  nodes : v'.nodes = v.nodes

/-- Another child of `p` with the name of `e`, which is found once `e` has gone. -/
def Vfs.next (v : Vfs) (p e : EntryId) : Option EntryId :=
  ((v.entry p).children.erase e).find? fun x => (v.entry x).name == (v.entry e).name

/-- A second entry stands behind `e`: its directory lists the name twice. -/
def Vfs.Doubled (v : Vfs) (e : EntryId) : Prop :=
  ∃ p y, (v.entry e).parent = some p ∧ v.next p e = some y ∧ (v.entry y).vnode ≠ none

namespace Forest

variable {v w : Vfs} {d e p x : EntryId} {c : Name}

/-- The hashes of two names differ only if the names do. -/
theorem findChild_eq (h : Forest v) :
    v.findChild d c = (v.entry d).children.find? fun x => (v.entry x).name == c := by
  unfold Vfs.findChild
  refine List.find?_congr ?_
  intro x _
  by_cases hx : (v.entry x).name = c
  · simp [h.hash x, hx]
  · simp [hx]

theorem findChild_unlink (h : Forest v) (hx : x ∈ (v.entry p).children) :
    (v.unlink p x).findChild d c = if d = p then
      ((v.entry p).children.erase x).find? fun y => (v.entry y).name == c
    else v.findChild d c := by
  have hp := h.lt_of_listed hx
  rw [(h.unlink hp.2.2).findChild_eq, h.findChild_eq]
  simp only [(v.unlink_fields p x _).2.2.1]
  rw [Vfs.unlink_entry]
  by_cases hd : d = p
  · rw [if_pos ⟨hd, hp.1⟩, if_pos hd]
  · rw [if_neg (fun hand => hd hand.1), if_neg hd]

theorem names_unlink (h : Forest v) (he : v.findChild p (v.entry e).name = some e) (d : EntryId)
    (c : Name) : (v.unlink p e).names d c = if d = p ∧ (v.entry e).name = c then
      (v.next p e).bind fun y => (v.entry y).vnode else v.names d c := by
  have hmem := (Vfs.mem_of_findChild he).1
  unfold Vfs.names
  simp only [(v.unlink_fields p e _).1, h.findChild_unlink hmem]
  by_cases hd : d = p
  · subst hd
    rw [if_pos rfl]
    by_cases hc : (v.entry e).name = c
    · rw [if_pos ⟨rfl, hc⟩, ← hc]
      rfl
    · rw [if_neg (fun hand => hc hand.2), find?_erase_of_not (by simp [hc]), h.findChild_eq]
  · rw [if_neg hd, if_neg (fun hand => hd hand.1)]

/-- An entry that is found under its name still is when another one has gone. -/
theorem names_unlink_other (h : Forest v) {q : EntryId} (hx : x ∈ (v.entry q).children)
    (he : v.findChild p (v.entry e).name = some e) (hne : x ≠ e) :
    (v.unlink q x).names p (v.entry e).name = (v.entry e).vnode := by
  have hfind : (v.unlink q x).findChild p (v.entry e).name = some e := by
    rw [h.findChild_unlink hx]
    split_ifs with hpq
    · rw [h.findChild_eq, hpq] at he
      exact find?_erase_of_ne hne he
    · exact he
  rw [Vfs.names, hfind]
  exact (v.unlink_fields q x e).1

end Forest

/-- A lookup that ends at something that exists has changed nothing, and has found it under its
    name, if it is not the root. -/
theorem Found.of_vnode {v w : Vfs} {e : EntryId} (hv : Forest v) (h : Found v e w)
    (he : (w.entry e).vnode ≠ none) :
    w = v ∧ (e = v.root ∨ ∃ p, v.findChild p (v.entry e).name = some e) := by
  rw [h.vnode] at he
  cases h with
  | null => exact absurd (by rw [hv.null]; rfl) he
  | root => exact ⟨rfl, .inl rfl⟩
  | child dir hfind => exact ⟨rfl, .inr ⟨_, (Vfs.mem_of_findChild hfind).2.symm ▸ hfind⟩⟩
  | nullMissing dir hfind => exact absurd (by rw [hv.null]; rfl) he
  | missing dir hfind => exact absurd (by rw [Vfs.entry_of_le (Nat.le_refl _)]; rfl) he

/-! ## The root -/

namespace Vfs

variable {v : Vfs} {p e x : EntryId} {n : VNodeId}

theorem newChild_vnode (y : Entry) (hx : x < v.entries.length) :
    (((v.alloc y).2.addChild e v.entries.length).entry x).vnode = (v.entry x).vnode := by
  rw [entry_addChild, alloc_entry, if_neg (Nat.ne_of_lt hx)]

theorem place_vnode (hx : x < v.entries.length) :
    ((v.place p e n).entry x).vnode = if x = e then some n else (v.entry x).vnode := by
  have hlen : x < ((v.setNode e (some n)).addMissing p e).entries.length := by
    rw [addMissing_length]
    simpa [setNode] using hx
  have hset : (((v.setNode e (some n)).addMissing p e).entry x).vnode =
      if x = e then some n else (v.entry x).vnode := by
    rw [addMissing_vnode, setNode_entry]
    by_cases hxe : x = e
    · rw [if_pos ⟨hxe, hxe ▸ hx⟩, if_pos hxe]
    · rw [if_neg (fun h => hxe h.1), if_neg hxe]
  rw [← hset]
  unfold place enter
  simp only
  by_cases hdir : Option.map (fun y => y.nodeType) (((v.setNode e (some n)).addMissing p e).node e) =
      some .directory
  · rw [if_pos hdir]
    unfold addDots
    refine (newChild_vnode _ ?_).trans (newChild_vnode _ hlen)
    simp only [addChild, updateEntry_length, List.length_append]
    exact Nat.lt_succ_of_lt hlen
  · rw [if_neg hdir]

theorem place_root : (v.place p e n).root = v.root ∧ (v.place p e n).nodes = v.nodes := by
  have hset : ((v.setNode e (some n)).addMissing p e).root = v.root ∧
      ((v.setNode e (some n)).addMissing p e).nodes = v.nodes := by
    unfold addMissing
    split <;> exact ⟨rfl, rfl⟩
  unfold place enter
  simp only
  split_ifs
  · exact hset
  · exact hset

end Vfs

/-- The root is a directory. -/
def Rooted (v : Vfs) : Prop := v.typeOf v.root = some .directory

namespace Rooted

variable {v w u : Vfs} {e p : EntryId} {n : VNodeId}

/-- A node keeps its type, and the root its node. -/
theorem keep (h : Rooted v) (hroot : w.root = v.root)
    (hvnode : (w.entry v.root).vnode = (v.entry v.root).vnode)
    (hnodes : ∀ (n : ℕ) (x : VNode), v.nodes[n]? = some x →
      ∃ y, w.nodes[n]? = some y ∧ y.nodeType = x.nodeType) : Rooted w := by
  unfold Rooted Vfs.typeOf Vfs.node at h ⊢
  rw [hroot, hvnode]
  obtain ⟨x, hx, htype⟩ := Option.map_eq_some_iff.mp h
  obtain ⟨n, hn, hx⟩ := Option.bind_eq_some_iff.mp hx
  obtain ⟨y, hy, hsame⟩ := hnodes n x hx
  simp [hn, hy, hsame, htype]

theorem pushNode (h : Rooted v) (y : VNode) : Rooted (v.pushNode y) := by
  refine h.keep rfl rfl fun n x hx => ⟨x, ?_, rfl⟩
  rw [Vfs.pushNode, List.getElem?_append_left (List.getElem?_eq_some_iff.mp hx).1]
  exact hx

theorem setData (h : Rooted v) (n : VNodeId) (data : List CChar) : Rooted (v.setData n data) := by
  refine h.keep rfl rfl fun m x hx => ?_
  simp only [Vfs.setData, List.getElem?_modify, hx]
  split_ifs
  · exact ⟨_, rfl, rfl⟩
  · exact ⟨_, rfl, rfl⟩

theorem place (h : Rooted v) (hv : Forest v) (hp : (v.entry e).parent = some p) :
    Rooted (v.place p e n) := by
  refine h.keep Vfs.place_root.1 ?_ fun m x hx => ⟨x, by rw [Vfs.place_root.2]; exact hx, rfl⟩
  rw [Vfs.place_vnode (Vfs.lt_of_vnode hv.root_node), if_neg]
  intro he
  rw [← he, hv.root_parent] at hp
  cases hp

theorem keptByChanges : KeptByChanges Rooted where
  negative _ h _ _ := h.keep rfl (Vfs.negative_vnode _) fun _ x hx => ⟨x, hx, rfl⟩
  pushNode h y := h.pushNode y
  setData h n data := h.setData n data
  place hv h hp _ := h.place hv hp
  unlink _ h _ := h.keep rfl (Vfs.unlink_fields _ _ _ _).1 fun _ x hx => ⟨x, hx, rfl⟩

end Rooted

theorem root_directory {t : Tree} (h : Run Tree.step (fun _ _ => True) Tree.booted t) :
    Forest t.vfs ∧ Rooted t.vfs := Rooted.keptByChanges.run (by unfold Rooted; decide) h

/-! ## `unlinkat` -/

theorem Forest.typeOf_null {v : Vfs} (h : Forest v) : v.typeOf v.nullEntry = none := by
  simp [Vfs.typeOf, Vfs.node, h.null, Entry.construct]

/-- **Main theorem.** In every run, a call that succeeds on a path whose last component exists has
    removed the name that component stands for, and no other, if and only if it is no symlink and
    no second entry has its name. -/
theorem unlinkat_removes_iff {t t' : Tree} (ht : Run Tree.step (fun _ _ => True) Tree.booted t)
    {a : PathArg} {removeDir : Bool} {e : EntryId} {w : Vfs}
    (hlast : a.lookup t.vfs false = .ok (e, w)) (hexists : (w.entry e).vnode ≠ none)
    (hcomponent : e ≠ t.vfs.root) (hcall : t.unlinkat a removeDir = .ok (.ok (), t')) :
    RemovesOnly t.vfs e t'.vfs ↔ t.vfs.typeOf e ≠ some .symlink ∧ ¬t.vfs.Doubled e := by
  obtain ⟨hv, hroot⟩ := root_directory ht
  obtain ⟨rfl, hr | ⟨p, hfind⟩⟩ := (pathToEntry_found hv hlast).of_vnode hv hexists
  · exact absurd hr hcomponent
  have hmem := (Vfs.mem_of_findChild hfind).1
  have hparent := hv.parent_of hmem
  obtain ⟨x, u, hlook, ⟨errno, hr, -⟩ | ⟨-, -, hremove⟩⟩ := Tree.unlinkat_cases hcall
  · cases hr
  have hplain : t.vfs.typeOf x ≠ some .symlink :=
    pathToEntry_plain (by rw [hv.typeOf_null]; simp) (by rw [hroot]; simp) hlook
  obtain ⟨hx, hcases⟩ := Tree.remove_cases hremove
  obtain ⟨rfl, -⟩ := (pathToEntry_found hv hlook).of_vnode hv hx
  by_cases hsym : t.vfs.typeOf e = some .symlink
  · -- another entry went, so the link is there still
    refine iff_of_false ?_ (fun hnot => hnot.1 hsym)
    intro honly
    have hne : x ≠ e := by
      intro hxe
      exact hplain (hxe ▸ hsym)
    have hgone := honly.names p (t.vfs.entry e).name
    rw [if_pos ⟨hparent, rfl⟩] at hgone
    have hthere : t'.vfs.names p (t.vfs.entry e).name = (t.vfs.entry e).vnode := by
      obtain ⟨q, -, hq, rfl⟩ | ⟨-, rfl⟩ := hcases
      · exact hv.names_unlink_other hq hfind hne
      · show t.vfs.names p _ = _
        rw [Vfs.names, hfind]
        rfl
    exact hexists (hthere.symm.trans hgone)
  · obtain rfl : x = e := by
      obtain hsame | ⟨y, hy, hlink⟩ := pathToEntry_follow t.vfs a.calls a.path a.start
      · exact (pure_pair (hlook.symm.trans (hsame.trans hlast))).1
      · obtain ⟨rfl, -⟩ := pure_pair (hy.symm.trans hlast)
        exact absurd hlink hsym
    obtain ⟨q, hq, -, rfl⟩ | ⟨hq, -⟩ := hcases
    · obtain rfl : p = q := Option.some.inj (hparent.symm.trans hq)
      have hnames := hv.names_unlink hfind
      constructor
      · intro honly
        refine ⟨hsym, ?_⟩
        rintro ⟨p', y, hp', hy, hlive⟩
        obtain rfl : p = p' := Option.some.inj (hparent.symm.trans hp')
        have hgone := honly.names p (t.vfs.entry x).name
        rw [if_pos ⟨hparent, rfl⟩, hnames, if_pos ⟨rfl, rfl⟩, hy] at hgone
        exact hlive hgone
      · rintro ⟨-, hsingle⟩
        refine ⟨?_, rfl⟩
        intro d c
        rw [hnames]
        by_cases hdc : d = p ∧ (t.vfs.entry x).name = c
        · rw [if_pos hdc, if_pos ⟨hdc.1 ▸ hparent, hdc.2⟩]
          cases hy : t.vfs.next p x with
          | none => rfl
          | some y =>
            by_contra hlive
            exact hsingle ⟨p, y, hparent, hy, hlive⟩
        · rw [if_neg hdc, if_neg]
          rintro ⟨hd, hc⟩
          exact hdc ⟨Option.some.inj (hd.symm.trans hparent), hc⟩
    · rw [hparent] at hq
      cases hq

/-- `open("/f", O_CREAT)`, then `unlink("/f")`. -/
theorem unlinkat_removes_file : ∃ t, Run Tree.step (fun _ _ => True) Tree.booted t ∧
    ∃ t', t.unlinkat (absolute "/f") false = .ok (.ok (), t') ∧ RemovesOnly t.vfs 4 t'.vfs := by
  obtain ⟨t, ht, hall⟩ := exists_ok_of_map (show ([.openat (absolute "/f") { creat := true }].foldlM
    Tree.step Tree.booted).map (fun t => decide (
      ((absolute "/f").lookup t.vfs false).map (fun r => (r.1, (r.2.entry r.1).vnode)) = .ok (4, some 1) ∧
      4 ≠ t.vfs.root ∧ (t.unlinkat (absolute "/f") false).map (·.1) = .ok (.ok ()) ∧
      t.vfs.typeOf 4 ≠ some .symlink ∧ (t.vfs.entry 4).parent = some 0 ∧ t.vfs.next 0 4 = none)) =
        .ok true by rfl)
  obtain ⟨hlast, hroot, hcall, hsym, hparent, hnext⟩ := of_decide_eq_true hall
  have hrun : Run Tree.step (fun _ _ => True) Tree.booted t :=
    Run.start.foldlM (fun _ _ _ => trivial) ht
  obtain ⟨⟨e, w⟩, hlast, hew⟩ := exists_ok_of_map hlast
  obtain ⟨rfl, hvnode⟩ := Prod.mk.inj hew
  obtain ⟨⟨r, t'⟩, hcall, rfl⟩ := exists_ok_of_map hcall
  refine ⟨t, hrun, t', hcall, (unlinkat_removes_iff hrun hlast ?_ hroot hcall).mpr ⟨hsym, ?_⟩⟩
  · simp [hvnode]
  · rintro ⟨p, y, hp, hy, -⟩
    obtain rfl : 0 = p := Option.some.inj (hparent.symm.trans hp)
    rw [hnext] at hy
    cases hy

/-- The path of a link that is followed once. -/
def linkPath : PathArg := { absolute "/l" with calls := 2 }

/-- `open("/f", O_CREAT)`, `symlink("/f", "/l")`, `unlink("/l")`: the call succeeds, `/l` is there
    still and `/f` is not. -/
theorem unlink_removes_target : ∃ t, Run Tree.step (fun _ _ => True) Tree.booted t ∧
    ∃ e w t', linkPath.lookup t.vfs false = .ok (e, w) ∧ (w.entry e).vnode ≠ none ∧
      e ≠ t.vfs.root ∧ t.unlinkat linkPath false = .ok (.ok (), t') ∧
      t.vfs.names 0 (chars "f") = some 1 ∧ t'.vfs.names 0 (chars "f") = none ∧
      t'.vfs.names 0 (chars "l") = some 2 ∧ ¬RemovesOnly t.vfs e t'.vfs := by
  obtain ⟨t, ht, hall⟩ := exists_ok_of_map (show ([.openat (absolute "/f") { creat := true },
    .symlinkat (cliteral "/f") (absolute "/l")].foldlM Tree.step Tree.booted).map (fun t => decide (
      (linkPath.lookup t.vfs false).map (fun r => (r.1, (r.2.entry r.1).vnode)) = .ok (5, some 2) ∧
      5 ≠ t.vfs.root ∧ (t.unlinkat linkPath false).map (fun r => (r.1,
        r.2.vfs.names 0 (chars "f"), r.2.vfs.names 0 (chars "l"))) = .ok (.ok (), none, some 2) ∧
      t.vfs.names 0 (chars "f") = some 1 ∧ (t.vfs.entry 5).parent = some 0 ∧
      (t.vfs.entry 5).name = chars "l")) = .ok true by decide +kernel)
  obtain ⟨hlast, hroot, hcall, hf, hparent, hname⟩ := of_decide_eq_true hall
  obtain ⟨⟨e, w⟩, hlast, hew⟩ := exists_ok_of_map hlast
  obtain ⟨rfl, hvnode⟩ := Prod.mk.inj hew
  obtain ⟨⟨r, t'⟩, hcall, hout⟩ := exists_ok_of_map hcall
  simp only [Prod.mk.injEq] at hout
  obtain ⟨rfl, hgone, hlink⟩ := hout
  refine ⟨t, Run.start.foldlM (fun _ _ _ => trivial) ht, 5, w, t', hlast, by simp [hvnode], hroot, hcall,
    hf, hgone, hlink, ?_⟩
  intro honly
  have := honly.names 0 (chars "l")
  rw [hlink, if_pos ⟨hparent, hname⟩] at this
  cases this

end Fishix.Fs
