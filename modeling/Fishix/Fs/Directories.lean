import Fishix.Fs.NullEntry

/-!
# The directory tree

In every directory the names are unique, `.` and `..` lead where they should, and every directory
but the root has one name. `create` puts `.` and `..` into an entry whose node is a directory,
whatever it has already; `renameat_impl` and `linkat_impl` call it for entries that have them, and
for a second name of a directory; and `remove` takes any entry. `Tidy` keeps the calls from this.

`Dirs` is the invariant, which allows for what `rename` does half way: a directory without `.` and
`..`, and one with two names.

* `Dirs.negative`, `Dirs.place`, `Dirs.unlink`: what lookups, creations and removals keep.
* `TakesOver`: a rename between its removals.
* `Dirs.step`: one call.
* `directories_wellFormed`: every run.
* `rename_onto_directory`: names that are there twice.
-/

namespace Fishix.Fs

/-- The names of the entries that are redirected. -/
def dotNames : List Name := [chars ".", chars ".."]

namespace Vfs

/-- The entry is in the list of some directory. -/
def Listed (v : Vfs) (e : EntryId) : Prop := ∃ p, e ∈ (v.entry p).children

/-- The entry is a name of the node, and not `.` or `..`. -/
def Named (v : Vfs) (e : EntryId) (n : VNodeId) : Prop :=
  v.Listed e ∧ (v.entry e).redirect = none ∧ (v.entry e).vnode = some n

/-- A directory other than the root. -/
def Subdirectory (v : Vfs) (n : VNodeId) : Prop :=
  (v.nodes[n]?).map (·.nodeType) = some .directory ∧ (v.entry v.root).vnode ≠ some n

theorem typeOf_of_vnode {v : Vfs} {e : EntryId} {n : VNodeId} (h : (v.entry e).vnode = some n) :
    v.typeOf e = (v.nodes[n]?).map (·.nodeType) := by
  simp [typeOf, node, h]

end Vfs

section

variable {v : Vfs} {d : EntryId} {c : Name}

theorem negative_redirect (hd : d < v.entries.length) (x : EntryId) :
    ((v.negative d c).entry x).redirect = (v.entry x).redirect := by
  rw [Vfs.negative_entry hd]
  split_ifs with hx hx'
  · rw [hx]
  · rw [hx', Vfs.entry_of_le (Nat.le_refl _)]
    rfl
  · rfl

theorem negative_children (hd : d < v.entries.length) (x : EntryId) :
    ((v.negative d c).entry x).children =
      if x = d then v.entries.length :: (v.entry d).children else (v.entry x).children := by
  rw [Vfs.negative_entry hd]
  split_ifs with hx hx'
  · rfl
  · rw [hx', Vfs.entry_of_le (Nat.le_refl _)]
    rfl
  · rfl

theorem negative_isDir (hd : (v.entry d).vnode ≠ none) (x : EntryId) :
    (v.negative d c).IsDir x ↔ v.IsDir x := by
  have hsame := Vfs.sameTree_negative (c := c) hd
  unfold Vfs.IsDir
  rw [negative_redirect (Vfs.lt_of_vnode hd)]
  simp only [Vfs.typeOf, Vfs.node, hsame.vnode, hsame.nodes]

end

/-- The tree of directories, with a directory `bare` that has no `.` and `..` yet and an entry
    `moved` that is about to lose its name. -/
structure Dirs (v : Vfs) (moved bare : Option EntryId) : Prop where
  unique : ∀ d, ((v.entry d).children.map fun e => (v.entry e).name).Nodup
  dot : ∀ d, v.IsDir d → bare ≠ some d → ∃ e ∈ (v.entry d).children,
    (v.entry e).name = chars "." ∧ (v.entry e).redirect = some d ∧ (v.entry e).vnode = (v.entry d).vnode
  dotdot : ∀ d, v.IsDir d → bare ≠ some d → ∃ e ∈ (v.entry d).children,
    (v.entry e).name = chars ".." ∧ (v.entry e).redirect = some (v.parentOf d) ∧
      v.typeOf e = some .directory
  redirected : ∀ {d e}, e ∈ (v.entry d).children → (v.entry e).redirect ≠ none →
    (v.entry e).name ∈ dotNames
  single : ∀ {n e e'}, v.Subdirectory n → v.Named e n → v.Named e' n → moved ≠ some e →
    moved ≠ some e' → e = e'
  root : v.typeOf v.root = some .directory

namespace Dirs

variable {v v' : Vfs} {moved bare : Option EntryId} {d e p x : EntryId} {c : Name} {n : VNodeId}

section

variable (h : Dirs v moved bare) (hv : Forest v)

include h hv

/-- The same entries, with nodes of the same types. -/
theorem sameEntries (hent : v'.entries = v.entries) (hroot : v'.root = v.root)
    (htype : ∀ n < v.nodes.length, (v'.nodes[n]?).map (·.nodeType) = (v.nodes[n]?).map (·.nodeType))
    : Dirs v' moved bare := by
  have he : ∀ x, v'.entry x = v.entry x := by
    intro x
    unfold Vfs.entry
    rw [hent]
  have ht : ∀ x, v'.typeOf x = v.typeOf x := by
    intro x
    cases hn : (v.entry x).vnode with
    | none => simp [Vfs.typeOf, Vfs.node, he, hn]
    | some n =>
      rw [Vfs.typeOf_of_vnode hn, Vfs.typeOf_of_vnode ((he x).symm ▸ hn)]
      exact htype n (hv.vnode_lt hn)
  have hdir : ∀ d, v'.IsDir d ↔ v.IsDir d := by
    intro d
    unfold Vfs.IsDir
    rw [ht, he]
  refine ⟨?_, ?_, ?_, ?_, ?_, ?_⟩
  · intro d
    simp only [he]
    exact h.unique d
  · intro d hd hb
    simp only [he]
    exact h.dot d ((hdir d).mp hd) hb
  · intro d hd hb
    simp only [he, ht, Vfs.parentOf]
    exact h.dotdot d ((hdir d).mp hd) hb
  · intro d e
    simp only [he]
    exact h.redirected
  · intro n e e' hn hnamed hnamed'
    simp only [Vfs.Named, Vfs.Listed, he] at hnamed hnamed'
    refine h.single ⟨?_, ?_⟩ hnamed hnamed'
    · rw [← htype n (hv.vnode_lt hnamed.2.2)]
      exact hn.1
    · have := hn.2
      rw [he, hroot] at this
      exact this
  · rw [ht, hroot]
    exact h.root

theorem pushNode (y : VNode) : Dirs (v.pushNode y) moved bare := by
  refine h.sameEntries hv rfl rfl ?_
  intro n hn
  rw [Vfs.pushNode, List.getElem?_append_left hn]

theorem setData (n : VNodeId) (data : List CChar) : Dirs (v.setData n data) moved bare := by
  refine h.sameEntries hv rfl rfl ?_
  intro m _
  rw [Vfs.setData, List.getElem?_modify]
  split_ifs <;> cases v.nodes[m]? <;> rfl

/-- A lookup of a name that is not there. -/
theorem negative (hd : v.IsDir d) (hc : v.findChild d c = none) :
    Dirs (v.negative d c) moved bare := by
  have hlt := Vfs.lt_of_vnode hd.vnode
  have hsame := Vfs.sameTree_negative (c := c) hd.vnode
  have hnew := Vfs.negative_entry (c := c) (x := v.entries.length) hlt
  rw [if_neg (Nat.ne_of_gt hlt), if_pos rfl] at hnew
  have hred := negative_redirect (c := c) hlt
  have hch := negative_children (c := c) hlt
  have hdir := negative_isDir (c := c) hd.vnode
  have htype : ∀ x, (v.negative d c).typeOf x = v.typeOf x := by
    intro x
    simp only [Vfs.typeOf, Vfs.node, hsame.vnode, hsame.nodes]
  have hkeep : ∀ x y, y ∈ (v.entry x).children → y ∈ ((v.negative d c).entry x).children := by
    intro x y hy
    rw [hch]
    split_ifs with hx
    · exact List.mem_cons_of_mem _ (hx ▸ hy)
    · exact hy
  have hlisted : ∀ x y, y ∈ ((v.negative d c).entry x).children →
      y = v.entries.length ∨ y ∈ (v.entry x).children := by
    intro x y hy
    rw [hch] at hy
    split_ifs at hy with hx
    · rcases List.mem_cons.mp hy with hy | hy
      · exact .inl hy
      · exact .inr (hx ▸ hy)
    · exact .inr hy
  refine ⟨?_, ?_, ?_, ?_, ?_, ?_⟩
  · intro x
    have hnames : ∀ y, (v.entry y).children.map (fun e => ((v.negative d c).entry e).name) =
        (v.entry y).children.map fun e => (v.entry e).name := by
      intro y
      refine List.map_congr_left ?_
      intro e he
      exact hsame.name e (hv.listed_lt he)
    rw [hch]
    split_ifs with hx
    · rw [List.map_cons, hnames, List.nodup_cons]
      refine ⟨?_, h.unique d⟩
      rw [hnew]
      intro hmem
      obtain ⟨e, he, hname⟩ := List.mem_map.mp hmem
      exact (Vfs.findChild_eq_none hv.hash).mp hc e he hname
    · rw [hnames]
      exact h.unique x
  · intro x hx hb
    obtain ⟨e, he, hname, hr, hn⟩ := h.dot x ((hdir x).mp hx) hb
    refine ⟨e, hkeep x e he, ?_, ?_, ?_⟩
    · rw [hsame.name e (hv.listed_lt he), hname]
    · rw [hred, hr]
    · rw [hsame.vnode, hsame.vnode, hn]
  · intro x hx hb
    have hxlt := Vfs.lt_of_vnode ((hdir x).mp hx).vnode
    obtain ⟨e, he, hname, hr, ht⟩ := h.dotdot x ((hdir x).mp hx) hb
    refine ⟨e, hkeep x e he, ?_, ?_, ?_⟩
    · rw [hsame.name e (hv.listed_lt he), hname]
    · rw [hred, hr, Vfs.parentOf, Vfs.parentOf, hsame.parent x hxlt]
    · rw [htype, ht]
  · intro x e he hr
    rw [hred] at hr
    rcases hlisted x e he with rfl | he
    · exact absurd (by rw [Vfs.entry_of_le (Nat.le_refl _)]; rfl) hr
    · rw [hsame.name e (hv.listed_lt he)]
      exact h.redirected he hr
  · intro n e e' hn hnamed hnamed'
    have hold : ∀ x, (v.negative d c).Named x n → v.Named x n := by
      rintro x ⟨⟨y, hy⟩, hr, hvn⟩
      rw [hred] at hr
      rw [hsame.vnode] at hvn
      rcases hlisted y x hy with rfl | hy
      · rw [Vfs.entry_of_le (Nat.le_refl _)] at hvn
        cases hvn
      · exact ⟨⟨y, hy⟩, hr, hvn⟩
    refine h.single ⟨hn.1, ?_⟩ (hold e hnamed) (hold e' hnamed')
    rw [← hsame.vnode]
    exact hn.2
  · rw [htype]
    exact h.root

/-- Only the lists change, and they only lose entries. -/
theorem unlink (he : e ∈ (v.entry p).children) (hname : (v.entry e).name ∉ dotNames) :
    Dirs (v.unlink p e) moved bare := by
  have hp := (hv.lt_of_listed he).1
  have hfields := v.unlink_fields p e
  have hch : ∀ x, ((v.unlink p e).entry x).children =
      if x = p then (v.entry p).children.erase e else (v.entry x).children := by
    intro x
    rw [Vfs.unlink_entry]
    by_cases hx : x = p
    · rw [if_pos ⟨hx, hp⟩, if_pos hx]
    · rw [if_neg (fun h => hx h.1), if_neg hx]
  have htype : ∀ x, (v.unlink p e).typeOf x = v.typeOf x := by
    intro x
    simp only [Vfs.typeOf, Vfs.node, (hfields x).1]
    rfl
  have hdir : ∀ x, (v.unlink p e).IsDir x ↔ v.IsDir x := by
    intro x
    unfold Vfs.IsDir
    rw [htype, (hfields x).2.1]
  have hlisted : ∀ x y, y ∈ ((v.unlink p e).entry x).children → y ∈ (v.entry x).children := by
    intro x y hy
    rw [hch] at hy
    split_ifs at hy with hx
    · rw [hx]
      exact List.mem_of_mem_erase hy
    · exact hy
  -- `.` and `..` have other names than the entry that goes
  have hkeep : ∀ x y, y ∈ (v.entry x).children → (v.entry y).name ∈ dotNames →
      y ∈ ((v.unlink p e).entry x).children := by
    intro x y hy hdots
    rw [hch]
    split_ifs with hx
    · refine (List.mem_erase_of_ne ?_).mpr (hx ▸ hy)
      rintro rfl
      exact hname hdots
    · exact hy
  refine ⟨?_, ?_, ?_, ?_, ?_, ?_⟩
  · intro x
    have hnames : ((v.unlink p e).entry x).children.map (fun e' => ((v.unlink p e).entry e').name) =
        ((v.unlink p e).entry x).children.map fun e' => (v.entry e').name :=
      List.map_congr_left fun y _ => (hfields y).2.2.1
    rw [hnames, hch]
    split_ifs with hx
    · exact (h.unique p).sublist (List.erase_sublist.map _)
    · exact h.unique x
  · intro x hx hb
    obtain ⟨y, hy, hyname, hr, hn⟩ := h.dot x ((hdir x).mp hx) hb
    refine ⟨y, hkeep x y hy (by simp [hyname, dotNames]), ?_, ?_, ?_⟩
    · rw [(hfields y).2.2.1, hyname]
    · rw [(hfields y).2.1, hr]
    · rw [(hfields y).1, (hfields x).1, hn]
  · intro x hx hb
    obtain ⟨y, hy, hyname, hr, ht⟩ := h.dotdot x ((hdir x).mp hx) hb
    refine ⟨y, hkeep x y hy (by simp [hyname, dotNames]), ?_, ?_, ?_⟩
    · rw [(hfields y).2.2.1, hyname]
    · rw [(hfields y).2.1, hr, Vfs.parentOf, Vfs.parentOf, (hfields x).2.2.2]
    · rw [htype, ht]
  · intro x y hy hr
    rw [(hfields y).2.1] at hr
    rw [(hfields y).2.2.1]
    exact h.redirected (hlisted x y hy) hr
  · intro m y y' hm hnamed hnamed'
    have hold : ∀ z, (v.unlink p e).Named z m → v.Named z m := by
      rintro z ⟨⟨x, hx⟩, hr, hvn⟩
      rw [(hfields z).2.1] at hr
      rw [(hfields z).1] at hvn
      exact ⟨⟨x, hlisted x z hx⟩, hr, hvn⟩
    refine h.single ⟨hm.1, ?_⟩ (hold y hnamed) (hold y' hnamed')
    rw [← (hfields v.root).1]
    exact hm.2
  · rw [show (v.unlink p e).root = v.root from rfl, htype]
    exact h.root

end

/-- The entry that was to lose its name has lost it. -/
theorem settle (h : Dirs v (some e) bare) (hlost : ¬v.Listed e) : Dirs v none bare := by
  refine ⟨h.unique, h.dot, h.dotdot, h.redirected, ?_, h.root⟩
  intro n x x' hn hx hx' _ _
  refine h.single hn hx hx' ?_ ?_
  · intro he
    exact hlost (Option.some.inj he ▸ hx.1)
  · intro he
    exact hlost (Option.some.inj he ▸ hx'.1)

theorem allow (h : Dirs v none bare) (moved : Option EntryId) : Dirs v moved bare :=
  ⟨h.unique, h.dot, h.dotdot, h.redirected, fun hn hx hx' _ _ => h.single hn hx hx' (by simp) (by simp),
    h.root⟩

end Dirs

/-- The list of `p` with `e` in it: as it was, or with `e` put first. -/
def WithChild (v : Vfs) (p e : EntryId) (l : List EntryId) : Prop :=
  (l = (v.entry p).children ∧ e ∈ (v.entry p).children) ∨
    (l = e :: (v.entry p).children ∧ ∀ x ∈ (v.entry p).children, (v.entry x).name ≠ (v.entry e).name)

/-- Where no other child has the name, `e` gets the node and is a child. -/
theorem setNode_addMissing {v : Vfs} (hv : Forest v) {p e : EntryId} {n : VNodeId}
    (hp : (v.entry e).parent = some p)
    (hfree : e ∈ (v.entry p).children ∨ ∀ x ∈ (v.entry p).children, (v.entry x).name ≠ (v.entry e).name) :
    ∃ l, WithChild v p e l ∧ ∀ x, ((v.setNode e (some n)).addMissing p e).entry x =
      if x = e then { v.entry e with vnode := some n }
      else if x = p then { v.entry p with children := l } else v.entry x := by
  have hlt : e < v.entries.length := Vfs.lt_of_parent (by simp [hp])
  have hplt : p < v.entries.length := Vfs.lt_of_vnode (hv.parent_node hp)
  have hpe : p ≠ e := Nat.ne_of_lt (hv.parent_lt hp)
  have hset : ∀ x, (v.setNode e (some n)).entry x =
      if x = e then { v.entry e with vnode := some n } else v.entry x := by
    intro x
    rw [Vfs.setNode_entry]
    by_cases hx : x = e
    · rw [if_pos ⟨hx, hlt⟩, if_pos hx]
    · rw [if_neg (fun h => hx h.1), if_neg hx]
  have hpset : (v.setNode e (some n)).entry p = v.entry p := by rw [hset, if_neg hpe]
  have hnames : ∀ x, ((v.setNode e (some n)).entry x).name = (v.entry x).name := by
    intro x
    rw [hset]
    split_ifs with hx
    · rw [hx]
    · rfl
  have hhash : ∀ x, ((v.setNode e (some n)).entry x).nameHash =
      Fishix.hash ((v.setNode e (some n)).entry x).name := by
    intro x
    rw [hnames, ← hv.hash x, hset]
    split_ifs with hx
    · rw [hx]
    · rfl
  have hnone := Vfs.findChild_eq_none (d := p) (c := ((v.setNode e (some n)).entry e).name) hhash
  rw [hpset] at hnone
  unfold Vfs.addMissing
  cases hfind : (v.setNode e (some n)).findChild p ((v.setNode e (some n)).entry e).name with
  | some y =>
    have hmem := Vfs.mem_of_findChild hfind
    rw [hpset, hnames, hnames] at hmem
    have he : e ∈ (v.entry p).children := by
      rcases hfree with he | hno
      · exact he
      · exact absurd hmem.2 (hno y hmem.1)
    refine ⟨(v.entry p).children, .inl ⟨rfl, he⟩, ?_⟩
    intro x
    simp only
    rw [hset]
    split_ifs with hx hx'
    · rfl
    · rw [hx']
    · rfl
  | none =>
    have hno := hnone.mp hfind
    simp only [hnames] at hno
    refine ⟨e :: (v.entry p).children, .inr ⟨rfl, hno⟩, ?_⟩
    intro x
    simp only
    rw [Vfs.addChild_entry, hpset, hset]
    have hlen : p < (v.setNode e (some n)).entries.length := by simpa [Vfs.setNode] using hplt
    by_cases hx : x = p
    · rw [if_pos ⟨hx, hlen⟩, if_neg (hx ▸ hpe), if_pos hx]
    · rw [if_neg (fun h => hx h.1)]
      split_ifs <;> rfl

namespace Dirs

variable {v v' : Vfs} {moved bare : Option EntryId} {d e p x : EntryId} {c : Name} {n : VNodeId}

theorem relist (h : Dirs v moved none) (hv : Forest v) (hp : (v.entry e).parent = some p)
    (hfree : e ∈ (v.entry p).children ∨ ∀ x ∈ (v.entry p).children, (v.entry x).name ≠ (v.entry e).name)
    (hred : (v.entry e).redirect = none) (hname : (v.entry e).name ∉ dotNames)
    (hsingle : v.Subdirectory n → ∀ x, v.Named x n → x ≠ e → moved = some x) :
    Dirs ((v.setNode e (some n)).addMissing p e) moved (some e) := by
  obtain ⟨l, hl, hent⟩ := setNode_addMissing (n := n) hv hp hfree
  generalize hw : (v.setNode e (some n)).addMissing p e = w at hent ⊢
  have hnodes : w.nodes = v.nodes := by
    rw [← hw, Vfs.addMissing_nodes]
    rfl
  have hrootEq : w.root = v.root := by
    rw [← hw]
    unfold Vfs.addMissing
    split <;> rfl
  have hpe : p ≠ e := Nat.ne_of_lt (hv.parent_lt hp)
  have hroot : v.root ≠ e := by
    rintro rfl
    rw [hv.root_parent] at hp
    cases hp
  have hfields : ∀ x, (w.entry x).redirect = (v.entry x).redirect ∧
      (w.entry x).name = (v.entry x).name ∧ (w.entry x).parent = (v.entry x).parent := by
    intro x
    rw [hent]
    split_ifs with hx hx'
    · rw [hx]
      exact ⟨rfl, rfl, rfl⟩
    · rw [hx']
      exact ⟨rfl, rfl, rfl⟩
    · exact ⟨rfl, rfl, rfl⟩
  have hvnode : ∀ x, (w.entry x).vnode = if x = e then some n else (v.entry x).vnode := by
    intro x
    rw [hent]
    split_ifs with hx hx'
    · rfl
    · rw [hx']
    · rfl
  have hch : ∀ x, (w.entry x).children = if x = p then l else (v.entry x).children := by
    intro x
    rw [hent]
    split_ifs with hx hx' hx'
    · exact absurd (hx'.symm.trans hx) hpe
    · rw [hx]
    · rfl
    · rfl
  have htype : ∀ x, x ≠ e → w.typeOf x = v.typeOf x := by
    intro x hx
    simp only [Vfs.typeOf, Vfs.node, hvnode, if_neg hx, hnodes]
  have hdir : ∀ x, x ≠ e → (w.IsDir x ↔ v.IsDir x) := by
    intro x hx
    unfold Vfs.IsDir
    rw [htype x hx, (hfields x).1]
  have hsub : (v.entry p).children ⊆ l := by
    rcases hl with ⟨rfl, -⟩ | ⟨rfl, -⟩
    · exact fun _ hy => hy
    · exact fun _ hy => List.mem_cons_of_mem _ hy
  have hkeep : ∀ x y, y ∈ (v.entry x).children → y ∈ (w.entry x).children := by
    intro x y hy
    rw [hch]
    split_ifs with hx
    · exact hsub (hx ▸ hy)
    · exact hy
  have hlisted : ∀ x y, y ∈ (w.entry x).children → y = e ∨ y ∈ (v.entry x).children := by
    intro x y hy
    rw [hch] at hy
    split_ifs at hy with hx
    · rcases hl with ⟨rfl, -⟩ | ⟨rfl, -⟩
      · exact .inr (hx ▸ hy)
      · rcases List.mem_cons.mp hy with hy | hy
        · exact .inl hy
        · exact .inr (hx ▸ hy)
    · exact .inr hy
  have hdots : ∀ y, (v.entry y).name ∈ dotNames → y ≠ e := by
    rintro y hy rfl
    exact hname hy
  refine ⟨?_, ?_, ?_, ?_, ?_, ?_⟩
  · intro x
    simp only [(hfields _).2.1, hch]
    split_ifs with hx
    · rcases hl with ⟨rfl, -⟩ | ⟨rfl, hno⟩
      · exact h.unique p
      · rw [List.map_cons, List.nodup_cons]
        refine ⟨?_, h.unique p⟩
        intro hmem
        obtain ⟨y, hy, hyname⟩ := List.mem_map.mp hmem
        exact hno y hy hyname
    · exact h.unique x
  · intro x hx hb
    have hxe : x ≠ e := fun he => hb (by rw [he])
    obtain ⟨y, hy, hyname, hr, hn⟩ := h.dot x ((hdir x hxe).mp hx) (by simp)
    have hye := hdots y (by simp [hyname, dotNames])
    refine ⟨y, hkeep x y hy, ?_, ?_, ?_⟩
    · rw [(hfields y).2.1, hyname]
    · rw [(hfields y).1, hr]
    · rw [hvnode, hvnode, if_neg hye, if_neg hxe, hn]
  · intro x hx hb
    have hxe : x ≠ e := fun he => hb (by rw [he])
    obtain ⟨y, hy, hyname, hr, ht⟩ := h.dotdot x ((hdir x hxe).mp hx) (by simp)
    have hye := hdots y (by simp [hyname, dotNames])
    refine ⟨y, hkeep x y hy, ?_, ?_, ?_⟩
    · rw [(hfields y).2.1, hyname]
    · rw [(hfields y).1, hr, Vfs.parentOf, Vfs.parentOf, (hfields x).2.2]
    · rw [htype y hye, ht]
  · intro x y hy hr
    rw [(hfields y).1] at hr
    rw [(hfields y).2.1]
    rcases hlisted x y hy with rfl | hy
    · exact absurd hred hr
    · exact h.redirected hy hr
  · intro m y y' hm hnamed hnamed' hmy hmy'
    have hm' : v.Subdirectory m := by
      refine ⟨hnodes ▸ hm.1, ?_⟩
      have hm2 := hm.2
      rw [hrootEq, hvnode, if_neg hroot] at hm2
      exact hm2
    have hold : ∀ z, w.Named z m → z ≠ e → v.Named z m := by
      rintro z ⟨⟨x, hx⟩, hr, hvn⟩ hze
      rw [(hfields z).1] at hr
      rw [hvnode, if_neg hze] at hvn
      exact ⟨⟨x, (hlisted x z hx).resolve_left hze⟩, hr, hvn⟩
    by_cases hmn : m = n
    · -- the node that was given: only `e` names it
      subst hmn
      have honly : ∀ z, w.Named z m → moved ≠ some z → z = e := by
        intro z hz hmz
        by_contra hze
        exact hmz (hsingle hm' z (hold z hz hze) hze)
      rw [honly y hnamed hmy, honly y' hnamed' hmy']
    · have hne : ∀ z, w.Named z m → z ≠ e := by
        rintro z hz rfl
        have := hz.2.2
        rw [hvnode, if_pos rfl] at this
        exact hmn (Option.some.inj this).symm
      exact h.single hm' (hold y hnamed (hne y hnamed)) (hold y' hnamed' (hne y' hnamed')) hmy hmy'
  · rw [hrootEq, htype v.root hroot]
    exact h.root

/-- A directory that is none needs no `.` and `..`. -/
theorem unbare (h : Dirs v moved (some e)) (he : ¬v.IsDir e) : Dirs v moved none := by
  refine ⟨h.unique, ?_, ?_, h.redirected, h.single, h.root⟩
  · intro d hd _
    exact h.dot d hd fun hde => he (Option.some.inj hde ▸ hd)
  · intro d hd _
    exact h.dotdot d hd fun hde => he (Option.some.inj hde ▸ hd)

end Dirs

theorem addDots_entry {v : Vfs} {p e x : EntryId} (hlt : e < v.entries.length)
    (hp : p < v.entries.length) (hpe : p ≠ e) : (v.addDots p e).entry x =
      if x = v.entries.length then
        Entry.construct (v.entry e).vnode (some e) (chars ".") (some e)
      else if x = v.entries.length + 1 then
        Entry.construct (v.entry p).vnode (some e) (chars "..") (some p)
      else if x = e then
        { v.entry e with
          children := (v.entries.length + 1) :: v.entries.length :: (v.entry e).children }
      else v.entry x := by
  let v1 := (v.alloc (Entry.construct (v.entry e).vnode (some e) (chars ".") (some e))).2
  let v2 := v1.addChild e v.entries.length
  have hlen1 : v1.entries.length = v.entries.length + 1 := by simp [v1, Vfs.alloc]
  have hlen2 : v2.entries.length = v.entries.length + 1 := by
    rw [← hlen1]
    exact Vfs.updateEntry_length _
  have h1 : ∀ x, v1.entry x = if x = v.entries.length then
      Entry.construct (v.entry e).vnode (some e) (chars ".") (some e) else v.entry x :=
    fun x => Vfs.alloc_entry _
  have h2 : ∀ x, v2.entry x = if x = e then
      { v.entry e with children := v.entries.length :: (v.entry e).children } else v1.entry x := by
    intro x
    show (v1.addChild e v.entries.length).entry x = _
    rw [Vfs.addChild_entry, h1 e, if_neg (Nat.ne_of_lt hlt)]
    by_cases hx : x = e
    · rw [if_pos ⟨hx, by rw [hlen1]; exact Nat.lt_succ_of_lt hlt⟩, if_pos hx]
    · rw [if_neg (fun h => hx h.1), if_neg hx]
  have hpv : v2.entry p = v.entry p := by
    rw [h2, if_neg hpe, h1, if_neg (Nat.ne_of_lt hp)]
  have h3 : ∀ x, ((v2.alloc (Entry.construct (v2.entry p).vnode (some e) (chars "..") (some p))).2).entry x =
      if x = v.entries.length + 1 then
        Entry.construct (v.entry p).vnode (some e) (chars "..") (some p) else v2.entry x := by
    intro x
    rw [Vfs.alloc_entry, hlen2, hpv]
  show ((v2.alloc (Entry.construct (v2.entry p).vnode (some e) (chars "..") (some p))).2.addChild e
    v2.entries.length).entry x = _
  have he : e ≠ v.entries.length + 1 := Nat.ne_of_lt (Nat.lt_succ_of_lt hlt)
  rw [Vfs.addChild_entry, h3 e, h3 x, if_neg he, hlen2, h2 e, if_pos rfl]
  have hlen3 : e < (v2.alloc (Entry.construct (v2.entry p).vnode (some e) (chars "..")
      (some p))).2.entries.length := by
    simp only [Vfs.alloc, List.length_append, hlen2]
    exact Nat.lt_succ_of_lt (Nat.lt_succ_of_lt hlt)
  by_cases hx : x = e
  · rw [if_pos ⟨hx, hlen3⟩, hx, if_neg (Nat.ne_of_lt hlt), if_neg he, if_pos rfl]
  · rw [if_neg (fun h => hx h.1), if_neg hx, h2, if_neg hx, h1]
    split_ifs with ha hb
    · exact absurd (ha.symm.trans hb) (Nat.succ_ne_self _)
    · rfl
    · rfl
    · rfl

namespace Dirs

variable {v v' : Vfs} {moved bare : Option EntryId} {d e p x : EntryId} {c : Name} {n : VNodeId}

/-- An empty directory gets its `.` and `..`. -/
theorem addDots (h : Dirs v moved (some e)) (hv : Forest v) (hp : (v.entry e).parent = some p)
    (hempty : (v.entry e).children = []) (hpdir : v.typeOf p = some .directory)
    (he : (v.entry e).vnode ≠ none) : Dirs (v.addDots p e) moved none := by
  have hlt : e < v.entries.length := Vfs.lt_of_vnode he
  have hplt : p < v.entries.length := Vfs.lt_of_vnode (hv.parent_node hp)
  have hpe : p ≠ e := Nat.ne_of_lt (hv.parent_lt hp)
  have hent : ∀ x, (v.addDots p e).entry x = _ := fun x => addDots_entry (x := x) hlt hplt hpe
  generalize hw : v.addDots p e = w at hent ⊢
  have hnodes : w.nodes = v.nodes := by rw [← hw]; rfl
  have hrootEq : w.root = v.root := by rw [← hw]; rfl
  have hdot := hent v.entries.length
  rw [if_pos rfl] at hdot
  have hdotdot := hent (v.entries.length + 1)
  rw [if_neg (Nat.succ_ne_self _), if_pos rfl] at hdotdot
  -- the entries that were there keep all but their list
  have hfields : ∀ x < v.entries.length, (w.entry x).redirect = (v.entry x).redirect ∧
      (w.entry x).name = (v.entry x).name ∧ (w.entry x).parent = (v.entry x).parent ∧
      (w.entry x).vnode = (v.entry x).vnode := by
    intro x hx
    rw [hent, if_neg (Nat.ne_of_lt hx), if_neg (Nat.ne_of_lt (Nat.lt_succ_of_lt hx))]
    split_ifs with hxe
    · rw [hxe]
      exact ⟨rfl, rfl, rfl, rfl⟩
    · exact ⟨rfl, rfl, rfl, rfl⟩
  have hch : ∀ x, (w.entry x).children =
      if x = e then [v.entries.length + 1, v.entries.length] else (v.entry x).children := by
    intro x
    rw [hent]
    by_cases hxe : x = e
    · have ha : x ≠ v.entries.length := hxe ▸ Nat.ne_of_lt hlt
      have hb : x ≠ v.entries.length + 1 := hxe ▸ Nat.ne_of_lt (Nat.lt_succ_of_lt hlt)
      rw [if_neg ha, if_neg hb, if_pos hxe, if_pos hxe, hempty]
    · rw [if_neg hxe, if_neg hxe]
      split_ifs with ha hb
      · rw [ha, Vfs.entry_of_le (Nat.le_refl _)]
        rfl
      · rw [hb, Vfs.entry_of_le (Nat.le_succ _)]
        rfl
      · rfl
  have htype : ∀ x < v.entries.length, w.typeOf x = v.typeOf x := by
    intro x hx
    simp only [Vfs.typeOf, Vfs.node, (hfields x hx).2.2.2, hnodes]
  -- the new entries are redirected, so no directories
  have hdir : ∀ x, w.IsDir x → x < v.entries.length ∧ v.IsDir x := by
    intro x hx
    have hxlt : x < v.entries.length := by
      by_contra hge
      have hxr := hx.2
      have hxn := hx.vnode
      rw [hent] at hxr hxn
      split_ifs at hxr hxn with ha hb hc
      · cases hxr
      · cases hxr
      · exact hge (hc ▸ hlt)
      · rw [Vfs.entry_of_le (Nat.le_of_not_lt hge)] at hxn
        exact hxn rfl
    refine ⟨hxlt, ?_, ?_⟩
    · rw [← htype x hxlt]
      exact hx.1
    · rw [← (hfields x hxlt).1]
      exact hx.2
  have hlisted : ∀ x y, y ∈ (w.entry x).children →
      (x = e ∧ (y = v.entries.length + 1 ∨ y = v.entries.length)) ∨ y ∈ (v.entry x).children := by
    intro x y hy
    rw [hch] at hy
    split_ifs at hy with hx
    · exact .inl ⟨hx, by simpa using hy⟩
    · exact .inr hy
  refine ⟨?_, ?_, ?_, ?_, ?_, ?_⟩
  · intro x
    rw [hch]
    split_ifs with hx
    · rw [List.map_cons, List.map_cons, List.map_nil, hdot, hdotdot]
      show [chars "..", chars "."].Nodup
      decide
    · have hnames : (v.entry x).children.map (fun y => (w.entry y).name) =
          (v.entry x).children.map fun y => (v.entry y).name :=
        List.map_congr_left fun y hy => (hfields y (hv.listed_lt hy)).2.1
      rw [hnames]
      exact h.unique x
  · intro x hx _
    obtain ⟨hxlt, hxdir⟩ := hdir x hx
    by_cases hxe : x = e
    · refine ⟨v.entries.length, ?_, ?_⟩
      · rw [hch, if_pos hxe]
        simp
      · rw [hdot, hxe, (hfields e hlt).2.2.2]
        exact ⟨rfl, rfl, rfl⟩
    · obtain ⟨y, hy, hyname, hr, hn⟩ := h.dot x hxdir fun hb => hxe (Option.some.inj hb).symm
      have hylt := hv.listed_lt hy
      refine ⟨y, ?_, ?_, ?_, ?_⟩
      · rw [hch, if_neg hxe]
        exact hy
      · rw [(hfields y hylt).2.1, hyname]
      · rw [(hfields y hylt).1, hr]
      · rw [(hfields y hylt).2.2.2, (hfields x hxlt).2.2.2, hn]
  · intro x hx _
    obtain ⟨hxlt, hxdir⟩ := hdir x hx
    by_cases hxe : x = e
    · refine ⟨v.entries.length + 1, ?_, ?_, ?_, ?_⟩
      · rw [hch, if_pos hxe]
        simp
      · rw [hdotdot]
        rfl
      · rw [hdotdot, Vfs.parentOf, hxe, (hfields e hlt).2.2.1, hp]
        rfl
      · have hnode : w.node (v.entries.length + 1) = v.node p := by
          unfold Vfs.node
          rw [hdotdot, hnodes]
          rfl
        rw [Vfs.typeOf, hnode]
        exact hpdir
    · obtain ⟨y, hy, hyname, hr, ht⟩ := h.dotdot x hxdir fun hb => hxe (Option.some.inj hb).symm
      have hylt := hv.listed_lt hy
      refine ⟨y, ?_, ?_, ?_, ?_⟩
      · rw [hch, if_neg hxe]
        exact hy
      · rw [(hfields y hylt).2.1, hyname]
      · rw [(hfields y hylt).1, hr, Vfs.parentOf, Vfs.parentOf, (hfields x hxlt).2.2.1]
      · rw [htype y hylt, ht]
  · intro x y hy hr
    rcases hlisted x y hy with ⟨-, rfl | rfl⟩ | hy
    · rw [hdotdot]
      show chars ".." ∈ dotNames
      decide
    · rw [hdot]
      show chars "." ∈ dotNames
      decide
    · have hylt := hv.listed_lt hy
      rw [(hfields y hylt).1] at hr
      rw [(hfields y hylt).2.1]
      exact h.redirected hy hr
  · intro m y y' hm hnamed hnamed' hmy hmy'
    have hold : ∀ z, w.Named z m → v.Named z m := by
      rintro z ⟨⟨x, hx⟩, hr, hvn⟩
      rcases hlisted x z hx with ⟨-, rfl | rfl⟩ | hx
      · rw [hdotdot] at hr
        cases hr
      · rw [hdot] at hr
        cases hr
      · have hzlt := hv.listed_lt hx
        rw [(hfields z hzlt).1] at hr
        rw [(hfields z hzlt).2.2.2] at hvn
        exact ⟨⟨x, hx⟩, hr, hvn⟩
    refine h.single ⟨hnodes ▸ hm.1, ?_⟩ (hold y hnamed) (hold y' hnamed') hmy hmy'
    rw [← (hfields v.root (Vfs.lt_of_vnode hv.root_node)).2.2.2, ← hrootEq]
    exact hm.2
  · rw [hrootEq, htype v.root (Vfs.lt_of_vnode hv.root_node)]
    exact h.root

theorem unique_child (h : Dirs v moved bare) (hx : x ∈ (v.entry d).children)
    (he : e ∈ (v.entry d).children) (hname : (v.entry x).name = (v.entry e).name) : x = e :=
  List.inj_on_of_nodup_map (h.unique d) hx he hname

theorem not_listed_unlink (h : Dirs v moved bare) (hv : Forest v) (he : e ∈ (v.entry p).children) :
    ¬(v.unlink p e).Listed e := by
  rintro ⟨x, hx⟩
  rw [Vfs.unlink_entry] at hx
  split_ifs at hx with hxp
  · have hnodup : (v.entry p).children.Nodup := (h.unique p).of_map _
    exact (hnodup.not_mem_erase) hx
  · have hparent := (hv.parent_of hx).symm.trans (hv.parent_of he)
    exact hxp ⟨Option.some.inj hparent, (hv.lt_of_listed he).1⟩

/-- A child of a directory that has no node is not one of its `.` and `..`. -/
theorem name_of_free (h : Dirs v none none) (hd : v.IsDir d) (he : e ∈ (v.entry d).children)
    (hfree : v.typeOf e ≠ some .directory) :
    (v.entry e).name ∉ dotNames ∧ (v.entry e).redirect = none := by
  have hname : (v.entry e).name ∉ dotNames := by
    intro hmem
    rcases List.mem_pair.mp hmem with hdot | hdotdot
    · obtain ⟨y, hy, hyname, -, hvnode⟩ := h.dot d hd (by simp)
      obtain rfl := h.unique_child hy he (hyname.trans hdot.symm)
      apply hfree
      rw [Vfs.typeOf, Vfs.node, hvnode]
      exact hd.1
    · obtain ⟨y, hy, hyname, -, ht⟩ := h.dotdot d hd (by simp)
      obtain rfl := h.unique_child hy he (hyname.trans hdotdot.symm)
      exact hfree ht
  refine ⟨hname, ?_⟩
  by_contra hred
  exact hname (h.redirected he hred)

/-- An entry of a directory gets its node, and its own `.` and `..` if that is a directory. -/
theorem place (h : Dirs v moved none) (hv : Forest v) (hn : n < v.nodes.length)
    (hp : (v.entry e).parent = some p) (hpdir : v.typeOf p = some .directory)
    (hfree : e ∈ (v.entry p).children ∨ ∀ x ∈ (v.entry p).children, (v.entry x).name ≠ (v.entry e).name)
    (hred : (v.entry e).redirect = none) (hname : (v.entry e).name ∉ dotNames)
    (hsingle : v.Subdirectory n → ∀ x, v.Named x n → x ≠ e → moved = some x)
    (hempty : (v.nodes[n]?).map (·.nodeType) = some .directory → (v.entry e).children = []) :
    Dirs (v.place p e n) moved none := by
  have hlist := h.relist hv hp hfree hred hname hsingle
  obtain ⟨l, -, hent⟩ := setNode_addMissing (n := n) hv hp hfree
  have hpe : p ≠ e := Nat.ne_of_lt (hv.parent_lt hp)
  have hlt : e < v.entries.length := Vfs.lt_of_parent (by simp [hp])
  have hne : e ≠ v.nullEntry := hv.ne_null_of_parent (by simp [hp])
  have hwf : Forest ((v.setNode e (some n)).addMissing p e) := by
    refine (hv.setNode hne hn).addMissing ?_
    rw [Vfs.setNode_entry, if_pos ⟨rfl, hlt⟩]
    exact hp
  have hnodes : ((v.setNode e (some n)).addMissing p e).nodes = v.nodes := Vfs.addMissing_nodes
  have he := hent e
  rw [if_pos rfl] at he
  have htype : ((v.setNode e (some n)).addMissing p e).typeOf e =
      (v.nodes[n]?).map (·.nodeType) := by
    rw [Vfs.typeOf_of_vnode (by rw [he]), hnodes]
  have hptype : ((v.setNode e (some n)).addMissing p e).typeOf p = some .directory := by
    rw [← hpdir]
    simp only [Vfs.typeOf, Vfs.node, hnodes, hent p, if_neg hpe, if_true]
  unfold Vfs.place Vfs.enter
  simp only
  by_cases hdir : ((v.setNode e (some n)).addMissing p e).typeOf e = some .directory
  · have hdir' := hdir
    unfold Vfs.typeOf at hdir'
    rw [if_pos hdir']
    refine hlist.addDots hwf ?_ ?_ hptype ?_
    · rw [he]
      exact hp
    · rw [he]
      exact hempty (htype ▸ hdir)
    · rw [he]
      simp
  · have hdir' := hdir
    unfold Vfs.typeOf at hdir'
    rw [if_neg hdir']
    exact hlist.unbare fun hd => hdir hd.1

end Dirs

/-! ## Calls -/

theorem Found.child_of_parent {v w : Vfs} {e p : EntryId} (hv : Forest v) (h : Found v e w)
    (hp : (w.entry e).parent = some p) : e ∈ (w.entry p).children ∧ w.IsDir p := by
  have hw : Forest w := hv.found h
  cases h with
  | null =>
    rw [hv.null] at hp
    cases hp
  | root =>
    rw [hv.root_parent] at hp
    cases hp
  | child dir hfind =>
    have hmem := (Vfs.mem_of_findChild hfind).1
    rw [hv.parent_of hmem] at hp
    obtain rfl := Option.some.inj hp
    exact ⟨hmem, dir⟩
  | nullMissing dir hfind =>
    have hnull := hw.null
    rw [show (v.negative _ _).nullEntry = v.nullEntry from rfl] at hnull
    rw [hnull] at hp
    cases hp
  | @missing d c dir hfind =>
    have hlt := Vfs.lt_of_vnode dir.vnode
    rw [Vfs.negative_entry hlt, if_neg (Nat.ne_of_gt hlt), if_pos rfl] at hp
    obtain rfl : d = p := Option.some.inj hp
    refine ⟨?_, (negative_isDir dir.vnode d).mpr dir⟩
    rw [negative_children hlt, if_pos rfl]
    exact List.mem_cons_self

theorem Found.children_subset {v w : Vfs} {e : EntryId} (h : Found v e w) (d : EntryId) :
    (v.entry d).children ⊆ (w.entry d).children := by
  have hneg : ∀ {x : EntryId} {c : Name}, v.IsDir x →
      (v.entry d).children ⊆ ((v.negative x c).entry d).children := by
    intro x c hx
    rw [negative_children (Vfs.lt_of_vnode hx.vnode)]
    split_ifs with hdx
    · rw [hdx]
      exact fun _ hy => List.mem_cons_of_mem _ hy
    · exact fun _ hy => hy
  cases h with
  | null => exact fun _ hy => hy
  | root => exact fun _ hy => hy
  | child dir hfind => exact fun _ hy => hy
  | nullMissing dir hfind => exact hneg dir
  | missing dir hfind => exact hneg dir

namespace Dirs

variable {v w u : Vfs} {e o p : EntryId} {moved : Option EntryId}

theorem found (h : Dirs v none none) (hv : Forest v) (hf : Found v e w) : Dirs w none none := by
  cases hf with
  | null => exact h
  | root => exact h
  | child dir hfind => exact h
  | nullMissing dir hfind => exact h.negative hv dir hfind
  | missing dir hfind => exact h.negative hv dir hfind

theorem creates (h : Dirs v none none) (hv : Forest v) (hf : Found v e w) (hc : Creates w e u) :
    Dirs u none none := by
  have hw := hv.found hf
  have hdw := h.found hv hf
  suffices hboth : Forest u ∧ Dirs u none none from hboth.2
  induction hc with
  | kept => exact ⟨hw, hdw⟩
  | data _ n data ih => exact ⟨ih.1.setData n data, ih.2.setData ih.1 n data⟩
  | @made p y free parent =>
    refine ⟨hw.creates (.made y free parent), ?_⟩
    obtain ⟨hmem, hdir⟩ := hf.child_of_parent hv parent
    have hnone := hw.node_eq_none.mp free
    obtain ⟨hname, hred⟩ := hdw.name_of_free hdir hmem (by simp [Vfs.typeOf, free])
    have hpush := hdw.pushNode hw y
    refine hpush.place (hw.pushNode y) (by simp [Vfs.pushNode]) parent ?_ (.inl hmem) hred hname ?_ ?_
    · obtain ⟨m, hm⟩ := Option.ne_none_iff_exists'.mp hdir.vnode
      rw [← hdir.1, Vfs.typeOf_of_vnode (v := w.pushNode y) hm, Vfs.typeOf_of_vnode hm, Vfs.pushNode,
        List.getElem?_append_left (hw.vnode_lt hm)]
    · -- the node is new
      intro _ x hx _
      exact absurd (hw.vnode_lt (show (w.entry x).vnode = some w.nodes.length from hx.2.2))
        (Nat.lt_irrefl _)
    · intro _
      exact hw.childless hnone

end Dirs

/-- What a lookup ends at, with the tree it leaves, is as stated. -/
def Ends (x : Except Fault (EntryId × Vfs)) (P : EntryId → Vfs → Prop) : Prop :=
  ∀ e w, x = .ok (e, w) → P e w

instance {x : Except Fault (EntryId × Vfs)} {P : EntryId → Vfs → Prop}
    [∀ e w, Decidable (P e w)] : Decidable (Ends x P) :=
  match x with
  | .error _ => isTrue fun _ _ h => by cases h
  | .ok (e, w) => decidable_of_iff (P e w)
      ⟨fun h e' w' he => by cases he; exact h, fun h => h e w rfl⟩

/-- The call takes no `.` or `..` away, does not put a directory onto an entry that is or was one,
    and makes no second name for a directory. -/
def Tidy (v : Vfs) : PathOp → Prop
  | .unlinkat a removeDir => removeDir = true → Ends (a.lookup v true) fun e w =>
      (w.entry e).name ∉ dotNames
  | .linkat old new => Ends (old.lookup v true) fun o w => Ends (new.lookup w true) fun e u =>
      (u.entry e).vnode = none → w.typeOf o = some .directory →
        (w.entry o).vnode = (w.entry w.root).vnode
  | .renameat old new => Ends (old.lookup v true) fun o w => Ends (new.lookup w true) fun e u =>
      (w.entry o).name ∉ dotNames ∧ (u.entry e).name ∉ dotNames ∧
        (w.typeOf o = some .directory → (u.entry e).children = [])
  | _ => True

instance (v : Vfs) (op : PathOp) : Decidable (Tidy v op) := by
  cases op <;> unfold Tidy <;> infer_instance

namespace Dirs

variable {v w u : Vfs} {e o p : EntryId} {moved : Option EntryId}

theorem unlinkat {t t' : Tree} {a : PathArg} {removeDir : Bool} {r : Except Errno Unit}
    (h : Dirs t.vfs none none) (hv : Forest t.vfs) (hok : Tidy t.vfs (.unlinkat a removeDir))
    (hcall : t.unlinkat a removeDir = .ok (r, t')) : Dirs t'.vfs none none := by
  obtain ⟨e, w, hlook, ⟨errno, -, rfl⟩ | ⟨-, htype, hremove⟩⟩ := Tree.unlinkat_cases hcall
  · exact h.found hv (pathToEntry_found hv hlook)
  have hf := pathToEntry_found hv hlook
  have hw := hv.found hf
  have hdw := h.found hv hf
  obtain ⟨-, ⟨p, hp, hmem, rfl⟩ | ⟨-, rfl⟩⟩ := Tree.remove_cases hremove
  · refine hdw.unlink hw hmem ?_
    rcases htype with hnot | hdir
    · exact (hdw.name_of_free (hf.child_of_parent hv hp).2 hmem hnot).1
    · exact hok hdir e w hlook
  · exact hdw

theorem linkat {v' : Vfs} {old new : PathArg} {r : Except Errno Unit}
    (h : Dirs v none none) (hv : Forest v) (hok : Tidy v (.linkat old new))
    (hcall : v.linkat old new = .ok (r, v')) : Dirs v' none none := by
  obtain ⟨o, w, hold, hcase⟩ := linkat_cases hcall
  have hfo := pathToEntry_found hv hold
  have hw := hv.found hfo
  have hdw := h.found hv hfo
  obtain ⟨-, -, rfl⟩ | ⟨e, u, hnode, hnew, ⟨-, -, rfl⟩ | ⟨p, hfree, hp, -, rfl⟩⟩ := hcase
  · exact hdw
  · exact hdw.found hw (pathToEntry_found hw hnew)
  have hfe := pathToEntry_found hw hnew
  have hu := hw.found hfe
  have hdu := hdw.found hw hfe
  obtain ⟨n, hn⟩ := Option.ne_none_iff_exists'.mp hnode
  have hun : (u.entry o).vnode = some n := by rw [hfe.vnode, hn]
  rw [hun]
  obtain ⟨hmem, hdir⟩ := hfe.child_of_parent hw hp
  have hnotdir : u.typeOf e ≠ some .directory := by simp [Vfs.typeOf, Vfs.node, hfree]
  obtain ⟨hname, hred⟩ := hdu.name_of_free hdir hmem hnotdir
  refine hdu.place hu (hu.vnode_lt hun) hp hdir.1 (.inl hmem) hred hname ?_
    (fun _ => hu.childless hfree)
  -- a directory that is linked is the root
  intro hsub
  have htype : w.typeOf o = some .directory := by
    rw [Vfs.typeOf_of_vnode hn, ← hfe.sameTree.nodes]
    exact hsub.1
  have hroot := hok o w hold e u hnew hfree htype
  rw [hn] at hroot
  have hne := hsub.2
  rw [hfe.sameTree.root, hfe.vnode, ← hroot] at hne
  exact absurd rfl hne

/-- A new child leaves the others their names and parents. -/
theorem newChild_fields (y : Entry) {x : EntryId} (hx : x < v.entries.length) :
    (((v.alloc y).2.addChild e v.entries.length).entry x).name = (v.entry x).name ∧
      (((v.alloc y).2.addChild e v.entries.length).entry x).parent = (v.entry x).parent ∧
      x < ((v.alloc y).2.addChild e v.entries.length).entries.length := by
  have hlen : x < ((v.alloc y).2.addChild e v.entries.length).entries.length := by
    simp only [Vfs.addChild, Vfs.updateEntry_length, Vfs.alloc, List.length_append]
    exact Nat.lt_succ_of_lt hx
  rw [Vfs.addChild_entry, Vfs.alloc_entry, Vfs.alloc_entry, if_neg (Nat.ne_of_lt hx)]
  split_ifs with hc hz
  · exact absurd (hc.1.trans hz) (Nat.ne_of_lt hx)
  · rw [hc.1]
    exact ⟨rfl, rfl, hc.1 ▸ hlen⟩
  · exact ⟨rfl, rfl, hlen⟩

theorem place_fields {n : VNodeId} {x : EntryId} (hx : x < v.entries.length) :
    ((v.place p e n).entry x).name = (v.entry x).name ∧
      ((v.place p e n).entry x).parent = (v.entry x).parent := by
  have hset : (((v.setNode e (some n)).addMissing p e).entry x).name = (v.entry x).name ∧
      (((v.setNode e (some n)).addMissing p e).entry x).parent = (v.entry x).parent := by
    have hnode : ((v.setNode e (some n)).entry x).name = (v.entry x).name ∧
        ((v.setNode e (some n)).entry x).parent = (v.entry x).parent := by
      rw [Vfs.setNode_entry]
      split_ifs with hc
      · rw [hc.1]
        exact ⟨rfl, rfl⟩
      · exact ⟨rfl, rfl⟩
    unfold Vfs.addMissing
    split
    · exact hnode
    · rw [Vfs.addChild_entry]
      split_ifs with hc
      · rw [hc.1] at hnode ⊢
        exact hnode
      · exact hnode
  have hlen : x < ((v.setNode e (some n)).addMissing p e).entries.length := by
    rw [Vfs.addMissing_length]
    simpa [Vfs.setNode] using hx
  unfold Vfs.place Vfs.enter
  simp only
  split_ifs
  · unfold Vfs.addDots
    have hdot := newChild_fields (e := e) (Entry.construct
      (((v.setNode e (some n)).addMissing p e).entry e).vnode (some e) (chars ".") (some e)) hlen
    obtain ⟨hname, hparent, -⟩ := newChild_fields (e := e) (Entry.construct
      (((((v.setNode e (some n)).addMissing p e).alloc (Entry.construct
        (((v.setNode e (some n)).addMissing p e).entry e).vnode (some e) (chars ".")
          (some e))).2.addChild e ((v.setNode e (some n)).addMissing p e).entries.length).entry p).vnode
      (some e) (chars "..") (some p)) hdot.2.2
    exact ⟨(hname.trans hdot.1).trans hset.1, (hparent.trans hdot.2.1).trans hset.2⟩
  · exact hset

/-- A directory that a lookup ends at has that name, if it is no `.` or `..`. -/
theorem named (h : Dirs v none none) (hv : Forest v) (hf : Found v o w) {n : VNodeId}
    (hn : (w.entry o).vnode = some n) (hname : (w.entry o).name ∉ dotNames)
    (hsub : w.Subdirectory n) : w.Named o n := by
  have hold := hf.vnode o
  rw [hn] at hold
  cases hf with
  | null =>
    rw [hv.null] at hn
    cases hn
  | root => exact absurd hn hsub.2
  | child dir hfind =>
    have hmem := (Vfs.mem_of_findChild hfind).1
    refine ⟨⟨_, hmem⟩, ?_, hn⟩
    by_contra hred
    exact hname (h.redirected hmem hred)
  | nullMissing dir hfind =>
    rw [hv.null] at hold
    cases hold
  | missing dir hfind =>
    rw [Vfs.entry_of_le (Nat.le_refl _)] at hold
    cases hold

end Dirs

/-- The entry `e` of the directory `p` can take over the node `n` of `o`. -/
structure TakesOver (v : Vfs) (o e p : EntryId) (n : VNodeId) : Prop where
  forest : Forest v
  dirs : Dirs v none none
  node : (v.entry o).vnode = some n
  oldName : (v.entry o).name ∉ dotNames
  newName : (v.entry e).name ∉ dotNames
  parent : (v.entry e).parent = some p
  dir : v.typeOf p = some .directory
  free : e ∈ (v.entry p).children ∨
    ∀ x ∈ (v.entry p).children, (v.entry x).name ≠ (v.entry e).name
  redirect : (v.entry e).redirect = none
  single : v.Subdirectory n → ∀ x, v.Named x n → x = o
  empty : (v.nodes[n]?).map (·.nodeType) = some .directory → (v.entry e).children = []

namespace TakesOver

variable {v : Vfs} {o e p : EntryId} {n : VNodeId}

theorem place (h : TakesOver v o e p n) :
    Forest (v.place p e n) ∧ Dirs (v.place p e n) (some o) none := by
  refine ⟨h.forest.place h.parent (h.forest.vnode_lt h.node), ?_⟩
  refine (h.dirs.allow (some o)).place h.forest (h.forest.vnode_lt h.node) h.parent h.dir h.free
    h.redirect h.newName ?_ h.empty
  intro hsub x hx _
  rw [h.single hsub x hx]

/-- An entry that has a node goes first. -/
theorem unlink (h : TakesOver v o e p n) (he : e ∈ (v.entry p).children) :
    TakesOver (v.unlink p e) o e p n := by
  have hp := (h.forest.lt_of_listed he).1
  have hpe : p ≠ e := Nat.ne_of_lt (h.forest.parent_lt h.parent)
  have hpch : ((v.unlink p e).entry p).children = (v.entry p).children.erase e := by
    rw [Vfs.unlink_entry, if_pos ⟨rfl, hp⟩]
  have hfields := v.unlink_fields p e
  have hsub : ∀ x, ((v.unlink p e).entry x).children ⊆ (v.entry x).children := by
    intro x
    rw [Vfs.unlink_entry]
    split_ifs with hx
    · rw [hx.1]
      exact fun _ hy => List.mem_of_mem_erase hy
    · exact fun _ hy => hy
  refine ⟨h.forest.unlink (h.forest.lt_of_listed he).2.2, h.dirs.unlink h.forest he h.newName, ?_, ?_,
    ?_, ?_, ?_, ?_, ?_, ?_, ?_⟩
  · rw [(hfields o).1]
    exact h.node
  · rw [(hfields o).2.2.1]
    exact h.oldName
  · rw [(hfields e).2.2.1]
    exact h.newName
  · rw [(hfields e).2.2.2]
    exact h.parent
  · rw [← h.dir]
    simp only [Vfs.typeOf, Vfs.node, (hfields p).1]
    rfl
  · right
    intro x hx hname
    rw [(hfields x).2.2.1, (hfields e).2.2.1] at hname
    have hxe := h.dirs.unique_child (hsub p hx) he hname
    rw [hpch, hxe] at hx
    exact ((h.dirs.unique p).of_map _).not_mem_erase hx
  · rw [(hfields e).2.1]
    exact h.redirect
  · intro hs x hx
    obtain ⟨⟨d, hd⟩, hred, hvn⟩ := hx
    rw [(hfields x).2.1] at hred
    rw [(hfields x).1] at hvn
    refine h.single ⟨hs.1, ?_⟩ x ⟨⟨d, hsub d hd⟩, hred, hvn⟩
    rw [← (hfields v.root).1]
    exact hs.2
  · intro hdir
    rw [Vfs.unlink_entry, if_neg (fun hx => hpe hx.1.symm)]
    exact h.empty hdir

/-- The old entry goes, and with it the second name of a directory. -/
theorem finish {t t' : Tree} (h : TakesOver t.vfs o e p n)
    (hlast : Tree.remove { t with vfs := t.vfs.place p e n } o = .ok t') : Dirs t'.vfs none none := by
  obtain ⟨hforest, hdirs⟩ := h.place
  have hlt : o < t.vfs.entries.length := Vfs.lt_of_vnode (by rw [h.node]; simp)
  have hname : ((t.vfs.place p e n).entry o).name ∉ dotNames := by
    rw [(Dirs.place_fields hlt).1]
    exact h.oldName
  obtain ⟨-, ⟨q, -, hmem, rfl⟩ | ⟨hq, rfl⟩⟩ := Tree.remove_cases hlast
  · exact (hdirs.unlink hforest hmem hname).settle (hdirs.not_listed_unlink hforest hmem)
  · refine hdirs.settle ?_
    rintro ⟨d, hd⟩
    have := hforest.parent_of hd
    rw [hq] at this
    cases this

end TakesOver

namespace Dirs

variable {v w u : Vfs} {e o p : EntryId}

theorem renameat {t t' : Tree} {old new : PathArg} {r : Except Errno Unit}
    (h : Dirs t.vfs none none) (hv : Forest t.vfs) (hok : Tidy t.vfs (.renameat old new))
    (hcall : t.renameat old new = .ok (r, t')) : Dirs t'.vfs none none := by
  obtain ⟨o, w, hold, hcase⟩ := Tree.renameat_cases hcall
  have hfo := pathToEntry_found hv hold
  have hw := hv.found hfo
  have hdw := h.found hv hfo
  obtain ⟨-, -, rfl⟩ | ⟨e, u, t1, p, hnode, hnew, ht1, hp, -, hlast⟩ := hcase
  · exact hdw
  obtain ⟨hnameo, hnamee, hempty⟩ := hok o w hold e u hnew
  have hfe := pathToEntry_found hw hnew
  have hu := hw.found hfe
  have hdu := hdw.found hw hfe
  have hsame := hfe.sameTree
  obtain ⟨n, hn⟩ := Option.ne_none_iff_exists'.mp hnode
  have hun : (u.entry o).vnode = some n := by rw [hfe.vnode, hn]
  have howlt : o < w.entries.length := Vfs.lt_of_vnode hnode
  -- the old entry is the name of its directory
  have hnamed : u.Subdirectory n → u.Named o n := by
    intro hsub
    have hwsub : w.Subdirectory n := by
      refine ⟨hsame.nodes ▸ hsub.1, ?_⟩
      have := hsub.2
      rw [hsame.root, hsame.vnode] at this
      exact this
    obtain ⟨⟨d, hd⟩, hred, -⟩ := h.named hv hfo hn hnameo hwsub
    refine ⟨⟨d, hfe.children_subset d hd⟩, ?_, hun⟩
    rw [hsame.redirect o howlt]
    exact hred
  have htakes : (u.entry e).parent = some p → TakesOver u o e p n := by
    intro hup
    obtain ⟨hmem, hdir⟩ := hfe.child_of_parent hw hup
    refine ⟨hu, hdu, hun, ?_, hnamee, hup, hdir.1, .inl hmem, ?_, ?_, ?_⟩
    · rw [hsame.name o howlt]
      exact hnameo
    · by_contra hred
      exact hnamee (hdu.redirected hmem hred)
    · exact fun hsub x hx => hdu.single hsub hx (hnamed hsub) (by simp) (by simp)
    · intro hdirn
      apply hempty
      rw [Vfs.typeOf_of_vnode hn, ← hsame.nodes]
      exact hdirn
  rcases ht1 with ⟨-, rfl⟩ | ⟨-, hremove⟩
  · have ht := htakes hp
    rw [show ({ t with vfs := u } : Tree).vfs = u from rfl, hun] at hlast
    exact ht.finish (t := { t with vfs := u }) hlast
  · obtain ⟨-, ⟨q, hq, hmem, rfl⟩ | ⟨hq, rfl⟩⟩ := Tree.remove_cases hremove
    · have hpq : p = q := by
        have hkeep := (Forest.remove_entry hremove e).2
        exact Option.some.inj (hp.symm.trans (hkeep.trans hq))
      subst hpq
      have ht := (htakes hq).unlink hmem
      have hnode' := ht.node
      rw [show ({ t with vfs := u.unlink p e } : Tree).vfs = u.unlink p e from rfl, hnode'] at hlast
      exact ht.finish (t := { t with vfs := u.unlink p e }) hlast
    · have hp' : (u.entry e).parent = some p := hp
      rw [show (u.entry e).parent = none from hq] at hp'
      cases hp'

theorem step {t t' : Tree} {op : PathOp} (h : Dirs t.vfs none none) (hv : Forest t.vfs)
    (hok : Tidy t.vfs op) (hstep : t.step op = .ok t') : Dirs t'.vfs none none := by
  obtain ⟨⟨r, t''⟩, hcall, rfl⟩ := exists_ok_of_map hstep
  cases op with
  | linkat old new =>
    obtain ⟨v, hx, rfl⟩ := Tree.lift_cases hcall
    exact h.linkat hv hok hx
  | renameat old new => exact h.renameat hv hok hcall
  | unlinkat a removeDir => exact h.unlinkat hv hok hcall
  | _ =>
    obtain ⟨a, follow, e, w, hlook, hmade⟩ := Tree.single_cases hcall (by simp) (by simp) (by simp)
    exact h.creates hv (pathToEntry_found hv hlook) hmade

theorem booted : Dirs Vfs.booted none none := by
  have hout : ∀ e, ¬e < 4 → Vfs.booted.entry e = Entry.construct none none [] none :=
    fun e he => Vfs.entry_of_le (Nat.le_of_not_lt he)
  have hdirs : ∀ d, Vfs.booted.IsDir d → d = 0 := by
    intro d hd
    by_cases hlt : d < 4
    · have hin : ∀ d < 4, (Vfs.booted.entry d).redirect = none → (Vfs.booted.entry d).vnode ≠ none →
          d = 0 := by decide
      exact hin d hlt hd.2 hd.vnode
    · exact absurd (by rw [hout d hlt]; rfl) hd.vnode
  refine ⟨?_, ?_, ?_, ?_, ?_, by decide⟩
  · intro d
    by_cases hlt : d < 4
    · have hin : ∀ d < 4,
          ((Vfs.booted.entry d).children.map fun e => (Vfs.booted.entry e).name).Nodup := by decide
      exact hin d hlt
    · simp [hout d hlt, Entry.construct]
  · intro d hd _
    obtain rfl := hdirs d hd
    exact ⟨2, by decide⟩
  · intro d hd _
    obtain rfl := hdirs d hd
    exact ⟨3, by decide⟩
  · intro d e he hr
    by_cases hlt : d < 4
    · have hin : ∀ d < 4, ∀ e ∈ (Vfs.booted.entry d).children, (Vfs.booted.entry e).redirect ≠ none →
          (Vfs.booted.entry e).name ∈ dotNames := by decide
      exact hin d hlt e he hr
    · simp [hout d hlt, Entry.construct] at he
  · intro n e e' hn
    -- the only node is that of the root
    obtain ⟨x, hx⟩ := Option.map_eq_some_iff.mp hn.1
    have hlt := (List.getElem?_eq_some_iff.mp hx.1).1
    have hzero : n = 0 := Nat.lt_one_iff.mp hlt
    exact absurd (by rw [hzero]; rfl) hn.2

end Dirs

/-- The directory tree as a whole: names are unique, `.` and `..` lead to the directory and to the
    one that holds it, and every directory that has a name, but the root, has one. -/
structure DirectoryTree (v : Vfs) : Prop where
  unique : ∀ d, v.IsDir d → ((v.entry d).children.map fun e => (v.entry e).name).Nodup
  dot : ∀ d, v.IsDir d → ∃ e, v.findChild d (chars ".") = some e ∧
    (v.entry e).redirect = some d ∧ (v.entry e).vnode = (v.entry d).vnode
  dotdot : ∀ d, v.IsDir d → ∃ e, v.findChild d (chars "..") = some e ∧
    (v.entry e).redirect = some (v.parentOf d) ∧ (v.Listed d → d ∈ (v.entry (v.parentOf d)).children)
  single : ∀ n, v.Subdirectory n → (∃ e, v.Named e n) → ∃! e, v.Named e n

/-- The child of a name that is unique. -/
theorem Dirs.findChild_eq {v : Vfs} {moved bare : Option EntryId} (h : Dirs v moved bare)
    (hv : Forest v) {d e : EntryId} (he : e ∈ (v.entry d).children) :
    v.findChild d (v.entry e).name = some e := by
  cases hf : v.findChild d (v.entry e).name with
  | none => exact absurd rfl ((Vfs.findChild_eq_none hv.hash).mp hf e he)
  | some x =>
    obtain ⟨hx, hname⟩ := Vfs.mem_of_findChild hf
    rw [h.unique_child hx he hname]

theorem Dirs.directoryTree {v : Vfs} (h : Dirs v none none) (hv : Forest v) : DirectoryTree v := by
  refine ⟨fun d _ => h.unique d, ?_, ?_, ?_⟩
  · intro d hd
    obtain ⟨e, he, hname, hred, hn⟩ := h.dot d hd (by simp)
    exact ⟨e, hname ▸ h.findChild_eq hv he, hred, hn⟩
  · intro d hd
    obtain ⟨e, he, hname, hred, -⟩ := h.dotdot d hd (by simp)
    refine ⟨e, hname ▸ h.findChild_eq hv he, hred, ?_⟩
    rintro ⟨p, hp⟩
    rw [Vfs.parentOf, hv.parent_of hp]
    exact hp
  · rintro n hn ⟨e, he⟩
    exact ⟨e, he, fun e' he' => h.single hn he' he (by simp) (by simp)⟩

/-- **Main theorem.** In every run of tidy calls the directories are a tree. -/
theorem directories_wellFormed {t : Tree}
    (h : Run Tree.step (fun t op => Tidy t.vfs op) Tree.booted t) : DirectoryTree t.vfs := by
  have hboth : Forest t.vfs ∧ Dirs t.vfs none none := h.invariant
    (P := fun t => Forest t.vfs ∧ Dirs t.vfs none none)
    (fun _ _ _ hs ok next => ⟨hs.1.step next, hs.2.step hs.1 ok next⟩) ⟨Forest.booted, Dirs.booted⟩
  exact hboth.2.directoryTree hboth.1

/-- Directories, a file, a link and a second name; the file moves, and a directory goes. -/
def tidyOps : List PathOp := [.mkdirat (absolute "/a"), .mkdirat (absolute "/a/b"),
  .openat (absolute "/f") { creat := true }, .symlinkat (cliteral "/a") (absolute "/l"),
  .linkat (absolute "/f") (absolute "/a/g"), .lookup (absolute "/a/missing") true,
  .renameat (absolute "/a") (absolute "/d"), .unlinkat (absolute "/f") false,
  .unlinkat (absolute "/d") true]

/-- One call, if it is tidy. -/
def tidyStep (t : Tree) (op : PathOp) : Except Fault Tree :=
  if Tidy t.vfs op then t.step op else .error .assertion

theorem run_of_tidyStep {ops : List PathOp} {t : Tree}
    (h : ops.foldlM tidyStep Tree.booted = .ok t) :
    Run Tree.step (fun t op => Tidy t.vfs op) Tree.booted t := by
  refine foldlM_ok_invariant (Run Tree.step (fun t op => Tidy t.vfs op) Tree.booted) .start ?_ h
  intro op s s' _ hrun hstep
  unfold tidyStep at hstep
  split_ifs at hstep with hok
  exact hrun.step hok hstep

theorem directories_wellFormed_tidyOps : ∃ t, tidyOps.foldlM tidyStep Tree.booted = .ok t ∧
    t.vfs.entries.length = 17 ∧ DirectoryTree t.vfs := by
  obtain ⟨t, ht, hlen⟩ := exists_ok_of_map (show (tidyOps.foldlM tidyStep Tree.booted).map
    (fun t => t.vfs.entries.length) = .ok 17 by rfl)
  exact ⟨t, ht, hlen, directories_wellFormed (run_of_tidyStep ht)⟩

/-- `mkdir("/a")`, `mkdir("/b")`, `rename("/a", "/b")`: `/b` has `.` and `..` twice. -/
theorem rename_onto_directory : ∃ t, Run Tree.step (fun _ _ => True) Tree.booted t ∧
    ¬DirectoryTree t.vfs := by
  obtain ⟨t, ht, hnames⟩ := exists_ok_of_map (show ([.mkdirat (absolute "/a"),
    .mkdirat (absolute "/b"), .renameat (absolute "/a") (absolute "/b")].foldlM Tree.step
      Tree.booted).map (fun t => decide (∃ d < t.vfs.entries.length,
        (t.vfs.typeOf d = some .directory ∧ (t.vfs.entry d).redirect = none) ∧
        ¬((t.vfs.entry d).children.map fun e => (t.vfs.entry e).name).Nodup)) = .ok true by
          rfl)
  obtain ⟨d, -, hd, hno⟩ := of_decide_eq_true hnames
  exact ⟨t, Run.start.foldlM (fun _ _ _ => trivial) ht, fun h => hno (h.unique d hd)⟩

end Fishix.Fs
