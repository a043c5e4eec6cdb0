import Fishix.Fs.PathSyscalls

/-!
# What every tree of entries keeps

`Forest` holds whatever calls were made: every child knows its parent, redirections lead to older
entries, an entry that never had a node has no children, and the root and the null entry are as
`vfs::init` left them. One lemma for each thing that `create`, `lookup` and `remove` do.

* `redirect_reduce`: `reduce` ends at an entry that is not redirected.
* `Forest.negative`, `Forest.setNode`, `Forest.addMissing`, `Forest.addDots`, `Forest.unlink`: the
  changes.
-/

namespace Fishix.Fs

namespace Vfs

variable {v : Vfs} {d e p x : EntryId} {c : Name}

/-! ## Entries after a change -/

theorem entry_of_le (h : v.entries.length ≤ e) : v.entry e = Entry.construct none none [] none := by
  simp [entry, List.getElem?_eq_none h]

theorem updateEntry_entry (f : Entry → Entry) :
    (v.updateEntry e f).entry x = if x = e ∧ e < v.entries.length then f (v.entry e) else v.entry x := by
  unfold updateEntry entry
  simp only [List.getD_eq_getElem?_getD, List.getElem?_modify]
  by_cases hx : x = e
  · subst hx
    by_cases hlt : x < v.entries.length
    · simp [hlt]
    · simp [hlt]
  · simp [hx, Ne.symm hx]

@[simp] theorem updateEntry_length (f : Entry → Entry) :
    (v.updateEntry e f).entries.length = v.entries.length := by simp [updateEntry]

@[simp] theorem updateEntry_nodes (f : Entry → Entry) : (v.updateEntry e f).nodes = v.nodes := rfl

@[simp] theorem updateEntry_root (f : Entry → Entry) : (v.updateEntry e f).root = v.root := rfl

@[simp] theorem updateEntry_nullEntry (f : Entry → Entry) :
    (v.updateEntry e f).nullEntry = v.nullEntry := rfl

theorem alloc_entry (y : Entry) :
    (v.alloc y).2.entry x = if x = v.entries.length then y else v.entry x := by
  unfold alloc entry
  simp only [List.getD_eq_getElem?_getD]
  rcases Nat.lt_trichotomy x v.entries.length with h | h | h
  · rw [List.getElem?_append_left h, if_neg (Nat.ne_of_lt h)]
  · simp [h]
  · rw [if_neg (Nat.ne_of_gt h), List.getElem?_eq_none (by simp; omega),
      List.getElem?_eq_none (Nat.le_of_lt h)]

theorem addChild_entry : (v.addChild p e).entry x =
    if x = p ∧ p < v.entries.length then { v.entry p with children := e :: (v.entry p).children }
    else v.entry x := updateEntry_entry _

/-- The entry without node that a lookup puts into the directory. -/
def negative (v : Vfs) (d : EntryId) (c : Name) : Vfs :=
  (v.alloc (Entry.construct none (some d) c none)).2.addChild d v.entries.length

/-- `entry->vnode = ...`. -/
def setNode (v : Vfs) (e : EntryId) (n : Option VNodeId) : Vfs :=
  v.updateEntry e fun y => { y with vnode := n }

theorem setNode_entry (n : Option VNodeId) : (v.setNode e n).entry x =
    if x = e ∧ e < v.entries.length then { v.entry e with vnode := n } else v.entry x :=
  updateEntry_entry _

/-- A node is made. -/
def pushNode (v : Vfs) (x : VNode) : Vfs := { v with nodes := v.nodes ++ [x] }

/-- The entry `e` of `p` gets the node `n`. -/
def place (v : Vfs) (p e : EntryId) (n : VNodeId) : Vfs := (v.setNode e (some n)).enter p e

theorem unlink_entry : (v.unlink p e).entry x =
    if x = p ∧ p < v.entries.length then
      { v.entry p with children := (v.entry p).children.erase e }
    else v.entry x := updateEntry_entry _

/-- `remove` changes one list and nothing else. -/
theorem unlink_fields (v : Vfs) (p e x : EntryId) :
    ((v.unlink p e).entry x).vnode = (v.entry x).vnode ∧
      ((v.unlink p e).entry x).redirect = (v.entry x).redirect ∧
      ((v.unlink p e).entry x).name = (v.entry x).name ∧
      ((v.unlink p e).entry x).parent = (v.entry x).parent := by
  rw [unlink_entry]
  split_ifs with hx
  · rw [hx.1]
    exact ⟨rfl, rfl, rfl, rfl⟩
  · exact ⟨rfl, rfl, rfl, rfl⟩

theorem lt_of_children (h : (v.entry p).children ≠ []) : p < v.entries.length := by
  by_contra hlt
  exact h (by rw [entry_of_le (Nat.le_of_not_lt hlt)]; rfl)

theorem lt_of_vnode (h : (v.entry p).vnode ≠ none) : p < v.entries.length := by
  by_contra hlt
  exact h (by rw [entry_of_le (Nat.le_of_not_lt hlt)]; rfl)

theorem lt_of_parent (h : (v.entry p).parent ≠ none) : p < v.entries.length := by
  by_contra hlt
  exact h (by rw [entry_of_le (Nat.le_of_not_lt hlt)]; rfl)

end Vfs

/-- What holds of the entries after any calls. -/
structure Forest (v : Vfs) : Prop where
  parent_of : ∀ {p e}, e ∈ (v.entry p).children → (v.entry e).parent = some p
  listed_lt : ∀ {p e}, e ∈ (v.entry p).children → e < v.entries.length
  redirect_lt : ∀ {e r}, (v.entry e).redirect = some r → r < e
  hash : ∀ e, (v.entry e).nameHash = Fishix.hash (v.entry e).name
  vnode_lt : ∀ {e n}, (v.entry e).vnode = some n → n < v.nodes.length
  childless : ∀ {e}, (v.entry e).vnode = none → (v.entry e).children = []
  parent_node : ∀ {e p}, (v.entry e).parent = some p → (v.entry p).vnode ≠ none
  parent_lt : ∀ {e p}, (v.entry e).parent = some p → p < e
  root_parent : (v.entry v.root).parent = none
  root_redirect : (v.entry v.root).redirect = none
  root_node : (v.entry v.root).vnode ≠ none
  null : v.entry v.nullEntry = Entry.construct none none [] none
  null_lt : v.nullEntry < v.entries.length

namespace Forest

variable {v : Vfs} {d e p x : EntryId} {c : Name}

theorem booted : Forest Vfs.booted := by
  have hin : ∀ e < 4, (∀ x ∈ (Vfs.booted.entry e).children,
        (Vfs.booted.entry x).parent = some e ∧ x < 4) ∧
      (∀ r ∈ (Vfs.booted.entry e).redirect, r < e) ∧
      (Vfs.booted.entry e).nameHash = Fishix.hash (Vfs.booted.entry e).name ∧
      (∀ n ∈ (Vfs.booted.entry e).vnode, n < 1) ∧
      ((Vfs.booted.entry e).vnode = none → (Vfs.booted.entry e).children = []) ∧
      ∀ p ∈ (Vfs.booted.entry e).parent, (Vfs.booted.entry p).vnode ≠ none ∧ p < e := by decide
  have hout : ∀ e, ¬e < 4 → Vfs.booted.entry e = Entry.construct none none [] none :=
    fun e he => Vfs.entry_of_le (Nat.le_of_not_lt he)
  refine ⟨?_, ?_, ?_, ?_, ?_, ?_, ?_, ?_, by decide, by decide, by decide, by decide, by decide⟩
  · intro p e he
    by_cases hp : p < 4
    · exact ((hin p hp).1 e he).1
    · simp [hout p hp, Entry.construct] at he
  · intro p e he
    by_cases hp : p < 4
    · exact ((hin p hp).1 e he).2
    · simp [hout p hp, Entry.construct] at he
  · intro e r hr
    by_cases he : e < 4
    · exact (hin e he).2.1 r hr
    · simp [hout e he, Entry.construct] at hr
  · intro e
    by_cases he : e < 4
    · exact (hin e he).2.2.1
    · simp [hout e he, Entry.construct]
  · intro e n hn
    by_cases he : e < 4
    · exact (hin e he).2.2.2.1 n hn
    · simp [hout e he, Entry.construct] at hn
  · intro e hn
    by_cases he : e < 4
    · exact (hin e he).2.2.2.2.1 hn
    · simp [hout e he, Entry.construct]
  · intro e p hp
    by_cases he : e < 4
    · exact ((hin e he).2.2.2.2.2 p hp).1
    · simp [hout e he, Entry.construct] at hp
  · intro e p hp
    by_cases he : e < 4
    · exact ((hin e he).2.2.2.2.2 p hp).2
    · simp [hout e he, Entry.construct] at hp

/-! ## Changes -/

section

variable (h : Forest v)

include h

theorem lt_of_listed (he : e ∈ (v.entry p).children) :
    p < v.entries.length ∧ (v.entry p).vnode ≠ none ∧ p ≠ v.nullEntry := by
  have hne : (v.entry p).children ≠ [] := List.ne_nil_of_mem he
  refine ⟨Vfs.lt_of_children hne, fun hn => hne (h.childless hn), ?_⟩
  intro hp
  apply hne
  rw [hp, h.null]
  rfl

theorem ne_null_of_parent (hp : (v.entry e).parent ≠ none) : e ≠ v.nullEntry := by
  intro he
  apply hp
  rw [he, h.null]
  rfl

theorem ne_null_of_vnode (hp : (v.entry e).vnode ≠ none) : e ≠ v.nullEntry := by
  intro he
  apply hp
  rw [he, h.null]
  rfl

/-- An entry is made; it is in no list yet. -/
theorem alloc {y : Entry} (hhash : y.nameHash = Fishix.hash y.name)
    (hred : ∀ r, y.redirect = some r → r < v.entries.length)
    (hnode : ∀ n, y.vnode = some n → n < v.nodes.length) (hch : y.children = [])
    (hparent : ∀ p, y.parent = some p → (v.entry p).vnode ≠ none) : Forest (v.alloc y).2 := by
  have hent : ∀ x, (v.alloc y).2.entry x = if x = v.entries.length then y else v.entry x :=
    fun x => Vfs.alloc_entry y
  have hold : ∀ x, x < v.entries.length → (v.alloc y).2.entry x = v.entry x := by
    intro x hx
    rw [hent, if_neg (Nat.ne_of_lt hx)]
  have hlen : (v.alloc y).2.entries.length = v.entries.length + 1 := by simp [Vfs.alloc]
  have hroot := Vfs.lt_of_vnode h.root_node
  have hkids : ∀ p e, e ∈ ((v.alloc y).2.entry p).children → e ∈ (v.entry p).children := by
    intro p e he
    rw [hent] at he
    split_ifs at he with hp
    · simp [hch] at he
    · exact he
  refine ⟨?_, ?_, ?_, ?_, ?_, ?_, ?_, ?_, ?_, ?_, ?_, ?_, ?_⟩
  · intro p e he
    have he := hkids p e he
    rw [hold e (h.listed_lt he)]
    exact h.parent_of he
  · intro p e he
    rw [hlen]
    exact Nat.lt_succ_of_lt (h.listed_lt (hkids p e he))
  · intro e r hr
    rw [hent] at hr
    split_ifs at hr with he
    · rw [he]
      exact hred r hr
    · exact h.redirect_lt hr
  · intro e
    rw [hent]
    split_ifs
    · exact hhash
    · exact h.hash e
  · intro e n hn
    rw [hent] at hn
    split_ifs at hn
    · exact hnode n hn
    · exact h.vnode_lt hn
  · intro e hn
    rw [hent] at hn ⊢
    split_ifs at hn ⊢
    · exact hch
    · exact h.childless hn
  · intro e p hp
    have hnode : (v.entry p).vnode ≠ none := by
      rw [hent] at hp
      split_ifs at hp
      · exact hparent p hp
      · exact h.parent_node hp
    rw [hold p (Vfs.lt_of_vnode hnode)]
    exact hnode
  · intro e p hp
    rw [hent] at hp
    split_ifs at hp with he
    · rw [he]
      exact Vfs.lt_of_vnode (hparent p hp)
    · exact h.parent_lt hp
  · rw [show (v.alloc y).2.root = v.root from rfl, hold _ hroot]
    exact h.root_parent
  · rw [show (v.alloc y).2.root = v.root from rfl, hold _ hroot]
    exact h.root_redirect
  · rw [show (v.alloc y).2.root = v.root from rfl, hold _ hroot]
    exact h.root_node
  · rw [show (v.alloc y).2.nullEntry = v.nullEntry from rfl, hold _ h.null_lt]
    exact h.null
  · rw [hlen]
    exact Nat.lt_succ_of_lt h.null_lt

/-- A change of one entry that leaves its parent, its name and its redirection. -/
theorem update {f : Entry → Entry} (hparent : (f (v.entry e)).parent = (v.entry e).parent)
    (hred : (f (v.entry e)).redirect = (v.entry e).redirect)
    (hname : (f (v.entry e)).name = (v.entry e).name)
    (hhash : (f (v.entry e)).nameHash = (v.entry e).nameHash)
    (hnode : ∀ n, (f (v.entry e)).vnode = some n → n < v.nodes.length)
    (hneg : (f (v.entry e)).vnode = none → (f (v.entry e)).children = [])
    (hkeep : (v.entry e).vnode ≠ none → (f (v.entry e)).vnode ≠ none)
    (hkids : ∀ x ∈ (f (v.entry e)).children, (v.entry x).parent = some e ∧ x < v.entries.length)
    (hnull : e ≠ v.nullEntry) : Forest (v.updateEntry e f) := by
  have hent : ∀ x, (v.updateEntry e f).entry x = if x = e ∧ e < v.entries.length then f (v.entry e)
      else v.entry x := fun x => Vfs.updateEntry_entry f
  have hfields : ∀ x, ((v.updateEntry e f).entry x).parent = (v.entry x).parent ∧
      ((v.updateEntry e f).entry x).redirect = (v.entry x).redirect ∧
      ((v.updateEntry e f).entry x).name = (v.entry x).name ∧
      ((v.updateEntry e f).entry x).nameHash = (v.entry x).nameHash := by
    intro x
    rw [hent]
    split_ifs with hx
    · rw [hx.1]
      exact ⟨hparent, hred, hname, hhash⟩
    · exact ⟨rfl, rfl, rfl, rfl⟩
  refine ⟨?_, ?_, ?_, ?_, ?_, ?_, ?_, ?_, ?_, ?_, ?_, ?_, ?_⟩
  · intro p x hx
    rw [(hfields x).1]
    rw [hent] at hx
    split_ifs at hx with hp
    · rw [hp.1]
      exact (hkids x hx).1
    · exact h.parent_of hx
  · intro p x hx
    rw [Vfs.updateEntry_length]
    rw [hent] at hx
    split_ifs at hx with hp
    · exact (hkids x hx).2
    · exact h.listed_lt hx
  · intro x r hr
    rw [(hfields x).2.1] at hr
    exact h.redirect_lt hr
  · intro x
    rw [(hfields x).2.2.1, (hfields x).2.2.2]
    exact h.hash x
  · intro x n hn
    rw [hent] at hn
    split_ifs at hn
    · exact hnode n hn
    · exact h.vnode_lt hn
  · intro x hn
    rw [hent] at hn ⊢
    split_ifs at hn ⊢
    · exact hneg hn
    · exact h.childless hn
  · intro x p hp
    rw [(hfields x).1] at hp
    rw [hent]
    split_ifs with hx
    · exact hkeep (hx.1 ▸ h.parent_node hp)
    · exact h.parent_node hp
  · intro x p hp
    rw [(hfields x).1] at hp
    exact h.parent_lt hp
  · exact (hfields v.root).1.trans h.root_parent
  · exact (hfields v.root).2.1.trans h.root_redirect
  · rw [Vfs.updateEntry_root, hent]
    split_ifs with hr
    · exact hkeep (hr.1 ▸ h.root_node)
    · exact h.root_node
  · rw [Vfs.updateEntry_nullEntry, hent, if_neg (fun hn => hnull hn.1.symm)]
    exact h.null
  · simpa using h.null_lt

theorem addChild (hp : (v.entry e).parent = some p) (he : e < v.entries.length)
    (hnode : (v.entry p).vnode ≠ none) : Forest (v.addChild p e) := by
  refine h.update rfl rfl rfl rfl (fun n hn => h.vnode_lt hn) (fun hn => absurd hn hnode) id ?_
    (h.ne_null_of_vnode hnode)
  intro x hx
  rcases List.mem_cons.mp hx with rfl | hx
  · exact ⟨hp, he⟩
  · exact ⟨h.parent_of hx, h.listed_lt hx⟩

theorem setNode {n : VNodeId} (he : e ≠ v.nullEntry) (hn : n < v.nodes.length) :
    Forest (v.setNode e (some n)) := by
  refine h.update rfl rfl rfl rfl ?_ (fun hn => by simp at hn) (fun _ => by simp) ?_ he
  · intro m hm
    obtain rfl : n = m := Option.some.inj hm
    exact hn
  · exact fun x hx => ⟨h.parent_of hx, h.listed_lt hx⟩

theorem unlink (hp : p ≠ v.nullEntry) : Forest (v.unlink p e) := by
  refine h.update rfl rfl rfl rfl (fun n hn => h.vnode_lt hn) ?_ id ?_ hp
  · intro hn
    simp [h.childless hn]
  · intro x hx
    have hx := List.mem_of_mem_erase hx
    exact ⟨h.parent_of hx, h.listed_lt hx⟩

theorem addMissing (hp : (v.entry e).parent = some p) : Forest (v.addMissing p e) := by
  unfold Vfs.addMissing
  split
  · exact h
  · exact h.addChild hp (Vfs.lt_of_parent (by simp [hp])) (h.parent_node hp)

theorem newChild {y : Entry} (hhash : y.nameHash = Fishix.hash y.name)
    (hred : ∀ r, y.redirect = some r → r < v.entries.length)
    (hnode : ∀ n, y.vnode = some n → n < v.nodes.length) (hch : y.children = [])
    (hparent : y.parent = some d) (hd : (v.entry d).vnode ≠ none) :
    Forest ((v.alloc y).2.addChild d v.entries.length) := by
  have halloc := h.alloc hhash hred hnode hch fun p hp => by
    obtain rfl : d = p := Option.some.inj (hparent.symm.trans hp)
    exact hd
  refine halloc.addChild ?_ (by simp [Vfs.alloc]) ?_
  · rw [Vfs.alloc_entry, if_pos rfl]
    exact hparent
  · rw [Vfs.alloc_entry, if_neg (Nat.ne_of_lt (Vfs.lt_of_vnode hd))]
    exact hd

theorem negative (hd : (v.entry d).vnode ≠ none) : Forest (v.negative d c) :=
  h.newChild rfl (by simp [Entry.construct]) (by simp [Entry.construct]) rfl rfl hd

theorem addDots (hp : p < v.entries.length) (he : (v.entry e).vnode ≠ none) :
    Forest (v.addDots p e) := by
  have hlt := Vfs.lt_of_vnode he
  have hdot : Forest ((v.alloc (Entry.construct (v.entry e).vnode (some e) (chars ".") (some e))).2.addChild
      e v.entries.length) := by
    refine h.newChild rfl ?_ (fun n hn => h.vnode_lt hn) rfl rfl he
    intro r hr
    obtain rfl : e = r := Option.some.inj hr
    exact hlt
  refine hdot.newChild rfl ?_ (fun n hn => hdot.vnode_lt hn) rfl rfl ?_
  · intro r hr
    obtain rfl : p = r := Option.some.inj hr
    simp only [Vfs.addChild, Vfs.updateEntry_length, Vfs.alloc, List.length_append]
    exact Nat.lt_succ_of_lt hp
  · rw [Vfs.addChild_entry, Vfs.alloc_entry, if_neg (Nat.ne_of_lt hlt)]
    split_ifs
    · exact he
    · exact he

theorem enter (hp : (v.entry e).parent = some p) (he : (v.entry e).vnode ≠ none) :
    Forest (v.enter p e) := by
  have hadd := h.addMissing hp
  have hkeep : ((v.addMissing p e).entry e).vnode = (v.entry e).vnode := by
    unfold Vfs.addMissing
    split
    · rfl
    · rw [Vfs.addChild_entry]
      split_ifs with hx
      · rw [hx.1]
      · rfl
  have hlen : (v.addMissing p e).entries.length = v.entries.length := by
    unfold Vfs.addMissing
    split
    · rfl
    · exact Vfs.updateEntry_length _
  unfold Vfs.enter
  simp only
  split_ifs
  · refine hadd.addDots ?_ (by rw [hkeep]; exact he)
    rw [hlen]
    exact Vfs.lt_of_vnode (h.parent_node hp)
  · exact hadd

theorem place {n : VNodeId} (hp : (v.entry e).parent = some p) (hn : n < v.nodes.length) :
    Forest (v.place p e n) := by
  have hlt : e < v.entries.length := Vfs.lt_of_parent (by simp [hp])
  have hne : e ≠ v.nullEntry := h.ne_null_of_parent (by simp [hp])
  have hset := h.setNode hne hn
  refine hset.enter ?_ ?_
  · rw [Vfs.setNode_entry, if_pos ⟨rfl, hlt⟩]
    exact hp
  · rw [Vfs.setNode_entry, if_pos ⟨rfl, hlt⟩]
    simp

theorem pushNode (y : VNode) : Forest (v.pushNode y) := by
  refine ⟨h.parent_of, h.listed_lt, h.redirect_lt, h.hash, ?_, h.childless, h.parent_node, h.parent_lt, h.root_parent,
    h.root_redirect, h.root_node, h.null, h.null_lt⟩
  intro e n hn
  simp only [Vfs.pushNode, List.length_append]
  exact Nat.lt_succ_of_lt (h.vnode_lt (e := e) hn)

theorem modifyNode (n : VNodeId) (f : VNode → VNode) :
    Forest { v with nodes := v.nodes.modify n f } := by
  refine ⟨h.parent_of, h.listed_lt, h.redirect_lt, h.hash, ?_, h.childless, h.parent_node, h.parent_lt, h.root_parent,
    h.root_redirect, h.root_node, h.null, h.null_lt⟩
  intro e m hm
  have := h.vnode_lt (e := e) hm
  simpa using this

end

end Forest

/-! ## Redirection -/

theorem Forest.redirect_reduce {v : Vfs} (h : Forest v) (e : EntryId) :
    (v.entry (v.reduce e)).redirect = none := by
  have hfuel : ∀ n e, e < n → (v.entry (v.reduceFuel n e)).redirect = none := by
    intro n
    induction n with
    | zero => exact fun e he => absurd he (Nat.not_lt_zero e)
    | succ n ih =>
      intro e he
      unfold Vfs.reduceFuel
      cases hr : (v.entry e).redirect with
      | none => exact hr
      | some r =>
        exact ih r (Nat.lt_of_lt_of_le (h.redirect_lt hr) (Nat.le_of_lt_succ he))
  by_cases he : e < v.entries.length
  · exact hfuel _ e he
  · -- an entry that is not there is not redirected
    have hent := Vfs.entry_of_le (Nat.le_of_not_lt he)
    have hself : v.reduce e = e := by
      unfold Vfs.reduce
      cases v.entries.length with
      | zero => rfl
      | succ n => simp [Vfs.reduceFuel, hent, Entry.construct]
    rw [hself, hent]
    rfl

theorem Vfs.reduce_of_redirect {v : Vfs} {e : EntryId} (h : (v.entry e).redirect = none) :
    v.reduce e = e := by
  unfold Vfs.reduce
  cases v.entries.length with
  | zero => rfl
  | succ n => simp [Vfs.reduceFuel, h]

end Fishix.Fs
