import Fishix.Fs.Vfs

/-!
# What a path names

`step` says what a path is for: the components between the slashes are looked up one after
the other, `.` and `..` are the directory itself and its parent, and a symlink on the way
stands for its target, read from the directory that holds the link. `Resolves` is where that
ends.

`path_to_entry` keeps a remaining length beside its pointer and does not count a duplicate
slash off it (fs/vfs.cpp:206-208). Behind a duplicate slash a trailing slash is therefore not
seen as one, and a symlink at the end is followed by what stands behind the string.
`Clean` says which paths stay clear of this, of a link without text, of the end of `new_path` and of
a directory without entries for `.` and `..`, as far as the walk gets.

* `lookup_child`: `lookup` against the abstract `child`.
* `walk_reads`: one call.
* `pathToEntry_resolves`: the whole resolution.
-/

namespace Fishix.Fs

open Vfs

/-! ## Resolution -/

namespace Vfs

/-- The type of the entry's node. -/
def typeOf (v : Vfs) (e : EntryId) : Option NodeType := (v.node e).map (·.nodeType)

/-- The text of a symlink. -/
def target (v : Vfs) (e : EntryId) : Option (List CChar) := (v.node e).bind (·.data)

/-- The directory that holds `d`, and the root for the root. -/
def parentOf (v : Vfs) (d : EntryId) : EntryId := (v.entry d).parent.getD d

/-- What the component `c` names in the directory `d`. -/
def child (v : Vfs) (d : EntryId) (c : Name) : Option EntryId :=
  if c = chars "." then some d
  else if c = chars ".." then some (v.parentOf d)
  else (v.findChild d c).filter fun e => (v.node e).isSome

/-- Where a path or a link target that is read in `d` starts. -/
def origin (v : Vfs) (d : EntryId) (p : List CChar) : EntryId :=
  if p.head? = some slash then v.root else d

/-- A symlink that is replaced by its target: any but the last component, and the last one
    when it is to be followed. -/
def Followed (v : Vfs) (follow : Bool) (e : EntryId) (rest : List Name) : Prop :=
  v.typeOf e = some .symlink ∧ (rest ≠ [] ∨ follow)

instance (v : Vfs) (follow : Bool) (e : EntryId) (rest : List Name) :
    Decidable (v.Followed follow e rest) :=
  inferInstanceAs (Decidable (_ ∧ _))

end Vfs

/-- One step of the resolution: it ends, or goes on with components from a directory. -/
inductive Step
  | stop (result : Option EntryId)
  | go (dir : EntryId) (rest : List Name)

def step (v : Vfs) (follow : Bool) (d : EntryId) : List Name → Step
  | [] => .stop (some d)
  | c :: cs =>
    if v.typeOf d ≠ some .directory then .stop none
    else
      match v.child d c with
      | none => .stop none
      | some e =>
        if v.Followed follow e cs then
          match v.target e with
          | none => .stop none
          | some t => .go (v.origin d t) (components slash t ++ cs)
        else if cs = [] then .stop (some e)
        else .go (v.reduce e) cs

/-- The components from a directory on reach an entry, or `none` when that fails. -/
inductive Resolves (v : Vfs) (follow : Bool) : EntryId → List Name → Option EntryId → Prop
  | stop {d : EntryId} {cs : List Name} {r : Option EntryId} (h : step v follow d cs = .stop r) :
      Resolves v follow d cs r
  | go {d d' : EntryId} {cs cs' : List Name} {r : Option EntryId}
      (h : step v follow d cs = .go d' cs') (rest : Resolves v follow d' cs' r) :
      Resolves v follow d cs r

/-- A path names at most one thing. -/
theorem Resolves.unique {v : Vfs} {follow : Bool} {d : EntryId} {cs : List Name}
    {r r' : Option EntryId} (h : Resolves v follow d cs r) (h' : Resolves v follow d cs r') :
    r = r' := by
  induction h with
  | stop h =>
    cases h' with
    | stop h' =>
      rw [h] at h'
      exact Step.stop.inj h'
    | go h' _ => simp [h] at h'
  | go h _ ih =>
    cases h' with
    | stop h' => simp [h] at h'
    | go h' rest =>
      rw [h, Step.go.injEq] at h'
      obtain ⟨rfl, rfl⟩ := h'
      exact ih rest

/-! ## Trees -/

/-- What the entries of a tree keep: the root is a directory, redirections end at an entry with a
    node, and the null entry has none. -/
structure TreeOk (v : Vfs) : Prop where
  hash : ∀ e, (v.entry e).nameHash = Fishix.hash (v.entry e).name
  reduce_reduce : ∀ e, v.reduce (v.reduce e) = v.reduce e
  node_reduce : ∀ e, (v.node e).isSome → (v.node (v.reduce e)).isSome
  root_reduced : v.reduce v.root = v.root
  root_directory : v.typeOf v.root = some .directory
  null : v.node v.nullEntry = none

/-- The directory `d` has an entry for the component if that is `.` or `..`. -/
structure HasDots (v : Vfs) (d : EntryId) (c : Name) : Prop where
  dot : c = chars "." →
    ∃ e, v.findChild d c = some e ∧ v.reduce e = d ∧ v.typeOf e = some .directory
  dotdot : c = chars ".." → ∃ e, v.findChild d c = some e ∧
    v.reduce e = v.reduce (v.parentOf d) ∧ v.typeOf e = some .directory ∧
    v.typeOf (v.parentOf d) = some .directory

namespace Vfs

theorem typeOf_eq_some {v : Vfs} {e : EntryId} {t : NodeType} :
    v.typeOf e = some t ↔ ∃ n, v.node e = some n ∧ n.nodeType = t := by
  simp [typeOf]

theorem entry_alloc (v : Vfs) (x : Entry) (hx : x.vnode = none) (e : EntryId) :
    ((v.alloc x).2.entry e).vnode = (v.entry e).vnode := by
  unfold entry alloc
  rcases Nat.lt_trichotomy e v.entries.length with h | h | h
  · simp [List.getElem?_append_left h]
  · simp [h, hx, Entry.construct]
  · have h1 : v.entries.length ≤ e := by omega
    have h2 : (v.entries ++ [x]).length ≤ e := by simpa using h
    simp [List.getElem?_eq_none h1, List.getElem?_eq_none h2]

theorem entry_addChild (v : Vfs) (p c e : EntryId) :
    ((v.addChild p c).entry e).vnode = (v.entry e).vnode := by
  unfold entry addChild updateEntry
  simp only [List.getD_eq_getElem?_getD, List.getElem?_modify]
  cases v.entries[e]? with
  | none => simp
  | some x => by_cases h : p = e <;> simp [h]

/-- A lookup leaves every entry with the node it had, the new entry without one. -/
theorem node_lookup (v : Vfs) (d : EntryId) (c : Name) (e : EntryId) :
    (v.lookup d c).2.node e = v.node e := by
  unfold lookup
  split
  · rfl
  · have halloc : (v.alloc (Entry.construct none (some d) c none)).2.node e = v.node e := by
      unfold node
      rw [entry_alloc _ _ rfl]
      rfl
    simp only
    split
    · exact halloc
    · rw [← halloc]
      unfold node
      rw [entry_addChild]
      rfl

theorem node_lookup_new {v : Vfs} {d : EntryId} {c : Name} (h : v.findChild d c = none) :
    v.node (v.lookup d c).1 = none := by
  have : (v.lookup d c).1 = v.entries.length := by
    unfold lookup
    rw [h]
    simp only
    split <;> rfl
  rw [this]
  simp [node, entry, Entry.construct]

end Vfs

theorem dotdot_ne_dot : chars ".." ≠ chars "." := by decide

/-- `TreeOk` for one entry, as a test. -/
def Vfs.entryOk (v : Vfs) (e : EntryId) : Bool :=
  (v.entry e).nameHash = hash (v.entry e).name ∧ v.reduce (v.reduce e) = v.reduce e ∧
    ((v.node e).isSome → (v.node (v.reduce e)).isSome)

/-- A tree is checked entry by entry. -/
theorem treeOk_of_entries {v : Vfs} (h : ∀ e < v.entries.length, v.entryOk e)
    (hroot : v.reduce v.root = v.root ∧ v.typeOf v.root = some .directory)
    (hnull : v.node v.nullEntry = none) : TreeOk v := by
  have hdefault : ∀ e, v.entries.length ≤ e → v.entry e = Entry.construct none none [] none := by
    intro e he
    simp [entry, List.getElem?_eq_none he]
  have hall : ∀ e, v.entryOk e := by
    intro e
    by_cases he : e < v.entries.length
    · exact h e he
    · have hent := hdefault e (Nat.le_of_not_lt he)
      have hnode : v.node e = none := by simp [node, hent, Entry.construct]
      have hred : ∀ n, v.reduceFuel n e = e := by
        intro n
        cases n with
        | zero => rfl
        | succ n => simp [reduceFuel, hent, Entry.construct]
      have hr : v.reduce e = e := hred _
      simp [entryOk, hent, hr, hnode, Entry.construct]
  have hof := fun e => of_decide_eq_true (hall e)
  exact ⟨fun e => (hof e).1, fun e => (hof e).2.1, fun e => (hof e).2.2, hroot.1, hroot.2, hnull⟩

theorem treeOk_booted : TreeOk booted :=
  treeOk_of_entries (by decide) (by decide) (by decide)

/-- What `lookup` finds for a component of a directory: nothing, and then an entry without
    node; or the entry the component names, up to redirection. -/
theorem lookup_child {v : Vfs} {d : EntryId} {c : Name} (hd : v.typeOf d = some .directory)
    (hr : v.reduce d = d) (dots : HasDots v d c) :
    (v.child d c = none ∧ v.node (v.lookup d c).1 = none) ∨
    ∃ x e, v.child d c = some x ∧ v.lookup d c = (e, v) ∧ (v.node e).isSome ∧
      v.reduce e = v.reduce x ∧ v.typeOf e = v.typeOf x ∧
      (v.typeOf x = some .symlink → e = x) := by
  by_cases hdot : c = chars "."
  · obtain ⟨e, he, her, het⟩ := dots.dot hdot
    refine .inr ⟨d, e, by simp [child, hdot], by simp [lookup, he], ?_, ?_, ?_, ?_⟩
    · obtain ⟨n, hn, -⟩ := typeOf_eq_some.mp het
      simp [hn]
    · rw [her, hr]
    · rw [het, hd]
    · intro hs
      simp [hd] at hs
  by_cases hdd : c = chars ".."
  · obtain ⟨e, he, her, het, hpt⟩ := dots.dotdot hdd
    refine .inr ⟨v.parentOf d, e, by simp [child, hdd, dotdot_ne_dot], by simp [lookup, he], ?_,
      her, by rw [het, hpt], ?_⟩
    · obtain ⟨n, hn, -⟩ := typeOf_eq_some.mp het
      simp [hn]
    · intro hs
      simp [hpt] at hs
  have hchild : v.child d c = (v.findChild d c).filter fun e => (v.node e).isSome := by
    simp [child, hdot, hdd]
  rw [hchild]
  cases hf : v.findChild d c with
  | none => exact .inl ⟨rfl, node_lookup_new hf⟩
  | some e =>
    have hlookup : v.lookup d c = (e, v) := by simp [lookup, hf]
    cases hn : v.node e with
    | none => exact .inl ⟨by simp [hn], by rw [hlookup, hn]⟩
    | some n => exact .inr ⟨e, e, by simp [hn], hlookup, by simp [hn], rfl, rfl, fun _ => rfl⟩

/-! ## Strings -/

/-- The path behind a leading slash. -/
def body (p : List CChar) : List CChar := if p.head? = some slash then p.tail else p

/-- The number of slashes with no component before them, `start` telling whether the text starts
    a component. -/
def skips (start : Bool) : List CChar → ℕ
  | [] => 0
  | c :: p => if c = slash then (if start then 1 else 0) + skips true p else skips false p

/-- On the way along the text `p` from `d`, up to the first symlink, the component `c` is looked up
    in the directory `d'`, with the text `s` behind it. -/
inductive LooksUp (v : Vfs) : EntryId → List CChar → EntryId → Name → List CChar → Prop
  | slash {d d' : EntryId} {c p s : List CChar} (h : LooksUp v d p d' c s) :
      LooksUp v d (slash :: p) d' c s
  | here {d : EntryId} {c s : List CChar} (name : slash ∉ c) (nonempty : c ≠ [])
      (dir : v.typeOf d = some .directory) (text : s = [] ∨ s.head? = some slash) :
      LooksUp v d (c ++ s) d c s
  | into {d d' x : EntryId} {c c' p s : List CChar} (name : slash ∉ c) (nonempty : c ≠ [])
      (dir : v.typeOf d = some .directory) (child : v.child d c = some x)
      (plain : v.typeOf x ≠ some .symlink) (h : LooksUp v (v.reduce x) p d' c' s) :
      LooksUp v d (c ++ Fs.slash :: p) d' c' s

/-- The first symlink to follow on the way along the text `p` from `d`: the link `e` in the
    directory `d'`, with the text `s` behind it. -/
inductive LinkAt (v : Vfs) (follow : Bool) :
    EntryId → List CChar → EntryId → EntryId → List CChar → Prop
  | slash {d d' e : EntryId} {p s : List CChar} (h : LinkAt v follow d p d' e s) :
      LinkAt v follow d (slash :: p) d' e s
  | here {d e : EntryId} {c s : List CChar} (name : slash ∉ c) (nonempty : c ≠ [])
      (dir : v.typeOf d = some .directory) (child : v.child d c = some e)
      (followed : v.Followed follow e (components slash s))
      (text : s = [] ∨ s.head? = some slash) : LinkAt v follow d (c ++ s) d e s
  | into {d d' e x : EntryId} {c p s : List CChar} (name : slash ∉ c) (nonempty : c ≠ [])
      (dir : v.typeOf d = some .directory) (child : v.child d c = some x)
      (plain : v.typeOf x ≠ some .symlink) (h : LinkAt v follow (v.reduce x) p d' e s) :
      LinkAt v follow d (c ++ Fs.slash :: p) d' e s

theorem LinkAt.rest {v : Vfs} {follow : Bool} {d d' e : EntryId} {p s : List CChar}
    (h : LinkAt v follow d p d' e s) : s = [] ∨ s.head? = some Fs.slash := by
  induction h with
  | slash _ ih => exact ih
  | here _ _ _ _ _ text => exact text
  | into _ _ _ _ _ _ ih => exact ih

/-- A directory and a path read from it. -/
abbrev Place := EntryId × List CChar

/-- The first symlink of the path is replaced by its target. -/
def Expands (v : Vfs) (follow : Bool) (a b : Place) : Prop :=
  ∃ d e s t, LinkAt v follow (v.origin a.1 a.2) a.2 d e s ∧ v.target e = some t ∧ b = (d, t ++ s)

/-- The memory from the NUL on where the last component `c` is looked up in `d` with `k` duplicate
    slashes behind: so many bytes are copied, and there is a NUL again if a symlink is followed. -/
structure BehindOk (v : Vfs) (follow : Bool) (d : EntryId) (c : Name) (tail : List CChar) (k : ℕ) :
    Prop where
  readable : k ≤ (0#8 :: tail).length
  terminated : ∀ e, v.child d c = some e → v.Followed follow e [] → (0#8 :: tail)[k]? = some 0#8

/-- The bytes `path` points to: the text, the NUL and what stands behind it, which matters where the
    walk from `d` gets to the last component. -/
structure PathAt (v : Vfs) (follow : Bool) (d : EntryId) (p tail : List CChar) : Prop where
  terminated : 0#8 ∉ p
  behind : ∀ d' c, LooksUp v (v.origin d p) p d' c [] →
    BehindOk v follow d' c tail (skips true (body p))

/-- A link target and the text behind it, as `new_path` takes them. -/
structure LinkFits (v : Vfs) (follow : Bool) (d : EntryId) (t s : List CChar) : Prop where
  nonempty : t ≠ []
  short : t.length ≤ 127
  fits : (t ++ s).length < newPathSize
  pathAt : PathAt v follow d (t ++ s) (List.replicate (255 - (t ++ s).length) 0#8)

/-- The path of a place, the directories on it and the link met first are such that one call reads
    them as they are meant. -/
structure Clean (v : Vfs) (follow : Bool) (a : Place) : Prop where
  named : a.2 = [slash] ∨ components slash a.2 ≠ []
  /-- Once slashes have been skipped, there is none behind the last component. -/
  trailing : ∀ d c s, LooksUp v (v.origin a.1 a.2) a.2 d c s → components slash s = [] →
    s = [] ∨ skips true (body a.2) = 0
  dots : ∀ d c s, LooksUp v (v.origin a.1 a.2) a.2 d c s → HasDots v d c
  links : ∀ d e s t, LinkAt v follow (v.origin a.1 a.2) a.2 d e s → v.target e = some t →
    LinkFits v follow d t s

theorem skips_component {c : List CChar} (hc : slash ∉ c) (hne : c ≠ []) (q : List CChar) :
    skips true (c ++ slash :: q) = skips true q := by
  have hfalse : ∀ c : List CChar, slash ∉ c → skips false (c ++ slash :: q) = skips true q := by
    intro c hc
    induction c with
    | nil => simp [skips]
    | cons b c ih =>
      have hb : b ≠ slash := fun h => hc (by simp [h])
      have hc' : slash ∉ c := fun h => hc (List.mem_cons_of_mem _ h)
      simp [skips, hb, ih hc']
  cases c with
  | nil => exact absurd rfl hne
  | cons b c =>
    have hb : b ≠ slash := fun h => hc (by simp [h])
    have hc' : slash ∉ c := fun h => hc (List.mem_cons_of_mem _ h)
    simp [skips, hb, hfalse c hc']

theorem skips_of_not_mem {p : List CChar} (hp : slash ∉ p) (start : Bool) : skips start p = 0 := by
  induction p generalizing start with
  | nil => rfl
  | cons b p ih =>
    have hb : b ≠ slash := fun h => hp (by simp [h])
    have hp' : slash ∉ p := fun h => hp (List.mem_cons_of_mem _ h)
    simp [skips, hb, ih hp']

/-- Text is one component, or starts with a component and a slash, or with a slash. -/
theorem split_text (p : List CChar) :
    slash ∉ p ∨ ∃ c q, p = c ++ slash :: q ∧ slash ∉ c := by
  by_cases h : slash ∈ p
  · exact .inr (List.eq_append_cons_of_mem h)
  · exact .inl h

/-- Text that may still be read has a component. -/
theorem components_ne_nil {p : List CChar} {k : ℕ} (hp : p ≠ [])
    (h : k + skips true p = 0 ∨ p.getLast? ≠ some slash) : components slash p ≠ [] := by
  induction p generalizing k with
  | nil => exact absurd rfl hp
  | cons a q ih =>
    by_cases ha : a = slash
    · subst ha
      have hlast : (slash :: q).getLast? ≠ some slash := by
        rcases h with h | h
        · simp [skips] at h
        · exact h
      have hq : q ≠ [] := by
        rintro rfl
        simp at hlast
      rw [components_sep]
      apply ih (k := 0) hq
      right
      rwa [List.getLast?_cons_of_ne_nil hq] at hlast
    · rcases split_text (a :: q) with hno | ⟨c, r, hc, hno⟩
      · rw [components_single hno hp]
        simp
      · have hne : c ≠ [] := by
          rintro rfl
          simp only [List.nil_append, List.cons.injEq] at hc
          exact ha hc.1
        rw [hc, components_cons hno hne]
        simp

/-! ## One call -/

/-- The entry `e` that is returned with the tree `v'` is what the resolution reached. -/
def Names (v v' : Vfs) (e : EntryId) : Option EntryId → Prop
  | some x => (v.node e).isSome ∧ v.reduce e = v.reduce x ∧ v' = v
  | none => v'.node e = none

/-- What one call makes of the text `p` read from `d`. -/
def Reads (v : Vfs) (follow : Bool) (d : EntryId) (p : List CChar) : Turn → Prop
  | .done e v' => ∃ r, Resolves v follow d (components slash p) r ∧ Names v v' e r
  | .expand m d' => ∃ e s t, LinkAt v follow d p d' e s ∧ v.target e = some t ∧
      v.reduce d' = d' ∧ (v.node d').isSome ∧ 0#8 ∉ s ∧
      m = (t ++ s) ++ 0#8 :: List.replicate (255 - (t ++ s).length) 0#8 ∧
      ∀ r, Resolves v follow (v.origin d' t) (components slash t ++ components slash s) r →
        Resolves v follow d (components slash p) r

/-- The loop body for the component `c` with the text `s` behind it, which the memory `rest` holds
    if a symlink is followed. -/
theorem component_reads {v : Vfs} (hv : TreeOk v) (follow last : Bool) {d : EntryId}
    (c s rest : List CChar) (hd : v.typeOf d = some .directory) (hr : v.reduce d = d)
    (hc : slash ∉ c) (hne : c ≠ []) (hs : s = [] ∨ s.head? = some slash) (h0 : 0#8 ∉ s)
    (hlast : last = decide (components slash s = [])) (dots : HasDots v d c)
    (hrest : ∀ e, v.child d c = some e → v.Followed follow e (components slash s) →
      ∃ tail, rest = s ++ 0#8 :: tail)
    (links : ∀ e t, LinkAt v follow d (c ++ s) d e s → v.target e = some t →
      LinkFits v follow d t s) :
    ∃ w, component v follow d c last rest = .ok w ∧
      match w with
      | .inl turn => Reads v follow d (c ++ s) turn
      | .inr e => last = false ∧ ∃ x, v.child d c = some x ∧ v.typeOf x ≠ some .symlink ∧
          v.reduce e = v.reduce x ∧ (v.node e).isSome := by
  have hcs : components slash (c ++ s) = c :: components slash s := by
    rw [components_append hs, components_single hc hne, List.singleton_append]
  unfold component
  rcases lookup_child hd hr dots with ⟨hnone, hnode⟩ | ⟨x, e, hx, hlook, hsome, hred, htype, hlink⟩
  · -- the component names nothing
    have hnode' : (v.lookup d c).2.node (v.lookup d c).1 = none := by rw [node_lookup, hnode]
    refine ⟨.inl (.done (if last then (v.lookup d c).1 else v.nullEntry) (v.lookup d c).2), ?_, none,
      ?_, ?_⟩
    · simp only [hnode']
      rfl
    · rw [hcs]
      exact .stop (by simp [step, hd, hnone])
    · show (v.lookup d c).2.node _ = none
      rw [node_lookup]
      split
      · exact hnode
      · exact hv.null
  · obtain ⟨n, hn⟩ := Option.isSome_iff_exists.mp hsome
    have htn : v.typeOf e = some n.nodeType := by simp [typeOf, hn]
    have hfollow : ((!last || follow) = true ∧ n.nodeType = .symlink) ↔
        v.Followed follow x (components slash s) := by
      unfold Vfs.Followed
      rw [← htype, htn, hlast]
      simp only [Bool.or_eq_true, Bool.not_eq_eq_eq_not, Bool.not_true, decide_eq_false_iff_not,
        Option.some.injEq]
      exact and_comm
    simp only [hlook, hn]
    by_cases hf : v.Followed follow x (components slash s)
    · -- a symlink that is replaced by its target
      rw [if_pos (hfollow.mpr hf)]
      obtain rfl : e = x := hlink hf.1
      have hnsym : n.nodeType = .symlink := (hfollow.mpr hf).2
      have hread : v.readStart e 128 = (v.target e).map (·.take 128) := by
        simp [readStart, target, hn, hnsym]
      rw [hread]
      cases ht : v.target e with
      | none =>
        refine ⟨_, rfl, none, ?_, hv.null⟩
        rw [hcs]
        exact .stop (by simp [step, hd, hx, hf, ht])
      | some t =>
        have hat : LinkAt v follow d (c ++ s) d e s := .here hc hne hd hx hf hs
        have fits := links e t hat ht
        have htake : t.take 128 = t := List.take_of_length_le (by have := fits.short; omega)
        have hlen : (t ++ s).length < 256 := by
          have := fits.fits
          unfold newPathSize at this
          omega
        rw [List.length_append] at hlen
        obtain ⟨tail, rfl⟩ := hrest e hx hf
        simp only [Option.map_some, htake]
        rw [if_neg (by have := fits.short; omega)]
        have hnew : newPath t (s ++ 0#8 :: tail) =
            .ok ((t ++ s) ++ 0#8 :: List.replicate (255 - (t ++ s).length) 0#8) := by
          unfold newPath newPathSize
          rw [strlen_append h0, cstr_append h0]
          show (if t.length + s.length + 1 ≤ 256 then _ else _) = _
          rw [if_pos (by omega), ← List.replicate_succ, List.length_append]
          congr 3
          omega
        rw [hnew]
        refine ⟨_, rfl, e, s, t, hat, ht, hr, ?_, h0, rfl, ?_⟩
        · obtain ⟨m, hm, -⟩ := typeOf_eq_some.mp hd
          simp [hm]
        · intro r h
          rw [hcs]
          exact .go (by simp [step, hd, hx, hf, ht]) h
    · rw [if_neg (fun h => hf (hfollow.mp h))]
      cases hl : last with
      | true =>
        have hnil : components slash s = [] := by simpa [hl] using hlast.symm
        refine ⟨_, rfl, some x, ?_, hsome, hred, rfl⟩
        rw [hcs, hnil]
        rw [hnil] at hf
        exact .stop (by simp [step, hd, hx, hf])
      | false =>
        have hcons : components slash s ≠ [] := by simpa [hl] using hlast.symm
        refine ⟨_, rfl, rfl, x, hx, ?_, hred, hsome⟩
        intro hsym
        exact hf ⟨hsym, .inl hcons⟩

/-- What the loop keeps: the text `p` to be read from `d`, `k` duplicate slashes behind, and the
    memory behind the NUL. -/
structure WalkOk (v : Vfs) (follow : Bool) (d : EntryId) (p tail : List CChar) (k : ℕ) : Prop where
  reduced : v.reduce d = d
  node : (v.node d).isSome
  named : components slash p ≠ []
  terminated : 0#8 ∉ p
  trailing : ∀ d' c s, LooksUp v d p d' c s → components slash s = [] →
    s = [] ∨ k + skips true p = 0
  behind : ∀ d' c, LooksUp v d p d' c [] → BehindOk v follow d' c tail (k + skips true p)
  dots : ∀ d' c s, LooksUp v d p d' c s → HasDots v d' c
  links : ∀ d' e s t, LinkAt v follow d p d' e s → v.target e = some t → LinkFits v follow d' t s

section Turns

variable {v : Vfs} {follow : Bool} {turns : ℕ} {d : EntryId} {tail : List CChar} {k : ℕ}

/-- A turn over a duplicate slash. -/
theorem walk_slash {q : List CChar} (hd : v.typeOf d = some .directory) (hq0 : 0#8 ∉ q)
    (hmore : 0 < q.length + k) :
    walk v follow (turns + 1) d ((slash :: q) ++ 0#8 :: tail) ((slash :: q).length + k) =
      walk v follow turns d (q ++ 0#8 :: tail) (q.length + (k + 1)) := by
  obtain ⟨n, hn, hnd⟩ := typeOf_eq_some.mp hd
  have hs0 : 0#8 ∉ slash :: q := by
    simp only [List.mem_cons, not_or]
    exact ⟨by decide, hq0⟩
  have hfound : strchr ((slash :: q) ++ 0#8 :: tail) slash = some 0 := by
    rw [strchr_append hs0]
    exact idxOf?_append_cons (p := []) (by simp) q
  conv_lhs => unfold walk
  rw [hn, hfound]
  simp only [orFault, ok_bind]
  rw [if_neg (not_not.mpr hnd), if_pos]
  · rw [show (slash :: q).length + k = q.length + (k + 1) by simp only [List.length_cons]; omega]
    rfl
  · simp only [List.length_cons, reduceCtorEq, Option.some.injEq, false_or, and_true,
      Bool.not_eq_eq_eq_not, Bool.not_true, decide_eq_false_iff_not]
    omega

/-- A turn over a component with a slash behind it, which is the last one if the component is
    empty. -/
theorem walk_component {c q : List CChar} (hd : v.typeOf d = some .directory)
    (h0 : 0#8 ∉ c ++ slash :: q) (hc : slash ∉ c) (hne : c ≠ [] ∨ q.length + k = 0) :
    walk v follow (turns + 1) d ((c ++ slash :: q) ++ 0#8 :: tail) ((c ++ slash :: q).length + k) =
      component v follow d c (decide (q.length + k = 0)) ((slash :: q) ++ 0#8 :: tail) >>=
        fun
        | .inl turn => .ok turn
        | .inr e => walk v follow turns (v.reduce e) (q ++ 0#8 :: tail) (q.length + k) := by
  obtain ⟨n, hn, hnd⟩ := typeOf_eq_some.mp hd
  have hpos : 0 < c.length ∨ q.length + k = 0 := hne.imp_left List.length_pos_of_ne_nil
  have hlen : (c ++ slash :: q).length = c.length + 1 + q.length := by
    simp only [List.length_append, List.length_cons]
    omega
  have hc0 : 0#8 ∉ c := fun h => h0 (List.mem_append_left _ h)
  have hfound : strchr ((c ++ slash :: q) ++ 0#8 :: tail) slash = some c.length := by
    rw [strchr_append h0, idxOf?_append_cons hc]
  have hcopy : memcpyFrom ((c ++ slash :: q) ++ 0#8 :: tail) c.length = some c := by
    simp [memcpyFrom]
  have hdrop : ((c ++ slash :: q) ++ 0#8 :: tail).drop c.length = (slash :: q) ++ 0#8 :: tail := by
    simp
  have hdrop' : ((c ++ slash :: q) ++ 0#8 :: tail).drop (c.length + 1) = q ++ 0#8 :: tail := by
    simp [List.drop_append]
  have hlast : decide (some c.length = none ∨
      some c.length = some ((c ++ slash :: q).length + k - 1)) = decide (q.length + k = 0) := by
    rw [hlen]
    simp only [reduceCtorEq, Option.some.injEq, false_or, decide_eq_decide]
    omega
  have hrest : (c ++ slash :: q).length + k - (c.length + 1) = q.length + k := by omega
  conv_lhs => unfold walk
  rw [hn, hfound]
  simp only [orFault, ok_bind]
  rw [hlast, if_neg (not_not.mpr hnd), if_neg]
  swap
  · simp only [Bool.not_eq_eq_eq_not, Bool.not_true, decide_eq_false_iff_not, Option.some.injEq]
    omega
  simp only [Option.getD_some, hcopy, ok_bind, cstr_of_not_mem hc0, hdrop, hdrop', hrest]
  congr 1

/-- The turn over a component with nothing behind it: `s` points `k` bytes behind the NUL. -/
theorem walk_end {c : List CChar} (hd : v.typeOf d = some .directory) (h0 : 0#8 ∉ c)
    (hc : slash ∉ c) (hk : k ≤ (0#8 :: tail).length) :
    walk v follow (turns + 1) d (c ++ 0#8 :: tail) (c.length + k) =
      component v follow d c true ((0#8 :: tail).drop k) >>=
        fun
        | .inl turn => .ok turn
        | .inr e => walk v follow turns (v.reduce e) ((c ++ 0#8 :: tail).drop (c.length + k + 1)) 0 := by
  obtain ⟨n, hn, hnd⟩ := typeOf_eq_some.mp hd
  have hfound : strchr (c ++ 0#8 :: tail) slash = none := by
    rw [strchr_append h0, idxOf?_eq_none_of_not_mem hc]
  have hcopy : memcpyFrom (c ++ 0#8 :: tail) (c.length + k) =
      some ((c ++ 0#8 :: tail).take (c.length + k)) := by
    unfold memcpyFrom
    rw [if_pos]
    rw [List.length_append]
    omega
  conv_lhs => unfold walk
  rw [hn, hfound]
  simp only [orFault, ok_bind]
  rw [if_neg (not_not.mpr hnd), if_neg (by simp)]
  simp only [Option.getD_none, hcopy, ok_bind, cstr_take h0, List.drop_length_add_append,
    true_or, decide_true]
  congr 1
  funext w
  cases w with
  | inl turn => rfl
  | inr e => simp

end Turns

theorem Reads.slash {v : Vfs} {follow : Bool} {d : EntryId} {q : List CChar} {w : Turn}
    (h : Reads v follow d q w) : Reads v follow d (slash :: q) w := by
  cases w with
  | done e v' =>
    obtain ⟨r, hr, hn⟩ := h
    exact ⟨r, by rwa [components_sep], hn⟩
  | expand m d' =>
    obtain ⟨e, s, t, hat, ht, hred, hnode, h0, hm, hres⟩ := h
    refine ⟨e, s, t, .slash hat, ht, hred, hnode, h0, hm, ?_⟩
    intro r hr
    rw [components_sep]
    exact hres r hr

theorem Reads.into {v : Vfs} {follow : Bool} {d x : EntryId} {c q : List CChar} {w : Turn}
    (hd : v.typeOf d = some .directory) (hc : Fs.slash ∉ c) (hne : c ≠ [])
    (hx : v.child d c = some x) (hplain : v.typeOf x ≠ some .symlink)
    (hq : components Fs.slash q ≠ []) (h : Reads v follow (v.reduce x) q w) :
    Reads v follow d (c ++ Fs.slash :: q) w := by
  have hgo : step v follow d (components Fs.slash (c ++ Fs.slash :: q)) =
      .go (v.reduce x) (components Fs.slash q) := by
    rw [components_cons hc hne]
    have : ¬v.Followed follow x (components Fs.slash q) := fun h => hplain h.1
    simp [step, hd, hx, this, hq]
  cases w with
  | done e v' =>
    obtain ⟨r, hr, hn⟩ := h
    exact ⟨r, .go hgo hr, hn⟩
  | expand m d' =>
    obtain ⟨e, s, t, hat, ht, hred, hnode, h0, hm, hres⟩ := h
    refine ⟨e, s, t, .into hc hne hd hx hplain hat, ht, hred, hnode, h0, hm, ?_⟩
    intro r hr
    exact .go hgo (hres r hr)

theorem walk_reads {v : Vfs} (hv : TreeOk v) {follow : Bool} {tail : List CChar} :
    ∀ (turns : ℕ) (d : EntryId) (p : List CChar) (k : ℕ), WalkOk v follow d p tail k →
      p.length < turns →
      ∃ w, walk v follow turns d (p ++ 0#8 :: tail) (p.length + k) = .ok w ∧
        Reads v follow d p w
  | 0, _, _, _, _, hturns => by omega
  | turns + 1, d, p, k, ok, hturns => by
    have hne : p ≠ [] := fun h => ok.named (by rw [h, components_nil])
    by_cases hd : v.typeOf d = some .directory
    case neg =>
      obtain ⟨n, hn⟩ := Option.isSome_iff_exists.mp ok.node
      have hnd : n.nodeType ≠ .directory := by simpa [typeOf, hn] using hd
      unfold walk
      rw [hn]
      simp only [orFault, ok_bind]
      rw [if_pos hnd]
      refine ⟨_, rfl, none, ?_, hv.null⟩
      obtain ⟨c, cs, hp⟩ := List.exists_cons_of_ne_nil ok.named
      rw [hp]
      exact .stop (by simp [step, hd])
    case pos =>
      rcases split_text p with hno | ⟨c, q, rfl, hno⟩
      · -- the last component, with no slash behind it
        have hlook : LooksUp v d p d p [] := by
          simpa using LooksUp.here (s := []) hno hne hd (.inl rfl)
        obtain ⟨hreadable, hbehind⟩ := ok.behind d p hlook
        rw [skips_of_not_mem hno, Nat.add_zero] at hreadable hbehind
        have hrest : ∀ e, v.child d p = some e → v.Followed follow e (components slash []) →
            ∃ tail', (0#8 :: tail).drop k = [] ++ 0#8 :: tail' := by
          intro e he hf
          obtain ⟨hk, hk0⟩ := List.getElem?_eq_some_iff.mp (hbehind e he hf)
          exact ⟨(0#8 :: tail).drop (k + 1), by rw [List.drop_eq_getElem_cons hk, hk0]; rfl⟩
        obtain ⟨w, hw, hreads⟩ := component_reads hv follow true p [] ((0#8 :: tail).drop k) hd
          ok.reduced hno hne (.inl rfl) (by simp) (by simp) (ok.dots d p [] hlook) hrest
          (fun e t hat => ok.links d e [] t (by simpa using hat))
        rw [walk_end hd ok.terminated hno hreadable, hw]
        cases w with
        | inl turn => exact ⟨turn, rfl, by simpa using hreads⟩
        | inr e => exact absurd hreads.1 (by simp)
      · have hq0 : 0#8 ∉ q := fun h => ok.terminated (by simp [h])
        by_cases hc : c = []
        · -- a duplicate slash
          subst hc
          rw [List.nil_append] at ok hturns ⊢
          have hnamed := ok.named
          rw [components_sep] at hnamed
          have hq : q ≠ [] := fun h => hnamed (by rw [h, components_nil])
          have hskips : k + 1 + skips true q = k + skips true (slash :: q) := by
            simp only [skips, if_true]
            omega
          have next : WalkOk v follow d q tail (k + 1) := by
            refine ⟨ok.reduced, ok.node, hnamed, hq0, ?_, ?_, ?_, ?_⟩
            · intro d' c s hlook
              rw [hskips]
              exact ok.trailing d' c s (.slash hlook)
            · intro d' c hlook
              rw [hskips]
              exact ok.behind d' c (.slash hlook)
            · intro d' c s hlook
              exact ok.dots d' c s (.slash hlook)
            · intro d' e s t hat
              exact ok.links d' e s t (.slash hat)
          obtain ⟨w, hw, hreads⟩ := walk_reads hv turns d q (k + 1) next
            (by simp only [List.length_cons] at hturns; omega)
          have hlen := List.length_pos_of_ne_nil hq
          exact ⟨w, by rw [walk_slash hd hq0 (by omega), hw], hreads.slash⟩
        · have hs0 : 0#8 ∉ slash :: q := fun h => ok.terminated (List.mem_append_right _ h)
          have hskips : skips true (c ++ slash :: q) = skips true q := skips_component hno hc q
          have htrailing := ok.trailing
          have hbehind := ok.behind
          rw [hskips] at htrailing hbehind
          -- the text behind the slash is empty, or has a component
          have hempty : decide (q.length + k = 0) = decide (components slash (slash :: q) = []) := by
            rw [components_sep, decide_eq_decide]
            constructor
            · intro h
              rw [List.eq_nil_of_length_eq_zero (by omega : q.length = 0), components_nil]
            · intro h
              have hk := (htrailing d c _ (.here hno hc hd (.inr rfl))
                (by rwa [components_sep])).resolve_left (List.cons_ne_nil _ _)
              by_contra hq
              exact components_ne_nil (fun h => hq (by rw [h, List.length_nil]; omega)) (.inl hk) h
          obtain ⟨w, hw, hreads⟩ := component_reads hv follow _ c (slash :: q)
            ((slash :: q) ++ 0#8 :: tail) hd ok.reduced hno hc (.inr rfl) hs0 hempty
            (ok.dots d c _ (.here hno hc hd (.inr rfl))) (fun _ _ _ => ⟨tail, rfl⟩)
            (fun e t hat => ok.links d e (slash :: q) t hat)
          rw [walk_component hd ok.terminated hno (.inl hc), hw]
          cases w with
          | inl turn => exact ⟨turn, rfl, hreads⟩
          | inr e =>
            obtain ⟨hlast, x, hx, hplain, hred, hnode⟩ := hreads
            have hcsq : components slash q ≠ [] := by
              rw [hempty, components_sep] at hlast
              simpa using hlast
            have next : WalkOk v follow (v.reduce x) q tail k := by
              refine ⟨hv.reduce_reduce x, ?_, hcsq, hq0, ?_, ?_, ?_, ?_⟩
              · rw [← hred]
                exact hv.node_reduce e hnode
              · intro d' c' s hlook
                exact htrailing d' c' s (.into hno hc hd hx hplain hlook)
              · intro d' c' hlook
                exact hbehind d' c' (.into hno hc hd hx hplain hlook)
              · intro d' c' s hlook
                exact ok.dots d' c' s (.into hno hc hd hx hplain hlook)
              · intro d' e' s t hat
                exact ok.links d' e' s t (.into hno hc hd hx hplain hat)
            obtain ⟨w, hw, hreads⟩ := walk_reads hv turns (v.reduce x) q k next (by
              simp only [List.length_append, List.length_cons] at hturns
              omega)
            rw [← hred] at hw
            exact ⟨w, hw, hreads.into hd hno hc hx hplain hcsq⟩

/-! ## The resolution -/

/-- The directory a relative path starts in. -/
def Vfs.startDir (v : Vfs) : Option EntryId → EntryId
  | none => v.root
  | some s => v.reduce s

/-- One call reads a clean path as it is meant. -/
theorem pathTurn_reads {v : Vfs} (hv : TreeOk v) {follow : Bool} {start : Option EntryId}
    {p tail : List CChar} (hat : PathAt v follow (v.startDir start) p tail)
    (hstart : p.head? = some slash ∨ ∃ s, start = some s ∧ (v.node s).isSome)
    (hclean : Clean v follow (v.startDir start, p)) :
    ∃ w, pathTurn v follow (p ++ 0#8 :: tail) start = .ok w ∧
      Reads v follow (v.origin (v.startDir start) p) p w := by
  obtain ⟨a, q, rfl⟩ := List.exists_cons_of_ne_nil (l := p) (by
    rintro rfl
    simpa using hclean.named)
  have hq0 : 0#8 ∉ q := fun h => hat.terminated (List.mem_cons_of_mem _ h)
  unfold pathTurn
  rw [strlen_append hat.terminated]
  simp only [orFault, ok_bind]
  rw [if_neg (by simp)]
  by_cases ha : a = slash
  · subst ha
    have horigin : v.origin (v.startDir start) (slash :: q) = v.root := by simp [origin]
    have hroot : (v.node v.root).isSome := by
      obtain ⟨n, hn, -⟩ := typeOf_eq_some.mp hv.root_directory
      simp [hn]
    rw [if_pos (by simp), horigin]
    by_cases hq : q = []
    · subst hq
      rw [if_pos (by simp)]
      refine ⟨_, rfl, some v.root, ?_, hroot, rfl, rfl⟩
      rw [components_sep]
      exact .stop (by simp [step])
    · rw [if_neg (by simpa using hq)]
      have hok : WalkOk v follow v.root q tail 0 := by
        have hnamed := hclean.named.resolve_left (by simpa using hq)
        have htrailing := hclean.trailing
        have hbehind := hat.behind
        have hdots := hclean.dots
        have hlinks := hclean.links
        simp only [body, List.head?_cons, if_true, List.tail_cons, horigin]
          at htrailing hbehind hdots hlinks
        refine ⟨hv.root_reduced, hroot, by rwa [components_sep] at hnamed, hq0, ?_, ?_, ?_, ?_⟩
        · rw [Nat.zero_add]
          exact fun d' c s hlook => htrailing d' c s (.slash hlook)
        · rw [Nat.zero_add]
          exact fun d' c hlook => hbehind d' c (.slash hlook)
        · exact fun d' c s hlook => hdots d' c s (.slash hlook)
        · exact fun d' e s t hlink => hlinks d' e s t (.slash hlink)
      obtain ⟨w, hw, hreads⟩ := walk_reads hv (slash :: q ++ 0#8 :: tail).length v.root q 0 hok
        (by simp only [List.cons_append, List.length_cons, List.length_append]; omega)
      exact ⟨w, hw, hreads.slash⟩
  · obtain ⟨st, rfl, hnode⟩ : ∃ s, start = some s ∧ (v.node s).isSome := by
      rcases hstart with h | h
      · exact absurd (by simpa using h) ha
      · exact h
    have horigin : v.origin (v.startDir (some st)) (a :: q) = v.reduce st := by
      simp [origin, ha, startDir]
    rw [if_neg (by simpa using ha), horigin]
    have hbody : body (a :: q) = a :: q := by simp [body, ha]
    have hok : WalkOk v follow (v.reduce st) (a :: q) tail 0 := by
      have htrailing := hclean.trailing
      have hbehind := hat.behind
      have hdots := hclean.dots
      have hlinks := hclean.links
      simp only [hbody, horigin] at htrailing hbehind hdots hlinks
      exact ⟨hv.reduce_reduce st, hv.node_reduce st hnode,
        hclean.named.resolve_left (by simp [ha]), hat.terminated,
        by rwa [Nat.zero_add], by rwa [Nat.zero_add], hdots, hlinks⟩
    obtain ⟨w, hw, hreads⟩ := walk_reads hv (a :: q ++ 0#8 :: tail).length (v.reduce st) (a :: q) 0
      hok (by simp only [List.cons_append, List.length_cons, List.length_append]; omega)
    exact ⟨w, hw, hreads⟩

/-- The path names something or nothing, and `path_to_entry` returns that: the entry, up to
    redirection, or an entry without node. -/
def ReturnsNamed (v : Vfs) (follow : Bool) (start : Option EntryId) (p tail : List CChar) : Prop :=
  ∃ n r, (∀ r', Resolves v follow (v.origin (v.startDir start) p) (components slash p) r' ↔
      r' = r) ∧
    ∀ calls, n ≤ calls → ∃ e v',
      pathToEntry v follow calls (p ++ 0#8 :: tail) start = .ok (e, v') ∧ Names v v' e r

/-- **Main theorem.** Where the expansions of a path end and every path on the way is clean,
    `path_to_entry` returns what the path names. -/
theorem pathToEntry_resolves {v : Vfs} (hv : TreeOk v) {follow : Bool} {start : Option EntryId}
    {p tail : List CChar} (hat : PathAt v follow (v.startDir start) p tail)
    (hstart : p.head? = some slash ∨ ∃ s, start = some s ∧ (v.node s).isSome)
    (acyclic : Acc (fun b a => Expands v follow a b) (v.startDir start, p))
    (clean : ∀ b, Relation.ReflTransGen (Expands v follow) (v.startDir start, p) b →
      Clean v follow b) :
    ReturnsNamed v follow start p tail := by
  suffices h : ∀ a : Place, Acc (fun b a => Expands v follow a b) a →
      ∀ (start : Option EntryId) (tail : List CChar), a.1 = v.startDir start →
      PathAt v follow a.1 a.2 tail →
      (a.2.head? = some slash ∨ ∃ s, start = some s ∧ (v.node s).isSome) →
      (∀ b, Relation.ReflTransGen (Expands v follow) a b → Clean v follow b) →
      ∃ n r, Resolves v follow (v.origin a.1 a.2) (components slash a.2) r ∧
        ∀ calls, n ≤ calls → ∃ e v',
          pathToEntry v follow calls (a.2 ++ 0#8 :: tail) start = .ok (e, v') ∧ Names v v' e r by
    obtain ⟨n, r, hr, hcalls⟩ := h _ acyclic start tail rfl hat hstart clean
    refine ⟨n, r, ?_, hcalls⟩
    intro r'
    constructor
    · intro hr'
      exact hr'.unique hr
    · rintro rfl
      exact hr
  intro a hacc
  -- the induction follows the expansions, which end
  induction hacc with
  | intro a _ ih =>
    intro start tail ha hat hstart clean
    obtain ⟨d, p⟩ := a
    simp only at ha hat hstart ⊢
    subst ha
    obtain ⟨w, hw, hreads⟩ := pathTurn_reads hv hat hstart (clean _ .refl)
    cases w with
    | done e v' =>
      obtain ⟨r, hr, hnames⟩ := hreads
      refine ⟨1, r, hr, ?_⟩
      intro calls hcalls
      obtain ⟨n, rfl⟩ : ∃ n, calls = n + 1 := ⟨calls - 1, by omega⟩
      refine ⟨e, v', ?_, hnames⟩
      unfold pathToEntry
      rw [hw]
      rfl
    | expand m d' =>
      obtain ⟨e, s, t, hlink, ht, hred, hnode, h0, rfl, hres⟩ := hreads
      have hexp : Expands v follow (v.startDir start, p) (d', t ++ s) := ⟨d', e, s, t, hlink, ht, rfl⟩
      have fits := (clean _ .refl).links d' e s t hlink ht
      obtain ⟨b, t', rfl⟩ := List.exists_cons_of_ne_nil fits.nonempty
      obtain ⟨n, r, hr, hcalls⟩ := ih (d', b :: t' ++ s) hexp (some d') _ hred.symm
        fits.pathAt (.inr ⟨d', rfl, hnode⟩) (fun c hc => clean c (.head hexp hc))
      refine ⟨n + 1, r, ?_, ?_⟩
      · apply hres
        rw [← components_append hlink.rest]
        exact hr
      · intro calls hle
        obtain ⟨m, rfl⟩ : ∃ m, calls = m + 1 := ⟨calls - 1, by omega⟩
        obtain ⟨e', v', hrun, hnames⟩ := hcalls m (by omega)
        refine ⟨e', v', ?_, hnames⟩
        unfold pathToEntry
        rw [hw]
        exact hrun

/-! ## Paths on a tree with one link -/

theorem text_nil {c s : List CChar} (text : s = [] ∨ s.head? = some Fs.slash)
    (h : Fs.slash ∉ c ++ s) : s = [] := by
  rcases text with hs | hs
  · exact hs
  · exact absurd (List.mem_append_right c (List.mem_of_mem_head? hs)) h

/-- The component of a path of one component. -/
theorem LooksUp.single {v : Vfs} {d d' : EntryId} {p c s : List CChar}
    (h : LooksUp v d p d' c s) (hp : Fs.slash ∉ p) : d' = d ∧ c = p := by
  cases h with
  | slash _ => simp at hp
  | here _ _ _ text => simp [text_nil text hp]
  | into _ _ _ _ _ _ => simp at hp

theorem LinkAt.single {v : Vfs} {follow : Bool} {d d' e : EntryId} {p s : List CChar}
    (h : LinkAt v follow d p d' e s) (hp : Fs.slash ∉ p) :
    d' = d ∧ s = [] ∧ v.child d p = some e ∧ v.typeOf e = some .symlink := by
  cases h with
  | slash _ => simp at hp
  | @here _ _ c _ name nonempty dir child followed text =>
    obtain rfl := text_nil text hp
    rw [List.append_nil] at *
    exact ⟨rfl, rfl, child, followed.1⟩
  | into _ _ _ _ _ _ => simp at hp

/-- The tree after `symlink(".", "here")` in the root. -/
def linkHere : Vfs :=
  match symlinkatImpl booted 1 (cliteral ".") (cliteral "here") (some 0) with
  | .ok (_, v) => v
  | .error _ => booted

theorem treeOk_linkHere : TreeOk linkHere :=
  treeOk_of_entries (by decide) (by decide) (by decide)

theorem linkAt_linkHere {d e : EntryId} {s t : List CChar}
    (h : LinkAt linkHere true 0 (chars "here") d e s) (ht : linkHere.target e = some t) :
    d = 0 ∧ s = [] ∧ t = chars "." := by
  obtain ⟨hd, hs, hchild, -⟩ := h.single (by decide)
  have he : linkHere.child 0 (chars "here") = some 4 := by decide
  rw [he, Option.some.injEq] at hchild
  subst hchild
  have htarget : linkHere.target 4 = some (chars ".") := by decide
  exact ⟨hd, hs, Option.some.inj (ht.symm.trans htarget)⟩

theorem expands_linkHere {b : Place} (h : Expands linkHere true (0, chars "here") b) :
    b = (0, chars ".") := by
  obtain ⟨d, e, s, t, hat, ht, rfl⟩ := h
  obtain ⟨rfl, rfl, rfl⟩ := linkAt_linkHere hat ht
  rfl

theorem not_expands_dot {b : Place} : ¬Expands linkHere true (0, chars ".") b := by
  rintro ⟨d, e, s, t, hat, -⟩
  obtain ⟨-, -, hchild, hlink⟩ := hat.single (by decide)
  have he : linkHere.child 0 (chars ".") = some 0 := by decide
  obtain rfl : 0 = e := Option.some.inj (he.symm.trans hchild)
  exact absurd hlink (by decide)

/-- The link on the way is followed to the root. -/
theorem pathToEntry_resolves_linkHere : ReturnsNamed linkHere true (some 0) (chars "here") [] := by
  apply pathToEntry_resolves treeOk_linkHere
    ⟨by decide, fun _ _ _ => ⟨by decide, fun _ _ _ => by decide⟩⟩ (.inr ⟨0, rfl, by decide⟩)
  · refine ⟨_, fun b hb => ?_⟩
    obtain rfl := expands_linkHere hb
    exact ⟨_, fun c hc => absurd hc not_expands_dot⟩
  · intro b hb
    have hb' : b = (0, chars "here") ∨ b = (0, chars ".") := by
      induction hb with
      | refl => exact .inl rfl
      | tail _ h ih =>
        rcases ih with rfl | rfl
        · exact .inr (expands_linkHere h)
        · exact absurd h not_expands_dot
    rcases hb' with rfl | rfl
    · refine ⟨by decide, fun _ _ _ _ _ => .inr (by decide), ?_, ?_⟩
      · intro d c s hat
        obtain ⟨rfl, rfl⟩ := hat.single (by decide)
        exact ⟨by decide, by decide⟩
      · intro d e s t hat ht
        obtain ⟨rfl, rfl, rfl⟩ := linkAt_linkHere hat ht
        exact ⟨by decide, by decide, by decide, by decide,
          fun _ _ _ => ⟨Nat.zero_le _, fun _ _ _ => rfl⟩⟩
    · refine ⟨by decide, fun _ _ _ _ _ => .inr (by decide), ?_, ?_⟩
      · intro d c s hat
        obtain ⟨rfl, rfl⟩ := hat.single (by decide)
        exact ⟨fun _ => ⟨2, by decide, by decide, by decide⟩, by decide⟩
      · intro d e s t hat ht
        exact absurd ⟨d, e, s, t, hat, ht, rfl⟩ not_expands_dot

/-- A tree without symlinks has nothing to expand. -/
theorem not_linkAt {v : Vfs} {follow : Bool} (hv : ∀ e, v.typeOf e ≠ some .symlink)
    {d d' e : EntryId} {p s : List CChar} : ¬LinkAt v follow d p d' e s := by
  intro h
  induction h with
  | slash _ ih => exact ih
  | here _ _ _ _ followed _ => exact hv _ followed.1
  | into _ _ _ _ _ _ ih => exact ih

theorem typeOf_booted (e : EntryId) : booted.typeOf e ≠ some .symlink := by
  by_cases he : e < 4
  · revert e
    decide
  · have : booted.entries[e]? = none :=
      List.getElem?_eq_none (show booted.entries.length ≤ e from Nat.le_of_not_lt he)
    simp [typeOf, node, entry, this, Entry.construct]

/-- Two slashes name the root, and `path_to_entry` returns a new entry without node. -/
theorem doubleSlash_names_nothing :
    TreeOk booted ∧ (∀ b, ¬Expands booted true (0, chars "//") b) ∧
      Resolves booted true 0 (components slash (chars "//")) (some 0) ∧
      ¬ReturnsNamed booted true (some 0) (chars "//") [] := by
  have hres : Resolves booted true 0 (components slash (chars "//")) (some 0) := .stop rfl
  refine ⟨treeOk_booted, ?_, hres, ?_⟩
  · rintro b ⟨d, e, s, t, hat, -⟩
    exact not_linkAt typeOf_booted hat
  · rintro ⟨n, r, hr, hcalls⟩
    obtain rfl : some 0 = r := (hr (some 0)).mp hres
    obtain ⟨e, v', hrun, hsome, -⟩ := hcalls (n + 1) (by omega)
    obtain ⟨w, hw⟩ : ∃ w, pathTurn booted true (chars "//" ++ [0#8]) (some 0) = .ok (.done 4 w) :=
      ⟨_, rfl⟩
    unfold pathToEntry at hrun
    rw [hw] at hrun
    obtain rfl : 4 = e := congrArg Prod.fst (Except.ok.inj hrun)
    exact absurd hsome (by decide)

end Fishix.Fs
