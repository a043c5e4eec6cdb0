import Fishix.Fs.Entries
import Fishix.Fs.Resolution

/-!
# What a lookup returns and leaves behind

Whatever the path, `path_to_entry` ends at the null entry, at the root, or at a child of a
directory, and has changed nothing but for one entry without node where a name was not there
(`Found`). Following a symlink in the last component makes a difference only where that is one.

* `lookup_of_dir`: one component.
* `pathToEntry_found`: a whole path.
* `pathToEntry_follow`: with and without the last symlink.
-/

namespace Fishix.Fs

open Vfs

namespace Vfs

variable {v v' : Vfs} {d e p x : EntryId} {c : Name}

/-- A directory that components are looked up in. -/
def IsDir (v : Vfs) (d : EntryId) : Prop :=
  v.typeOf d = some .directory ∧ (v.entry d).redirect = none

theorem IsDir.vnode (h : v.IsDir d) : (v.entry d).vnode ≠ none := by
  obtain ⟨n, hn, -⟩ := typeOf_eq_some.mp h.1
  intro hnone
  simp [node, hnone] at hn

/-- `find_child` reads the list and the names in it. -/
theorem findChild_congr (hch : (v'.entry d).children = (v.entry d).children)
    (hname : ∀ x ∈ (v.entry d).children, (v'.entry x).name = (v.entry x).name ∧
      (v'.entry x).nameHash = (v.entry x).nameHash) : v'.findChild d c = v.findChild d c := by
  unfold findChild
  rw [hch]
  refine List.find?_congr ?_
  intro x hx
  rw [(hname x hx).1, (hname x hx).2]

theorem mem_of_findChild (h : v.findChild d c = some e) :
    e ∈ (v.entry d).children ∧ (v.entry e).name = c := by
  refine ⟨List.mem_of_find?_eq_some h, ?_⟩
  have := List.find?_some h
  simp only [Bool.and_eq_true, beq_iff_eq] at this
  exact this.2

theorem findChild_eq_none (hash : ∀ e, (v.entry e).nameHash = Fishix.hash (v.entry e).name) :
    v.findChild d c = none ↔ ∀ x ∈ (v.entry d).children, (v.entry x).name ≠ c := by
  unfold findChild
  rw [List.find?_eq_none]
  simp only [Bool.and_eq_true, beq_iff_eq, not_and, hash]
  constructor
  · intro h x hx hname
    exact h x hx (by rw [hname]) hname
  · exact fun h x hx _ => h x hx

end Vfs

theorem lookup_of_dir {v : Vfs} (hv : Forest v) {d : EntryId}
    (hd : (v.entry d).redirect = none) (c : Name) :
    v.lookup d c = match v.findChild d c with
      | some e => (e, v)
      | none => (v.entries.length, v.negative d c) := by
  unfold lookup
  cases hf : v.findChild d c with
  | some e => rfl
  | none =>
    have hred : ((v.alloc (Entry.construct none (some d) c none)).2.entry d).redirect = none := by
      rw [alloc_entry]
      split_ifs
      · rfl
      · exact hd
    simp only
    rw [reduce_of_redirect hred]
    have hsame : (v.alloc (Entry.construct none (some d) c none)).2.findChild d c = none := by
      by_cases hlt : d < v.entries.length
      · rw [← hf]
        refine findChild_congr ?_ ?_
        · rw [alloc_entry, if_neg (Nat.ne_of_lt hlt)]
        · intro x hx
          rw [alloc_entry, if_neg (Nat.ne_of_lt (hv.listed_lt hx))]
          exact ⟨rfl, rfl⟩
      · -- there is no such entry, and the new one has no children
        have hempty : ((v.alloc (Entry.construct none (some d) c none)).2.entry d).children = [] := by
          rw [alloc_entry]
          split_ifs
          · rfl
          · rw [entry_of_le (Nat.le_of_not_lt hlt)]
            rfl
        simp [findChild, hempty]
    rw [show (v.alloc (Entry.construct none (some d) c none)) =
      (v.entries.length, (v.alloc (Entry.construct none (some d) c none)).2) from rfl]
    simp only [hsame]
    rfl

/-- What `path_to_entry` may return, with the tree it leaves. -/
inductive Found (v : Vfs) : EntryId → Vfs → Prop
  | null : Found v v.nullEntry v
  | root : Found v v.root v
  | child {d e : EntryId} {c : Name} (dir : v.IsDir d) (h : v.findChild d c = some e) : Found v e v
  | nullMissing {d : EntryId} {c : Name} (dir : v.IsDir d) (h : v.findChild d c = none) :
      Found v v.nullEntry (v.negative d c)
  | missing {d : EntryId} {c : Name} (dir : v.IsDir d) (h : v.findChild d c = none) :
      Found v v.entries.length (v.negative d c)

/-- What one call may come to. -/
def FoundTurn (v : Vfs) : Turn → Prop
  | .done e v' => Found v e v'
  | .expand _ d => v.IsDir d

/-- The loop body: an entry found in `d`, the next call from `d`, or an entry to go on from. -/
theorem component_found {v : Vfs} (hv : Forest v) {follow last : Bool} {d : EntryId} {c : Name}
    {s : List CChar} (hd : v.IsDir d) {turn : Turn}
    (h : component v follow d c last s = .ok (.inl turn)) : FoundTurn v turn := by
  unfold component at h
  rw [lookup_of_dir hv hd.2] at h
  cases hf : v.findChild d c with
  | none =>
    have hnode : (v.negative d c).node v.entries.length = none := by
      have := node_lookup v d c v.entries.length
      rw [lookup_of_dir hv hd.2, hf] at this
      rw [this]
      simp [node, entry_of_le, Entry.construct]
    simp only [hf, hnode, pure, Except.pure, Except.ok.injEq, Sum.inl.injEq] at h
    subst h
    cases last with
    | true => exact .missing hd hf
    | false => exact .nullMissing hd hf
  | some e =>
    simp only [hf] at h
    cases hn : v.node e with
    | none =>
      simp only [hn, pure, Except.pure, Except.ok.injEq, Sum.inl.injEq] at h
      subst h
      cases last with
      | true => exact .child hd hf
      | false => exact .null
    | some n =>
      simp only [hn] at h
      split_ifs at h with hsym hlast
      · cases hread : v.readStart e 128 with
        | none =>
          simp only [hread, pure, Except.pure, Except.ok.injEq, Sum.inl.injEq] at h
          subst h
          exact .null
        | some target =>
          simp only [hread] at h
          split_ifs at h with hlen
          · simp only [pure, Except.pure, Except.ok.injEq, Sum.inl.injEq] at h
            subst h
            exact .null
          · obtain ⟨path, -, h⟩ := bind_ok h
            simp only [pure, Except.pure, Except.ok.injEq, Sum.inl.injEq] at h
            subst h
            exact hd
      · simp only [pure, Except.pure, Except.ok.injEq, Sum.inl.injEq] at h
        subst h
        exact .child hd hf
      · simp [pure, Except.pure] at h

theorem walk_found {v : Vfs} (hv : Forest v) {follow : Bool} :
    ∀ {turns : ℕ} {d : EntryId} {path : List CChar} {len : ℕ} {w : Turn},
      (v.entry d).redirect = none → walk v follow turns d path len = .ok w →
      FoundTurn v w
  | 0, _, _, _, _, _, h => by simp [walk] at h
  | turns + 1, d, path, len, w, hd, h => by
    unfold walk at h
    obtain ⟨n, hn, h⟩ := bind_ok h
    have hnode : v.node d = some n := by
      cases hnd : v.node d with
      | none => simp [hnd, orFault] at hn
      | some m =>
        simp only [hnd, orFault, Except.ok.injEq] at hn
        rw [hn]
    split_ifs at h with hdir
    · simp only [pure, Except.pure, Except.ok.injEq] at h
      subst h
      exact .null
    have hisDir : v.IsDir d := ⟨by simp [typeOf, hnode, not_not.mp hdir], hd⟩
    simp only at h
    split_ifs at h with hslash
    · exact walk_found hv hd h
    · obtain ⟨name, -, h⟩ := bind_ok h
      obtain ⟨y, hy, h⟩ := bind_ok h
      cases y with
      | inl turn =>
        simp only [pure, Except.pure, Except.ok.injEq] at h
        subst h
        exact component_found hv hisDir hy
      | inr e => exact walk_found hv (hv.redirect_reduce e) h

theorem pathTurn_found {v : Vfs} (hv : Forest v) {follow : Bool} {path : List CChar}
    {start : Option EntryId} {w : Turn} (h : pathTurn v follow path start = .ok w) :
    FoundTurn v w := by
  unfold pathTurn at h
  obtain ⟨len, -, h⟩ := bind_ok h
  split_ifs at h
  · simp only [pure, Except.pure, Except.ok.injEq] at h
    subst h
    exact .null
  · simp only [pure, Except.pure, Except.ok.injEq] at h
    subst h
    exact .root
  · exact walk_found hv hv.root_redirect h
  · cases start with
    | none =>
      simp only [pure, Except.pure, Except.ok.injEq] at h
      subst h
      exact .null
    | some s => exact walk_found hv (hv.redirect_reduce s) h

/-- What a path lookup returns, and how it leaves the tree. -/
theorem pathToEntry_found {v v' : Vfs} (hv : Forest v) {follow : Bool} {e : EntryId} :
    ∀ {calls : ℕ} {path : List CChar} {start : Option EntryId},
      pathToEntry v follow calls path start = .ok (e, v') → Found v e v'
  | 0, _, _, h => by simp [pathToEntry] at h
  | calls + 1, path, start, h => by
    unfold pathToEntry at h
    obtain ⟨w, hw, h⟩ := bind_ok h
    have hfound := pathTurn_found hv hw
    cases w with
    | done e' v'' =>
      simp only [pure, Except.pure, Except.ok.injEq, Prod.mk.injEq] at h
      obtain ⟨rfl, rfl⟩ := h
      exact hfound
    | expand path' d => exact pathToEntry_found hv h

/-! ## The last symlink -/

/-- Two results are one, or the second is a symlink that was not followed. -/
def SameUnlessLink {α : Type} (v : Vfs) (done : EntryId → α) (x x' : Except Fault α) : Prop :=
  x = x' ∨ ∃ e, x' = .ok (done e) ∧ v.typeOf e = some .symlink

theorem component_follow (v : Vfs) (d : EntryId) (c : Name) (last : Bool) (s : List CChar) :
    SameUnlessLink v (fun e => .inl (.done e v)) (component v true d c last s)
      (component v false d c last s) := by
  cases last with
  | false =>
    left
    unfold component
    rfl
  | true =>
    unfold component
    simp only [Bool.not_true, Bool.or_true, Bool.or_false, Bool.false_eq_true, true_and, false_and,
      if_false, if_true]
    cases hn : (v.lookup d c).2.node (v.lookup d c).1 with
    | none => exact .inl rfl
    | some n =>
      by_cases hsym : n.nodeType = .symlink
      · right
        refine ⟨(v.lookup d c).1, rfl, ?_⟩
        rw [node_lookup] at hn
        simp [typeOf, hn, hsym]
      · left
        simp [hsym]

theorem walk_follow (v : Vfs) : ∀ (turns : ℕ) (d : EntryId) (path : List CChar) (len : ℕ),
    SameUnlessLink v (fun e => .done e v) (walk v true turns d path len) (walk v false turns d path len)
  | 0, _, _, _ => .inl rfl
  | turns + 1, d, path, len => by
    unfold walk
    cases hn : orFault Fault.nullPointer (v.node d) with
    | error f => exact .inl rfl
    | ok n =>
      simp only [ok_bind]
      by_cases hdir : n.nodeType ≠ .directory
      · rw [if_pos hdir, if_pos hdir]
        exact .inl rfl
      rw [if_neg hdir, if_neg hdir]
      split_ifs with hslash
      · exact walk_follow v turns d (path.drop 1) len
      · cases hname : orFault Fault.overrun
            (memcpyFrom path ((strchr path slash).getD len)) with
        | error f => exact .inl rfl
        | ok name =>
          simp only [ok_bind]
          rcases component_follow v d (cstr name)
              (decide (strchr path slash = none ∨ strchr path slash = some (len - 1)))
              (path.drop ((strchr path slash).getD len)) with hsame | ⟨e, he, hlink⟩
          · rw [hsame]
            cases hc : component v false d (cstr name)
                (decide (strchr path slash = none ∨ strchr path slash = some (len - 1)))
                (path.drop ((strchr path slash).getD len)) with
            | error f => exact .inl rfl
            | ok w =>
              cases w with
              | inl turn => exact .inl rfl
              | inr e => exact walk_follow v turns _ _ _
          · right
            refine ⟨e, ?_, hlink⟩
            rw [he]
            rfl

theorem pathTurn_follow (v : Vfs) (path : List CChar) (start : Option EntryId) :
    SameUnlessLink v (fun e => .done e v) (pathTurn v true path start)
      (pathTurn v false path start) := by
  unfold pathTurn
  cases hlen : orFault Fault.overrun (strlen path) with
  | error f => exact .inl rfl
  | ok len =>
    simp only [ok_bind]
    split_ifs
    · exact .inl rfl
    · exact .inl rfl
    · exact walk_follow v _ _ _ _
    · cases start with
      | none => exact .inl rfl
      | some s => exact walk_follow v _ _ _ _

/-- Where the last component is no symlink, following it makes no difference. -/
theorem pathToEntry_follow (v : Vfs) : ∀ (calls : ℕ) (path : List CChar) (start : Option EntryId),
    SameUnlessLink v (fun e => (e, v)) (pathToEntry v true calls path start)
      (pathToEntry v false calls path start)
  | 0, _, _ => .inl rfl
  | calls + 1, path, start => by
    unfold pathToEntry
    rcases pathTurn_follow v path start with hsame | ⟨e, he, hlink⟩
    · rw [hsame]
      cases hturn : pathTurn v false path start with
      | error f => exact .inl rfl
      | ok w =>
        cases w with
        | done e v' => exact .inl rfl
        | expand path' d => exact pathToEntry_follow v calls path' (some d)
    · right
      refine ⟨e, ?_, hlink⟩
      rw [he]
      rfl

section Plain

variable {v v' : Vfs} {e : EntryId}

theorem component_plain (hnull : v.typeOf v.nullEntry ≠ some .symlink) {d : EntryId} {c : Name}
    {last : Bool} {s : List CChar}
    (h : component v true d c last s = .ok (.inl (.done e v'))) : v.typeOf e ≠ some .symlink := by
  unfold component at h
  simp only [Bool.or_true, true_and] at h
  have hnode := node_lookup v d c (v.lookup d c).1
  cases hn : (v.lookup d c).2.node (v.lookup d c).1 with
  | none =>
    simp only [hn, pure, Except.pure, Except.ok.injEq, Sum.inl.injEq, Turn.done.injEq] at h
    rw [← h.1]
    cases last with
    | true =>
      rw [hn] at hnode
      simp [typeOf, ← hnode]
    | false => exact hnull
  | some n =>
    simp only [hn] at h
    split_ifs at h with hsym hlast
    · cases hread : v.readStart (v.lookup d c).1 128 with
      | none =>
        simp only [hread, pure, Except.pure, Except.ok.injEq, Sum.inl.injEq, Turn.done.injEq] at h
        rw [← h.1]
        exact hnull
      | some target =>
        simp only [hread] at h
        split_ifs at h with hlen
        · simp only [pure, Except.pure, Except.ok.injEq, Sum.inl.injEq, Turn.done.injEq] at h
          rw [← h.1]
          exact hnull
        · obtain ⟨path, -, h⟩ := bind_ok h
          simp [pure, Except.pure] at h
    · simp only [pure, Except.pure, Except.ok.injEq, Sum.inl.injEq, Turn.done.injEq] at h
      rw [← h.1]
      rw [hn] at hnode
      simp [typeOf, ← hnode, hsym]
    · simp [pure, Except.pure] at h

theorem walk_plain (hnull : v.typeOf v.nullEntry ≠ some .symlink) :
    ∀ {turns : ℕ} {d : EntryId} {path : List CChar} {len : ℕ},
      walk v true turns d path len = .ok (.done e v') → v.typeOf e ≠ some .symlink
  | 0, _, _, _, h => by simp [walk] at h
  | turns + 1, d, path, len, h => by
    unfold walk at h
    obtain ⟨n, hn, h⟩ := bind_ok h
    split_ifs at h with hdir
    · simp only [pure, Except.pure, Except.ok.injEq, Turn.done.injEq] at h
      rw [← h.1]
      exact hnull
    simp only at h
    split_ifs at h with hslash
    · exact walk_plain hnull h
    · obtain ⟨name, -, h⟩ := bind_ok h
      obtain ⟨y, hy, h⟩ := bind_ok h
      cases y with
      | inl turn =>
        simp only [pure, Except.pure, Except.ok.injEq] at h
        subst h
        exact component_plain hnull hy
      | inr x => exact walk_plain hnull h

/-- A lookup that follows the last symlink does not end at one. -/
theorem pathToEntry_plain (hnull : v.typeOf v.nullEntry ≠ some .symlink)
    (hroot : v.typeOf v.root ≠ some .symlink) :
    ∀ {calls : ℕ} {path : List CChar} {start : Option EntryId},
      pathToEntry v true calls path start = .ok (e, v') → v.typeOf e ≠ some .symlink
  | 0, _, _, h => by simp [pathToEntry] at h
  | calls + 1, path, start, h => by
    unfold pathToEntry at h
    obtain ⟨w, hw, h⟩ := bind_ok h
    cases w with
    | expand path' d => exact pathToEntry_plain hnull hroot h
    | done x v'' =>
      simp only [pure, Except.pure, Except.ok.injEq, Prod.mk.injEq] at h
      obtain ⟨rfl, rfl⟩ := h
      unfold pathTurn at hw
      obtain ⟨len, -, hw⟩ := bind_ok hw
      split_ifs at hw
      · simp only [pure, Except.pure, Except.ok.injEq, Turn.done.injEq] at hw
        rw [← hw.1]
        exact hnull
      · simp only [pure, Except.pure, Except.ok.injEq, Turn.done.injEq] at hw
        rw [← hw.1]
        exact hroot
      · exact walk_plain hnull hw
      · cases start with
        | none =>
          simp only [pure, Except.pure, Except.ok.injEq, Turn.done.injEq] at hw
          rw [← hw.1]
          exact hnull
        | some s => exact walk_plain hnull hw

end Plain

end Fishix.Fs
