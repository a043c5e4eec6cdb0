import Fishix.Common.Cursor
import Fishix.Fs.Unlink

/-!
# Reading a directory

Model of `tmpfs::Filesystem::readdir` (fs/tmpfs.cpp:68-91) behind `getdents64`
(fs/vfs.cpp:590-598), and of a scan: `getdents64` again and again on one description, with lookups,
creations and removals in its directory in between.

The cursor is a position in `children_list`. That list grows at its head, also where a lookup
fails (fs/vfs.cpp:134-139), and shrinks anywhere (fs/vfs.cpp:164-168).

* `readdirLoop_spec`: what one call hands out.
* `children_nodup`: no entry stands in a list twice, in every run.
* `scan_complete`: a scan hands out what stays in the directory once, if the list does not move
  under the cursor.
* `scan_repeats`: a failing lookup between two calls.
-/

namespace Fishix.Fs

/-! ## Model -/

/-- `sizeof(vfs::Dirent)`. -/
def direntSize : ℕ := 24

/-- `klib::align_up(sizeof(vfs::Dirent) + name_len + 1, 8)` (fs/tmpfs.cpp:76-77). -/
def entryLen (name : Name) : ℕ := (direntSize + name.length + 1 + 7) / 8 * 8

/-- A `Dirent` (fs/vfs.hpp:194-199), with the child it describes; `vnode` stands for `d_ino`. -/
structure Dirent where
  child : EntryId
  vnode : Option VNodeId
  off : ℕ
  reclen : ℕ
  nodeType : Option NodeType
  name : Name
  deriving DecidableEq

/-- What one call writes into the buffer, the number of bytes, and the cursor behind it. -/
structure Batch where
  dirents : List Dirent
  count : ℕ
  cursor : ℕ
  deriving DecidableEq

namespace Vfs

/-- The loop of `readdir` (fs/tmpfs.cpp:71-88) over the rest of the list. -/
def readdirLoop (v : Vfs) (maxSize cursor : ℕ) : List EntryId → ℕ → ℕ → Batch
  | [], i, count => ⟨[], count, i⟩
  | child :: rest, i, count =>
    if i < cursor ∨ (v.entry child).vnode = none then
      v.readdirLoop maxSize cursor rest (i + 1) count
    else
      let len := entryLen (v.entry child).name
      if count + len > maxSize then ⟨[], count, i⟩
      else
        let batch := v.readdirLoop maxSize cursor rest (i + 1) (count + len)
        { batch with dirents := ⟨child, (v.entry child).vnode, i, len, v.typeOf child,
            (v.entry child).name⟩ :: batch.dirents }

/-- `tmpfs::Filesystem::readdir` (fs/tmpfs.cpp:68-91). -/
def readdir (v : Vfs) (dir : EntryId) (maxSize cursor : ℕ) : Batch :=
  v.readdirLoop maxSize cursor (v.entry dir).children 0 0

end Vfs

/-- A description of the directory `dir` that is read. Of what no call can see, `returned` holds
    the entries handed out so far, and `through` those that named something from the start of the
    scan on. -/
structure Scan where
  vfs : Vfs
  dir : EntryId
  cursor : ℕ
  returned : List EntryId
  through : List EntryId
  deriving DecidableEq

/-- One step of a scan, or of another process in the directory. -/
inductive ScanOp
  | getdents (maxSize : ℕ)
  | lookup (name : Name)
  /-- A new node: `open`, `mkdir`, `mknod`, `symlink`, `bind`. -/
  | create (name : Name) (node : VNode)
  | link (name : Name) (old : EntryId)
  | unlink (name : Name)
  deriving DecidableEq

namespace Scan

/-- The description is opened. -/
def opened (v : Vfs) (dir : EntryId) : Scan where
  vfs := v
  dir := dir
  cursor := 0
  returned := []
  through := (v.entry dir).children.filter (v.Live ·)

/-- The tree has changed. -/
def after (s : Scan) (v : Vfs) : Scan :=
  { s with
    vfs := v
    through := s.through.filter fun x => x ∈ (v.entry s.dir).children ∧ v.Live x }

def step (s : Scan) : ScanOp → Except Fault Scan
  | .getdents maxSize =>
    let batch := s.vfs.readdir s.dir maxSize s.cursor
    return { s with
      cursor := batch.cursor
      returned := s.returned ++ batch.dirents.map (·.child) }
  | .lookup name => return s.after (s.vfs.lookup s.dir name).2
  | .create name node => do
    let (e, v) := s.vfs.lookup s.dir name
    if (v.entry e).vnode ≠ none then return s.after v
    else return s.after (← v.createNode e node)
  | .link name old => do
    let (e, v) := s.vfs.lookup s.dir name
    if (v.entry e).vnode ≠ none ∨ (v.entry old).vnode = none then return s.after v
    else return s.after (← (v.shareNode e old).createLink e)
  | .unlink name => do
    let (e, v) := s.vfs.lookup s.dir name
    if (v.entry e).vnode = none then return s.after v
    else return s.after (← Tree.remove { vfs := v } e).vfs

/-! ## When the list keeps still under the cursor -/

/-- The buffer holds any single entry. -/
def Large (s : Scan) (maxSize : ℕ) : Prop :=
  ∀ x ∈ (s.vfs.entry s.dir).children, s.vfs.Live x → entryLen (s.vfs.entry x).name ≤ maxSize

/-- A name that is not there does not push what was handed out last behind the cursor. -/
def RoomFor (s : Scan) (name : Name) : Prop :=
  s.vfs.findChild s.dir name = none → 0 < s.cursor →
    ∀ x ∈ s.through, (s.vfs.entry s.dir).children[s.cursor - 1]? ≠ some x

/-- An entry that goes does not pull what comes next before the cursor. -/
def GapFor (s : Scan) (name : Name) : Prop :=
  ∀ e ∈ s.vfs.findChild s.dir name, s.vfs.Live e →
    e ∈ (s.vfs.entry s.dir).children.take s.cursor →
      ∀ x ∈ s.through, (s.vfs.entry s.dir).children[s.cursor]? ≠ some x

/-- The list does not move under the cursor: an entry is put in front only if the scan is at its
    start, or what it handed out last has not been there throughout; one before the cursor is
    taken out only if what comes next has not. -/
def Still (s : Scan) : ScanOp → Prop
  | .getdents maxSize => s.Large maxSize
  | .lookup name => s.RoomFor name
  | .create name _ => s.RoomFor name
  | .link name _ => s.RoomFor name
  | .unlink name => s.RoomFor name ∧ s.GapFor name

/-- Nothing but that the buffers are large enough. -/
def Buffered (s : Scan) : ScanOp → Prop
  | .getdents maxSize => s.Large maxSize
  | _ => True

instance (s : Scan) : DecidablePred s.Large := fun _ => inferInstanceAs (Decidable (∀ x ∈ _, _ → _))

instance (s : Scan) : DecidablePred s.RoomFor := fun _ =>
  inferInstanceAs (Decidable (_ → _ → ∀ x ∈ _, _))

instance (s : Scan) : DecidablePred s.GapFor := fun _ =>
  inferInstanceAs (Decidable (∀ e ∈ _, _ → _ → ∀ x ∈ _, _))

instance (s : Scan) : DecidablePred s.Still
  | .getdents maxSize => inferInstanceAs (Decidable (s.Large maxSize))
  | .lookup name => inferInstanceAs (Decidable (s.RoomFor name))
  | .create name _ => inferInstanceAs (Decidable (s.RoomFor name))
  | .link name _ => inferInstanceAs (Decidable (s.RoomFor name))
  | .unlink name => inferInstanceAs (Decidable (s.RoomFor name ∧ s.GapFor name))

instance (s : Scan) : DecidablePred s.Buffered
  | .getdents maxSize => inferInstanceAs (Decidable (s.Large maxSize))
  | .lookup _ => isTrue trivial
  | .create _ _ => isTrue trivial
  | .link _ _ => isTrue trivial
  | .unlink _ => isTrue trivial

end Scan

/-! ## One call -/

section Loop

variable {v : Vfs} {maxSize cursor : ℕ}

theorem entryLen_pos (name : Name) : 0 < entryLen name := by
  unfold entryLen direntSize
  omega

/-- What the loop hands out of a rest of the list, and where it stops. -/
structure LoopResult (v : Vfs) (maxSize cursor : ℕ) (l : List EntryId) (i count : ℕ) (b : Batch) :
    Prop where
  first : i ≤ b.cursor
  last : b.cursor ≤ i + l.length
  dirents : b.dirents.map (·.child) =
    ((l.take (b.cursor - i)).drop (cursor - i)).filter (v.Live ·)
  grows : b.dirents ≠ [] → count < b.count
  same : b.dirents = [] → b.count = count
  full : b.cursor < i + l.length → cursor ≤ b.cursor ∧
    ∃ x ∈ l, v.Live x ∧ maxSize < b.count + entryLen (v.entry x).name

theorem readdirLoop_spec : ∀ (l : List EntryId) (i count : ℕ),
    LoopResult v maxSize cursor l i count (v.readdirLoop maxSize cursor l i count)
  | [], i, count => ⟨Nat.le_refl i, Nat.le_refl i, by simp [Vfs.readdirLoop],
      fun h => absurd rfl h, fun _ => rfl, fun h => absurd h (Nat.lt_irrefl i)⟩
  | child :: rest, i, count => by
    unfold Vfs.readdirLoop
    have hskip := readdirLoop_spec rest (i + 1) count
    have htake := readdirLoop_spec rest (i + 1) (count + entryLen (v.entry child).name)
    simp only
    split_ifs with hpass hfull
    · generalize v.readdirLoop maxSize cursor rest (i + 1) count = b at hskip
      obtain ⟨hfirst, hlast, hdirents, hgrows, hsame, hstop⟩ := hskip
      have hsucc : b.cursor - i = b.cursor - (i + 1) + 1 := by omega
      refine ⟨by omega, by simp only [List.length_cons]; omega, ?_, hgrows, hsame, ?_⟩
      · rw [hdirents, hsucc, List.take_succ_cons]
        by_cases hi : i < cursor
        · rw [show cursor - i = cursor - (i + 1) + 1 by omega, List.drop_succ_cons]
        · have hnode : (v.entry child).vnode = none := hpass.resolve_left hi
          rw [show cursor - i = 0 by omega, show cursor - (i + 1) = 0 by omega, List.drop_zero,
            List.drop_zero, List.filter_cons_of_neg (by simp [Vfs.Live, hnode])]
      · intro hlt
        obtain ⟨hc, x, hx, hlen⟩ := hstop (by simp only [List.length_cons] at hlt; omega)
        exact ⟨hc, x, List.mem_cons_of_mem _ hx, hlen⟩
    · refine ⟨Nat.le_refl i, Nat.le_add_right i _, by simp, fun h => absurd rfl h, fun _ => rfl, ?_⟩
      intro _
      exact ⟨Nat.le_of_not_lt fun hi => hpass (.inl hi), child, List.mem_cons_self,
        fun hnode => hpass (.inr hnode), hfull⟩
    · have hpos := entryLen_pos (v.entry child).name
      generalize v.readdirLoop maxSize cursor rest (i + 1)
        (count + entryLen (v.entry child).name) = b at htake
      obtain ⟨hfirst, hlast, hdirents, hgrows, hsame, hstop⟩ := htake
      have hsucc : b.cursor - i = b.cursor - (i + 1) + 1 := by omega
      have hcursor : ¬i < cursor := fun hi => hpass (.inl hi)
      have hlive : v.Live child := fun hnode => hpass (.inr hnode)
      refine ⟨by simp only; omega, by simp only [List.length_cons]; omega, ?_, ?_, ?_, ?_⟩
      · simp only [List.map_cons]
        rw [hdirents, hsucc, List.take_succ_cons, show cursor - i = 0 by omega,
          show cursor - (i + 1) = 0 by omega, List.drop_zero, List.drop_zero,
          List.filter_cons_of_pos (by simpa using hlive)]
      · intro _
        by_cases hb : b.dirents = []
        · have := hsame hb
          simp only
          omega
        · have := hgrows hb
          simp only
          omega
      · intro hnil
        cases hnil
      · intro hlt
        obtain ⟨hc, x, hx, hlen⟩ := hstop (by simp only [List.length_cons] at hlt; omega)
        exact ⟨hc, x, List.mem_cons_of_mem _ hx, hlen⟩

/-- What a call hands out, and when it returns 0. -/
theorem readdir_spec (v : Vfs) (dir : EntryId) (maxSize cursor : ℕ) :
    LoopResult v maxSize cursor (v.entry dir).children 0 0 (v.readdir dir maxSize cursor) :=
  readdirLoop_spec _ 0 0

end Loop

/-! ## Lists without repetition -/

/-- No list holds an entry twice. -/
def ListedOnce (v : Vfs) : Prop := ∀ d, (v.entry d).children.Nodup

namespace ListedOnce

variable {v : Vfs} {d e p : EntryId} {c : Name} {n : VNodeId}

theorem updateEntry (h : ListedOnce v) {f : Entry → Entry} (hf : (f (v.entry e)).children.Nodup) :
    ListedOnce (v.updateEntry e f) := by
  intro x
  rw [Vfs.updateEntry_entry]
  split_ifs
  · exact hf
  · exact h x

/-- A new entry becomes a child. -/
theorem newChild (h : ListedOnce v) (hv : Forest v) {y : Entry} (hch : y.children = []) :
    ListedOnce ((v.alloc y).2.addChild e v.entries.length) := by
  have halloc : ListedOnce (v.alloc y).2 := by
    intro x
    rw [Vfs.alloc_entry]
    split_ifs
    · simp [hch]
    · exact h x
  refine halloc.updateEntry (List.nodup_cons.mpr ⟨?_, halloc e⟩)
  rw [Vfs.alloc_entry]
  split_ifs
  · simp [hch]
  · exact fun hmem => Nat.lt_irrefl _ (hv.listed_lt hmem)

theorem addMissing (h : ListedOnce v) (hv : Forest v) : ListedOnce (v.addMissing p e) := by
  unfold Vfs.addMissing
  cases hf : v.findChild p (v.entry e).name with
  | some x => exact h
  | none =>
    refine h.updateEntry (List.nodup_cons.mpr ⟨?_, h p⟩)
    exact fun hmem => (Vfs.findChild_eq_none hv.hash).mp hf e hmem rfl

theorem place (h : ListedOnce v) (hv : Forest v) (hp : (v.entry e).parent = some p)
    (hn : n < v.nodes.length) : ListedOnce (v.place p e n) := by
  have hne : e ≠ v.nullEntry := hv.ne_null_of_parent (by simp [hp])
  have hlt : e < v.entries.length := Vfs.lt_of_parent (by simp [hp])
  have hset : ListedOnce (v.setNode e (some n)) := h.updateEntry (h e)
  have hmissing := hset.addMissing (p := p) (e := e) (hv.setNode hne hn)
  have hforest : Forest ((v.setNode e (some n)).addMissing p e) := by
    refine (hv.setNode hne hn).addMissing ?_
    rw [Vfs.setNode_entry, if_pos ⟨rfl, hlt⟩]
    exact hp
  unfold Vfs.place Vfs.enter
  simp only
  split_ifs with hdir
  · have hvnode : (((v.setNode e (some n)).addMissing p e).entry e).vnode ≠ none := by
      intro hnone
      simp [Vfs.node, hnone] at hdir
    unfold Vfs.addDots
    refine (hmissing.newChild hforest rfl).newChild ?_ rfl
    refine hforest.newChild rfl ?_ (fun m hm => hforest.vnode_lt hm) rfl rfl hvnode
    intro r hr
    obtain rfl : e = r := Option.some.inj hr
    exact Vfs.lt_of_vnode hvnode
  · exact hmissing

theorem keptByChanges : KeptByChanges ListedOnce where
  negative hv h _ _ := h.newChild hv rfl
  pushNode h _ := h
  setData h _ _ := h
  place hv h hp hn := h.place hv hp hn
  unlink _ h _ := h.updateEntry ((h _).erase _)

end ListedOnce

theorem children_nodup {t : Tree} (h : Run Tree.step (fun _ _ => True) Tree.booted t) :
    Forest t.vfs ∧ ListedOnce t.vfs := by
  refine ListedOnce.keptByChanges.run ?_ h
  intro d
  by_cases hd : d < 4
  · have hin : ∀ d < 4, (Vfs.booted.entry d).children.Nodup := by decide
    exact hin d hd
  · rw [show Vfs.booted.entry d = _ from Vfs.entry_of_le (Nat.le_of_not_lt hd)]
    exact List.nodup_nil

/-- An entry that is a child gets its node, and the list stays as it is. -/
theorem Vfs.place_dir {v : Vfs} (hv : Forest v) {p e : EntryId} {n : VNodeId}
    (he : e ∈ (v.entry p).children) : (v.place p e n).entry p = v.entry p := by
  have hp := hv.parent_of he
  have hpe : p ≠ e := Nat.ne_of_lt (hv.parent_lt hp)
  have hplt := (hv.lt_of_listed he).1
  obtain ⟨l, hl, hent⟩ := setNode_addMissing (n := n) hv hp (.inl he)
  have hlist : l = (v.entry p).children := by
    obtain ⟨hl, -⟩ | ⟨-, hno⟩ := hl
    · exact hl
    · exact absurd rfl (hno e he)
  have hset : ((v.setNode e (some n)).addMissing p e).entry p = v.entry p := by
    rw [hent, if_neg hpe, if_pos rfl, hlist]
  have hlen : ((v.setNode e (some n)).addMissing p e).entries.length = v.entries.length := by
    rw [Vfs.addMissing_length]
    exact Vfs.updateEntry_length _
  unfold Vfs.place Vfs.enter
  simp only
  split_ifs
  · rw [addDots_entry (by rw [hlen]; exact hv.listed_lt he) (by rw [hlen]; exact hplt) hpe, hlen,
      if_neg (Nat.ne_of_lt hplt), if_neg (Nat.ne_of_lt (Nat.lt_succ_of_lt hplt)), if_neg hpe]
    exact hset
  · exact hset

/-! ## Scans -/

/-- What every step of a scan keeps. -/
structure Scanning (s : Scan) : Prop where
  forest : Forest s.vfs
  redirect : (s.vfs.entry s.dir).redirect = none
  node : (s.vfs.entry s.dir).vnode ≠ none
  live : ∀ x ∈ s.through, s.vfs.Live x
  scanned : Scanned (s.vfs.entry s.dir).children s.cursor s.through s.returned

namespace Scanning

variable {s : Scan} {w : Vfs} {e : EntryId} {c : Name} {n : VNodeId}

theorem opened {v : Vfs} (hv : Forest v) (hlist : ListedOnce v) {d : EntryId} (hd : v.IsDir d) :
    Scanning (Scan.opened v d) := by
  refine ⟨hv, hd.2, hd.vnode, ?_, Scanned.start (hlist d) fun x hx => (List.mem_filter.mp hx).1⟩
  intro x hx
  exact of_decide_eq_true (List.mem_filter.mp hx).2

/-- Entries that have gone do not count. -/
theorem after (h : Scanning { s with vfs := w }) : Scanning (s.after w) :=
  ⟨h.forest, h.redirect, h.node, fun x hx => h.live x (List.mem_of_mem_filter hx),
    h.scanned.mono fun _ hx => List.mem_of_mem_filter hx⟩

section

variable (h : Scanning s)

include h

theorem getdents (maxSize : ℕ) {s' : Scan} (hstep : s.step (.getdents maxSize) = .ok s') :
    Scanning s' := by
  cases hstep
  have hspec := readdir_spec s.vfs s.dir maxSize s.cursor
  refine ⟨h.forest, h.redirect, h.node, h.live, ?_⟩
  have hadv := h.scanned.advance (p := (s.vfs.Live ·)) (j := (s.vfs.readdir s.dir maxSize s.cursor).cursor)
    (fun x hx => by simpa using h.live x hx) ?_
  · simpa only [hspec.dirents, Nat.sub_zero] using hadv
  · have hlast := hspec.last
    by_cases hfull : (s.vfs.readdir s.dir maxSize s.cursor).cursor < (s.vfs.entry s.dir).children.length
    · exact .inl (hspec.full (by omega)).1
    · exact .inr (Nat.le_of_not_lt hfull)

/-- A lookup ends at a child of the directory, and at one that was there if it names something. -/
theorem lookup (hroom : s.RoomFor c) (hlook : s.vfs.lookup s.dir c = (e, w)) :
    Scanning { s with vfs := w } ∧ e ∈ (w.entry s.dir).children ∧
      (w.Live e → w = s.vfs ∧ s.vfs.findChild s.dir c = some e) := by
  rw [lookup_of_dir h.forest h.redirect] at hlook
  cases hfind : s.vfs.findChild s.dir c with
  | some x =>
    simp only [hfind, Prod.mk.injEq] at hlook
    obtain ⟨rfl, rfl⟩ := hlook
    exact ⟨h, (Vfs.mem_of_findChild hfind).1, fun _ => ⟨rfl, rfl⟩⟩
  | none =>
    simp only [hfind, Prod.mk.injEq] at hlook
    obtain ⟨rfl, rfl⟩ := hlook
    have hlt := Vfs.lt_of_vnode h.node
    have hdir : (s.vfs.negative s.dir c).entry s.dir =
        { s.vfs.entry s.dir with
          children := s.vfs.entries.length :: (s.vfs.entry s.dir).children } := by
      rw [Vfs.negative_entry hlt, if_pos rfl]
    refine ⟨⟨h.forest.negative h.node, ?_, ?_, ?_, ?_⟩, ?_, ?_⟩
    · show ((s.vfs.negative s.dir c).entry s.dir).redirect = none
      rw [hdir]
      exact h.redirect
    · show ((s.vfs.negative s.dir c).entry s.dir).vnode ≠ none
      rw [hdir]
      exact h.node
    · intro x hx
      show ((s.vfs.negative s.dir c).entry x).vnode ≠ none
      rw [Vfs.negative_vnode]
      exact h.live x hx
    · show Scanned ((s.vfs.negative s.dir c).entry s.dir).children _ _ _
      rw [hdir]
      exact h.scanned.cons (fun hmem => Nat.lt_irrefl _ (h.forest.listed_lt hmem)) (hroom hfind)
    · rw [hdir]
      exact List.mem_cons_self
    · intro hlive
      refine absurd ?_ hlive
      rw [Vfs.negative_vnode, Vfs.entry_of_le (Nat.le_refl _)]
      rfl

theorem pushNode (y : VNode) : Scanning { s with vfs := s.vfs.pushNode y } :=
  ⟨h.forest.pushNode y, h.redirect, h.node, h.live, h.scanned⟩

/-- A child gets its node. -/
theorem place (he : e ∈ (s.vfs.entry s.dir).children) (hn : n < s.vfs.nodes.length) :
    Scanning { s with vfs := s.vfs.place s.dir e n } := by
  have hdir := Vfs.place_dir (n := n) h.forest he
  refine ⟨h.forest.place (h.forest.parent_of he) hn, ?_, ?_, ?_, ?_⟩
  · show ((s.vfs.place s.dir e n).entry s.dir).redirect = none
    rw [hdir]
    exact h.redirect
  · show ((s.vfs.place s.dir e n).entry s.dir).vnode ≠ none
    rw [hdir]
    exact h.node
  · intro x hx
    show ((s.vfs.place s.dir e n).entry x).vnode ≠ none
    rw [Vfs.place_vnode (Vfs.lt_of_vnode (h.live x hx))]
    split_ifs
    · simp
    · exact h.live x hx
  · show Scanned ((s.vfs.place s.dir e n).entry s.dir).children _ _ _
    rw [hdir]
    exact h.scanned

/-- A child goes. -/
theorem unlink (he : e ∈ (s.vfs.entry s.dir).children) (hgap : e ∈ (s.vfs.entry s.dir).children.take
    s.cursor → ∀ x ∈ s.through, (s.vfs.entry s.dir).children[s.cursor]? ≠ some x) :
    Scanning (s.after (s.vfs.unlink s.dir e)) := by
  have hlt := (h.forest.lt_of_listed he).1
  have hdir : (s.vfs.unlink s.dir e).entry s.dir =
      { s.vfs.entry s.dir with children := (s.vfs.entry s.dir).children.erase e } := by
    rw [Vfs.unlink_entry, if_pos ⟨rfl, hlt⟩]
  have hgone : e ∉ (s.after (s.vfs.unlink s.dir e)).through := by
    intro hmem
    have hlisted := (of_decide_eq_true (List.mem_filter.mp hmem).2).1
    rw [hdir] at hlisted
    exact h.scanned.distinct.not_mem_erase hlisted
  have hsub : ∀ x ∈ (s.after (s.vfs.unlink s.dir e)).through, x ∈ s.through :=
    fun x hx => List.mem_of_mem_filter hx
  refine ⟨h.forest.unlink (h.forest.lt_of_listed he).2.2, ?_, ?_, ?_, ?_⟩
  · show ((s.vfs.unlink s.dir e).entry s.dir).redirect = none
    rw [hdir]
    exact h.redirect
  · show ((s.vfs.unlink s.dir e).entry s.dir).vnode ≠ none
    rw [hdir]
    exact h.node
  · intro x hx
    show ((s.vfs.unlink s.dir e).entry x).vnode ≠ none
    rw [(s.vfs.unlink_fields s.dir e x).1]
    exact h.live x (hsub x hx)
  · show Scanned ((s.vfs.unlink s.dir e).entry s.dir).children _ _ _
    rw [hdir]
    exact (h.scanned.mono hsub).erase hgone fun hmem x hx => hgap hmem x (hsub x hx)

theorem step {op : ScanOp} {s' : Scan} (hok : s.Still op) (hstep : s.step op = .ok s') :
    Scanning s' := by
  cases op with
  | getdents maxSize => exact h.getdents maxSize hstep
  | lookup c =>
    cases hstep
    exact (h.lookup (e := (s.vfs.lookup s.dir c).1) hok rfl).1.after
  | create c y =>
    obtain ⟨e, w, hlook⟩ : ∃ e w, s.vfs.lookup s.dir c = (e, w) := ⟨_, _, rfl⟩
    unfold Scan.step at hstep
    simp only [hlook] at hstep
    obtain ⟨hw, he, -⟩ := h.lookup hok hlook
    split_ifs at hstep with hlive
    · cases hstep
      exact hw.after
    · obtain ⟨v, hv, rfl⟩ := bind_pure_ok hstep
      rw [Vfs.createNode_eq, hw.forest.parent_of he] at hv
      cases hv
      exact ((hw.pushNode y).place he (by simp [Vfs.pushNode])).after
  | link c old =>
    obtain ⟨e, w, hlook⟩ : ∃ e w, s.vfs.lookup s.dir c = (e, w) := ⟨_, _, rfl⟩
    unfold Scan.step at hstep
    simp only [hlook] at hstep
    obtain ⟨hw, he, -⟩ := h.lookup hok hlook
    split_ifs at hstep with hnot
    · cases hstep
      exact hw.after
    · obtain ⟨v, hv, rfl⟩ := bind_pure_ok hstep
      obtain ⟨p, hp, rfl⟩ := Vfs.createLink_share hv
      obtain rfl : s.dir = p := Option.some.inj ((hw.forest.parent_of he).symm.trans hp)
      obtain ⟨n, hn⟩ := Option.ne_none_iff_exists'.mp fun hold => hnot (.inr hold)
      rw [hn]
      exact (hw.place he (hw.forest.vnode_lt hn)).after
  | unlink c =>
    obtain ⟨hroom, hgap⟩ := hok
    obtain ⟨e, w, hlook⟩ : ∃ e w, s.vfs.lookup s.dir c = (e, w) := ⟨_, _, rfl⟩
    unfold Scan.step at hstep
    simp only [hlook] at hstep
    obtain ⟨hw, he, hthere⟩ := h.lookup hroom hlook
    split_ifs at hstep with hfree
    · cases hstep
      exact hw.after
    · obtain ⟨t, ht, rfl⟩ := bind_pure_ok hstep
      obtain ⟨rfl, hfind⟩ := hthere hfree
      have hparent := h.forest.parent_of he
      obtain ⟨-, ⟨p, hp, -, rfl⟩ | ⟨hp, -⟩⟩ := Tree.remove_cases ht
      · obtain rfl : s.dir = p := Option.some.inj (hparent.symm.trans hp)
        exact h.unlink he (hgap e hfind hfree)
      · rw [show (s.vfs.entry e).parent = none from hp] at hparent
        cases hparent

end

end Scanning

/-- **Main theorem.** In a scan under whose cursor the list keeps still, every entry that names
    something throughout is handed out at most once, and once when `getdents64` returns 0. -/
theorem scan_complete {t : Tree} (ht : Run Tree.step (fun _ _ => True) Tree.booted t) {d : EntryId}
    (hd : t.vfs.IsDir d) {s : Scan} (h : Run Scan.step Scan.Still (Scan.opened t.vfs d) s) :
    (∀ x ∈ s.through, s.returned.count x ≤ 1) ∧
    ∀ maxSize, s.Large maxSize → (s.vfs.readdir s.dir maxSize s.cursor).count = 0 →
      ∀ x ∈ s.through, s.returned.count x = 1 := by
  obtain ⟨hforest, hlist⟩ := children_nodup ht
  have hs : Scanning s := h.invariant (fun _ _ _ hs ok next => hs.step ok next)
    (Scanning.opened hforest hlist hd)
  refine ⟨hs.scanned.once, ?_⟩
  intro maxSize hlarge hcount
  have hspec := readdir_spec s.vfs s.dir maxSize s.cursor
  generalize s.vfs.readdir s.dir maxSize s.cursor = b at hspec hcount
  have hnil : b.dirents = [] := by
    by_contra hne
    have := hspec.grows hne
    omega
  -- the call came to the end of the list
  have hend : (s.vfs.entry s.dir).children.length ≤ b.cursor := by
    by_contra hlt
    obtain ⟨-, x, hx, hlive, hlen⟩ := hspec.full (by omega)
    have := hlarge x hx hlive
    omega
  refine hs.scanned.complete fun x hx => ?_
  have hempty := hspec.dirents
  simp only [Nat.sub_zero] at hempty
  rw [hnil, List.map_nil, List.take_of_length_le hend] at hempty
  have hmem := hs.scanned.listed x hx
  rw [← List.take_append_drop s.cursor (s.vfs.entry s.dir).children, List.mem_append] at hmem
  refine hmem.resolve_right fun hdrop => ?_
  have : x ∈ ((s.vfs.entry s.dir).children.drop s.cursor).filter (s.vfs.Live ·) :=
    List.mem_filter.mpr ⟨hdrop, by simpa using hs.live x hx⟩
  rw [← hempty] at this
  simp at this

/-- Before the first `getdents64` a name that is not there is looked up and a file made; the file goes
    when everything was handed out. -/
def stillOps : List ScanOp := [.lookup (chars "x"), .create (chars "f") ⟨.regular, some []⟩,
  .getdents 64, .getdents 64, .unlink (chars "f"), .getdents 64]

theorem scan_complete_stillOps : ∃ s,
    stillOps.foldlM (guarded Scan.step Scan.Still .assertion) (Scan.opened Vfs.booted 0) = .ok s ∧
      s.through = [3, 2] ∧ ∀ x ∈ s.through, s.returned.count x = 1 := by
  obtain ⟨s, hs, hall⟩ := exists_ok_of_map (show (stillOps.foldlM
    (guarded Scan.step Scan.Still .assertion) (Scan.opened Vfs.booted 0)).map (fun s =>
      decide (s.through = [3, 2] ∧ s.Large 64 ∧ (s.vfs.readdir s.dir 64 s.cursor).count = 0)) =
        .ok true by rfl)
  obtain ⟨hthrough, hlarge, hcount⟩ := of_decide_eq_true hall
  exact ⟨s, hs, hthrough, (scan_complete (t := Tree.booted) .start (d := 0) ⟨by decide, by decide⟩
    (Run.of_guarded hs)).2 64 hlarge hcount⟩

/-- The root is read an entry at a time, and between two calls a name is looked up that is not
    there: the entry `..` is handed out twice. -/
theorem scan_repeats : ∃ s, Run Scan.step Scan.Buffered (Scan.opened Vfs.booted 0) s ∧
    ¬∀ x ∈ s.through, s.returned.count x ≤ 1 := by
  obtain ⟨s, hs, hall⟩ := exists_ok_of_map (show ([.getdents 32, .lookup (chars "x"),
    .getdents 32].foldlM (guarded Scan.step Scan.Buffered .assertion) (Scan.opened Vfs.booted 0)).map
      (fun s => decide (3 ∈ s.through ∧ s.returned.count 3 = 2)) = .ok true by rfl)
  obtain ⟨hthrough, hcount⟩ := of_decide_eq_true hall
  refine ⟨s, Run.of_guarded hs, fun honce => ?_⟩
  have := honce 3 hthrough
  omega

end Fishix.Fs
