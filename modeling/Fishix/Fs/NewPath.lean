import Fishix.Fs.Expansion
import Fishix.Fs.Resolution

/-!
# The buffer a symlink is expanded in

`path_to_entry` reads at most 128 bytes of a link into `new_path`, gives up when there are more
than 127, and appends what stands at `s` with `strcpy` (fs/vfs.cpp:219-224), which does not ask
whether it fits. `s` points at the rest of the path; behind the last component it points behind
the string by as many bytes as duplicate slashes were skipped.

`LinkMet` is the way along the text of a path to the first link that is followed, without the
buffer; `Expanded` puts the text of the link in front of the rest.

* `walk_link`, `walk_noLink`: the loop against `LinkMet`.
* `inBuffer_iff`: one call.
* `expansions_inside_iff`: the calls a lookup makes, one after the other.
-/

namespace Fishix.Fs

open Vfs

/-- The text of the symlink that `c` names in `d`. -/
def Vfs.linkText (v : Vfs) (d : EntryId) (c : Name) : Option (List CChar) :=
  (v.findChild d c).bind fun e => if v.typeOf e = some .symlink then v.target e else none

/-- The first link followed on the way along the text `p` from `d`, with `k` duplicate slashes
    behind and `tail` in memory behind the NUL: it stands in `d'`, has the text `t`, and `s`
    points to what is appended. -/
inductive LinkMet (v : Vfs) (follow : Bool) (tail : List CChar) :
    EntryId → List CChar → ℕ → EntryId → List CChar → List CChar → Prop
  | duplicate {d d' : EntryId} {q t s : List CChar} {k : ℕ}
      (dir : v.typeOf d = some .directory) (more : 0 < q.length + k)
      (h : LinkMet v follow tail d q (k + 1) d' t s) :
      LinkMet v follow tail d (slash :: q) k d' t s
  | here {d : EntryId} {c q t : List CChar} {k : ℕ}
      (dir : v.typeOf d = some .directory) (name : slash ∉ c)
      (nonempty : c ≠ [] ∨ q.length + k = 0) (link : v.linkText d c = some t)
      (followed : 0 < q.length + k ∨ follow) :
      LinkMet v follow tail d (c ++ slash :: q) k d t ((slash :: q) ++ 0#8 :: tail)
  | last {d : EntryId} {c t : List CChar} {k : ℕ}
      (dir : v.typeOf d = some .directory) (name : slash ∉ c)
      (inside : k ≤ (0#8 :: tail).length) (link : v.linkText d c = some t) (followed : follow) :
      LinkMet v follow tail d c k d t ((0#8 :: tail).drop k)
  | into {d d' x : EntryId} {c q t s : List CChar} {k : ℕ}
      (dir : v.typeOf d = some .directory) (name : slash ∉ c) (nonempty : c ≠ [])
      (more : 0 < q.length + k) (child : v.findChild d c = some x) (node : (v.node x).isSome)
      (plain : v.typeOf x ≠ some .symlink)
      (h : LinkMet v follow tail (v.reduce x) q k d' t s) :
      LinkMet v follow tail d (c ++ slash :: q) k d' t s

/-- The directory a path is read from. -/
def Vfs.startOf (v : Vfs) (start : Option EntryId) (p : List CChar) : Option EntryId :=
  if p.head? = some slash then some v.root else start.map v.reduce

/-- The first link that a call follows. -/
def MeetsLink (v : Vfs) (follow : Bool) (a : Call) (d : EntryId) (t s : List CChar) : Prop :=
  ∃ p tail start, a.1 = p ++ 0#8 :: tail ∧ 0#8 ∉ p ∧ body p ≠ [] ∧ v.startOf a.2 p = some start ∧
    LinkMet v follow tail start (body p) 0 d t s

/-- The call that follows a link of at most 127 bytes. -/
def Expanded (v : Vfs) (follow : Bool) (a b : Call) : Prop :=
  ∃ d t s, MeetsLink v follow a d t s ∧ 0#8 ∈ s ∧ t.length ≤ 127 ∧
    b = (t ++ cstr s ++ List.replicate (newPathSize - t.length - (cstr s).length) 0#8, some d)

/-- The link a call follows, the rest of the path and the NUL fit into `new_path`, unless the link
    has more than 127 bytes. -/
def ExpansionFits (v : Vfs) (follow : Bool) (a : Call) : Prop :=
  ∀ d t s, MeetsLink v follow a d t s → 0#8 ∈ s → t.length ≤ 127 →
    t.length + (cstr s).length + 1 ≤ newPathSize

/-- What a call does with `new_path`. -/
structure InBuffer (v : Vfs) (follow : Bool) (a : Call) : Prop where
  inside : pathTurn v follow a.1 a.2 ≠ .error .overflow
  terminated : ∀ path d, pathTurn v follow a.1 a.2 = .ok (.expand path d) →
    path.length = newPathSize ∧ 0#8 ∈ path
  refused : ∀ d t s, MeetsLink v follow a d t s → 0#8 ∈ s →
    newPathSize < t.length + (cstr s).length + 1 →
      pathTurn v follow a.1 a.2 = .ok (.done v.nullEntry v)

/-! ## One component -/

variable {v : Vfs} {follow : Bool}

/-- What a call comes to at a link. -/
def linkTurn (v : Vfs) (d : EntryId) (t s : List CChar) : Except Fault Turn :=
  if 127 < t.length then .ok (.done v.nullEntry v)
  else do
    let path ← newPath t s
    return .expand path d

/-- No link was met: no call follows, and nothing was written to `new_path`. -/
def Plain : Except Fault Turn → Prop :=
  Yields (fun w => ∀ path d, w ≠ .expand path d) (fun e => e ≠ .overflow)

theorem plain_done (e : EntryId) (v' : Vfs) : Plain (.ok (.done e v')) := by
  intro path d h
  cases h

theorem lookup_of_findChild {d e : EntryId} {c : Name} (h : v.findChild d c = some e) :
    v.lookup d c = (e, v) := by
  unfold lookup
  rw [h]

theorem length_take_le_iff (t : List CChar) : 127 < (t.take 128).length ↔ 127 < t.length := by
  rw [List.length_take]
  omega

/-- The link `c` of `d` is followed. -/
theorem component_link {d : EntryId} {c : Name} {t : List CChar} {last : Bool}
    (link : v.linkText d c = some t) (followed : last = false ∨ follow) (s : List CChar) :
    component v follow d c last s = (linkTurn v d t s).map Sum.inl := by
  obtain ⟨e, he, htext⟩ := Option.bind_eq_some_iff.mp link
  split_ifs at htext with hsym
  obtain ⟨n, hn, hnt⟩ := typeOf_eq_some.mp hsym
  have hdata : n.data = some t := by simpa [target, hn] using htext
  have hread : v.readStart e 128 = some (t.take 128) := by
    simp [readStart, hn, hnt, hdata]
  have hfollow : (!last || follow) = true ∧ n.nodeType = .symlink := by
    refine ⟨?_, hnt⟩
    rcases followed with h | h <;> simp [h]
  unfold component linkTurn
  simp only [lookup_of_findChild he, hn]
  rw [if_pos hfollow, hread]
  by_cases hlong : 127 < t.length
  · simp only
    rw [if_pos ((length_take_le_iff t).mpr hlong), if_pos hlong]
    rfl
  · simp only
    rw [if_neg (fun h => hlong ((length_take_le_iff t).mp h)), if_neg hlong,
      List.take_of_length_le (by omega)]
    cases newPath t s with
    | error fault => rfl
    | ok path => rfl

/-- A child that is no link is gone on from. -/
theorem component_into {d x : EntryId} {c : Name} (child : v.findChild d c = some x)
    (node : (v.node x).isSome) (plain : v.typeOf x ≠ some .symlink) (s : List CChar) :
    component v follow d c false s = .ok (.inr x) := by
  obtain ⟨n, hn⟩ := Option.isSome_iff_exists.mp node
  have hnsym : ¬((!false || follow) = true ∧ n.nodeType = .symlink) := by
    rintro ⟨-, hsym⟩
    exact plain (by simp [typeOf, hn, hsym])
  unfold component
  simp only [lookup_of_findChild child, hn]
  rw [if_neg hnsym]
  rfl

/-- Without a link to follow the call ends, or goes on from a child that is none. -/
theorem component_noLink {d : EntryId} {c : Name} {last : Bool}
    (hno : ∀ t, v.linkText d c = some t → last = true ∧ follow = false) (s : List CChar) :
    (∃ e v', component v follow d c last s = .ok (.inl (.done e v'))) ∨
      ∃ x, component v follow d c last s = .ok (.inr x) ∧ last = false ∧
        v.findChild d c = some x ∧ (v.node x).isSome ∧ v.typeOf x ≠ some .symlink := by
  unfold component
  cases hf : v.findChild d c with
  | none =>
    have hnode : (v.lookup d c).2.node (v.lookup d c).1 = none := by
      rw [node_lookup, node_lookup_new hf]
    simp only [hnode]
    exact .inl ⟨_, _, rfl⟩
  | some e =>
    simp only [lookup_of_findChild hf]
    cases hn : v.node e with
    | none => exact .inl ⟨_, _, rfl⟩
    | some n =>
      have htype : v.typeOf e = some n.nodeType := by simp [typeOf, hn]
      simp only
      split_ifs with hsym hlast
      · -- a symlink that would be followed has no text
        have htext : v.linkText d c = n.data := by
          simp [linkText, hf, htype, hsym.2, target, hn]
        have hnone : v.readStart e 128 = none := by
          cases hdata : n.data with
          | none => simp [readStart, hn, hsym.2, hdata]
          | some t =>
            obtain ⟨hl, hfol⟩ := hno t (by rw [htext, hdata])
            simp [hl, hfol] at hsym
        rw [hnone]
        exact .inl ⟨_, _, rfl⟩
      · exact .inl ⟨_, _, rfl⟩
      · refine .inr ⟨e, rfl, by simpa using hlast, rfl, by simp [hn], ?_⟩
        rw [htype]
        intro h
        exact hsym ⟨by simp [hlast], Option.some.inj h⟩

/-! ## The loop -/

theorem walk_notDirectory {turns : ℕ} {d : EntryId} (hd : v.typeOf d ≠ some .directory)
    (path : List CChar) (len : ℕ) : Plain (walk v follow (turns + 1) d path len) := by
  unfold walk
  cases hn : v.node d with
  | none =>
    rw [orFault, error_bind]
    intro h
    cases h
  | some n =>
    have hdir : n.nodeType ≠ .directory := by
      intro h
      exact hd (by simp [typeOf, hn, h])
    rw [orFault, ok_bind, if_pos hdir]
    exact plain_done _ _

/-- At the first link to follow, the loop makes a new path of it. -/
theorem walk_link {tail : List CChar} {d d' : EntryId} {p t s : List CChar} {k : ℕ}
    (h : LinkMet v follow tail d p k d' t s) :
    ∀ {turns : ℕ}, 0#8 ∉ p → p.length < turns →
      walk v follow turns d (p ++ 0#8 :: tail) (p.length + k) = linkTurn v d' t s := by
  induction h with
  | duplicate dir more h ih =>
    intro turns h0 hturns
    obtain ⟨turns, rfl⟩ := Nat.exists_eq_add_of_lt hturns
    have hq0 := fun hq => h0 (List.mem_cons_of_mem _ hq)
    rw [walk_slash dir hq0 more]
    exact ih hq0 (by rw [List.length_cons]; omega)
  | @here d c q t k dir name nonempty link followed =>
    intro turns h0 hturns
    obtain ⟨turns, rfl⟩ := Nat.exists_eq_add_of_lt hturns
    rw [walk_component dir h0 name nonempty, component_link link]
    · cases linkTurn v d t ((slash :: q) ++ 0#8 :: tail) <;> rfl
    · refine followed.imp_left fun h => ?_
      rw [decide_eq_false_iff_not]
      omega
  | @last d c t k dir name inside link followed =>
    intro turns h0 hturns
    obtain ⟨turns, rfl⟩ := Nat.exists_eq_add_of_lt hturns
    rw [walk_end dir h0 name inside, component_link link (.inr followed)]
    cases linkTurn v d t ((0#8 :: tail).drop k) <;> rfl
  | @into d d' x c q t s k dir name nonempty more child node plain h ih =>
    intro turns h0 hturns
    obtain ⟨turns, rfl⟩ := Nat.exists_eq_add_of_lt hturns
    have hq0 : 0#8 ∉ q := fun hq => h0 (by simp [hq])
    have hlast : decide (q.length + k = 0) = false := by
      rw [decide_eq_false_iff_not]
      omega
    rw [walk_component dir h0 name (.inl nonempty), hlast, component_into child node plain, ok_bind]
    exact ih hq0 (by rw [List.length_append, List.length_cons]; omega)

/-- So many duplicate slashes that the copy of the last component leaves the memory. -/
theorem walk_outside {turns : ℕ} {tail c : List CChar} {d : EntryId} {k : ℕ}
    (hd : v.typeOf d = some .directory) (h0 : 0#8 ∉ c) (hc : slash ∉ c)
    (hk : ¬k ≤ (0#8 :: tail).length) :
    walk v follow (turns + 1) d (c ++ 0#8 :: tail) (c.length + k) = .error .overrun := by
  obtain ⟨n, hn, hnd⟩ := typeOf_eq_some.mp hd
  have hfound : strchr (c ++ 0#8 :: tail) slash = none := by
    rw [strchr_append h0, idxOf?_eq_none_of_not_mem hc]
  have hcopy : memcpyFrom (c ++ 0#8 :: tail) (c.length + k) = none := by
    unfold memcpyFrom
    rw [if_neg]
    rw [List.length_append]
    omega
  unfold walk
  rw [hn, hfound]
  simp only [orFault, ok_bind]
  rw [if_neg (not_not.mpr hnd), if_neg (by simp)]
  simp only [Option.getD_none, hcopy]
  rfl

theorem walk_noLink {tail : List CChar} :
    ∀ (turns : ℕ) (d : EntryId) (p : List CChar) (k : ℕ), 0#8 ∉ p → p.length < turns →
      (∀ d' t s, ¬LinkMet v follow tail d p k d' t s) →
      Plain (walk v follow turns d (p ++ 0#8 :: tail) (p.length + k))
  | 0, _, _, _, _, hturns, _ => absurd hturns (Nat.not_lt_zero _)
  | turns + 1, d, p, k, h0, hturns, hno => by
    by_cases hd : v.typeOf d = some .directory
    case neg => exact walk_notDirectory hd _ _
    rcases split_text p with hc | ⟨c, q, rfl, hc⟩
    · -- the last component, with no slash behind it
      by_cases hk : k ≤ (0#8 :: tail).length
      · have hnone : ∀ t, v.linkText d p = some t → true = true ∧ follow = false := by
          intro t ht
          refine ⟨rfl, Bool.eq_false_iff.mpr fun hf => ?_⟩
          exact hno d t _ (.last hd hc hk ht hf)
        rw [walk_end hd h0 hc hk]
        rcases component_noLink hnone ((0#8 :: tail).drop k) with ⟨e, v', hw⟩ | ⟨x, -, hlast, -⟩
        · rw [hw]
          exact plain_done e v'
        · cases hlast
      · rw [walk_outside hd h0 hc hk]
        intro h
        cases h
    · rw [List.length_append, List.length_cons] at hturns
      have hq0 : 0#8 ∉ q := fun hq => h0 (by simp [hq])
      by_cases hdup : c = [] ∧ 0 < q.length + k
      · obtain ⟨rfl, hmore⟩ := hdup
        rw [List.nil_append, walk_slash hd hq0 hmore]
        exact walk_noLink turns d q (k + 1) hq0 (by omega)
          fun d' t s h => hno d' t s (.duplicate hd hmore h)
      have hne : c ≠ [] ∨ q.length + k = 0 := by
        rcases not_and_or.mp hdup with h | h
        · exact .inl h
        · exact .inr (Nat.eq_zero_of_not_pos h)
      have hnone : ∀ t, v.linkText d c = some t →
          decide (q.length + k = 0) = true ∧ follow = false := by
        intro t ht
        have hnot : ¬(0 < q.length + k ∨ follow = true) :=
          fun h => hno d t _ (.here hd hc hne ht h)
        exact ⟨decide_eq_true (by omega), Bool.eq_false_iff.mpr fun h => hnot (.inr h)⟩
      rw [walk_component hd h0 hc hne]
      rcases component_noLink hnone ((slash :: q) ++ 0#8 :: tail) with
        ⟨e, v', hw⟩ | ⟨x, hw, hlast, hchild, hnode, hplain⟩
      · rw [hw]
        exact plain_done e v'
      · have hmore : 0 < q.length + k := Nat.pos_of_ne_zero (of_decide_eq_false hlast)
        have hcne : c ≠ [] := hne.resolve_right (Nat.ne_of_gt hmore)
        rw [hw, ok_bind]
        exact walk_noLink turns (v.reduce x) q k hq0 (by omega)
          fun d' t s h => hno d' t s (.into hd hc hcne hmore hchild hnode hplain h)

/-! ## One call -/

theorem newPath_of_fits {t s : List CChar} (h0 : 0#8 ∈ s)
    (hfits : t.length + (cstr s).length + 1 ≤ newPathSize) :
    newPath t s = .ok (t ++ cstr s ++
      List.replicate (newPathSize - t.length - (cstr s).length) 0#8) := by
  unfold newPath strlen
  rw [if_pos h0, orFault, ok_bind, if_pos hfits]

theorem newPath_of_not_fits {t s : List CChar} (h0 : 0#8 ∈ s)
    (hfits : ¬t.length + (cstr s).length + 1 ≤ newPathSize) :
    newPath t s = .error .overflow := by
  unfold newPath strlen
  rw [if_pos h0, orFault, ok_bind, if_neg hfits]

theorem newPath_of_not_mem {t s : List CChar} (h0 : 0#8 ∉ s) : newPath t s = .error .overrun := by
  unfold newPath strlen
  rw [if_neg h0, orFault, error_bind]

/-- A call with text to read and a directory to read it from enters the loop. -/
theorem pathTurn_walk {p tail : List CChar} {start : Option EntryId} {d : EntryId} (h0 : 0#8 ∉ p)
    (hbody : body p ≠ []) (hstart : v.startOf start p = some d) :
    pathTurn v follow (p ++ 0#8 :: tail) start =
      walk v follow (p ++ 0#8 :: tail).length d (body p ++ 0#8 :: tail) ((body p).length + 0) := by
  unfold pathTurn
  rw [strlen_append h0, orFault, ok_bind]
  cases p with
  | nil => exact absurd rfl hbody
  | cons c q =>
    rw [if_neg (by simp)]
    by_cases hc : c = slash
    · subst hc
      obtain rfl : v.root = d := by simpa [startOf] using hstart
      have hq : q ≠ [] := by simpa [body] using hbody
      rw [if_pos (by simp), if_neg (by simpa using hq)]
      simp [body]
    · obtain ⟨s, hs, rfl⟩ : ∃ s, start = some s ∧ v.reduce s = d := by
        simpa [startOf, hc] using hstart
      rw [if_neg (by simpa using hc), hs]
      simp [body, hc]

/-- Otherwise it ends at once. -/
theorem pathTurn_plain {p tail : List CChar} {start : Option EntryId} (h0 : 0#8 ∉ p)
    (h : body p = [] ∨ v.startOf start p = none) :
    Plain (pathTurn v follow (p ++ 0#8 :: tail) start) := by
  unfold pathTurn
  rw [strlen_append h0, orFault, ok_bind]
  cases p with
  | nil => exact plain_done _ _
  | cons c q =>
    rw [if_neg (by simp)]
    by_cases hc : c = slash
    · subst hc
      have hq : q = [] := by simpa [body, startOf] using h
      rw [if_pos (by simp), if_pos (by simp [hq])]
      exact plain_done _ _
    · have hs : start = none := by simpa [body, startOf, hc] using h
      rw [if_neg (by simpa using hc), hs]
      exact plain_done _ _

theorem length_body_lt (p tail : List CChar) : (body p).length < (p ++ 0#8 :: tail).length := by
  have hle : (body p).length ≤ p.length := by
    unfold body
    split_ifs <;> simp
  rw [List.length_append, List.length_cons]
  omega

theorem not_mem_body {p : List CChar} (h0 : 0#8 ∉ p) : 0#8 ∉ body p := by
  unfold body
  split_ifs
  · exact fun h => h0 (List.mem_of_mem_tail h)
  · exact h0

theorem pathTurn_link {a : Call} {d : EntryId} {t s : List CChar}
    (h : MeetsLink v follow a d t s) : pathTurn v follow a.1 a.2 = linkTurn v d t s := by
  obtain ⟨p, tail, start, hpath, h0, hbody, hstart, hmet⟩ := h
  rw [hpath, pathTurn_walk h0 hbody hstart]
  exact walk_link hmet (not_mem_body h0) (length_body_lt p tail)

theorem pathTurn_noLink {a : Call} (hno : ∀ d t s, ¬MeetsLink v follow a d t s) :
    Plain (pathTurn v follow a.1 a.2) := by
  by_cases hnul : 0#8 ∈ a.1
  case neg =>
    unfold pathTurn strlen
    rw [if_neg hnul, orFault, error_bind]
    intro h
    cases h
  obtain ⟨tail, hpath⟩ := eq_cstr_append hnul
  have h0 := not_mem_cstr a.1
  rw [hpath]
  by_cases hbody : body (cstr a.1) = []
  · exact pathTurn_plain h0 (.inl hbody)
  cases hstart : v.startOf a.2 (cstr a.1) with
  | none => exact pathTurn_plain h0 (.inr hstart)
  | some start =>
    rw [pathTurn_walk h0 hbody hstart]
    exact walk_noLink _ _ _ _ (not_mem_body h0) (length_body_lt _ _)
      fun d t s hmet => hno d t s ⟨cstr a.1, tail, start, hpath, h0, hbody, hstart, hmet⟩

theorem linkTurn_cases (v : Vfs) (d : EntryId) (t s : List CChar) :
    127 < t.length ∧ linkTurn v d t s = .ok (.done v.nullEntry v) ∨
    t.length ≤ 127 ∧ 0#8 ∉ s ∧ linkTurn v d t s = .error .overrun ∨
    t.length ≤ 127 ∧ 0#8 ∈ s ∧ ¬t.length + (cstr s).length + 1 ≤ newPathSize ∧
      linkTurn v d t s = .error .overflow ∨
    t.length ≤ 127 ∧ 0#8 ∈ s ∧ t.length + (cstr s).length + 1 ≤ newPathSize ∧
      linkTurn v d t s = .ok (.expand (t ++ cstr s ++
        List.replicate (newPathSize - t.length - (cstr s).length) 0#8) d) := by
  unfold linkTurn
  by_cases hlong : 127 < t.length
  · exact .inl ⟨hlong, if_pos hlong⟩
  rw [if_neg hlong]
  have hshort := Nat.le_of_not_lt hlong
  by_cases h0 : 0#8 ∈ s
  case neg => exact .inr (.inl ⟨hshort, h0, by rw [newPath_of_not_mem h0, error_bind]⟩)
  by_cases hfits : t.length + (cstr s).length + 1 ≤ newPathSize
  · exact .inr (.inr (.inr ⟨hshort, h0, hfits, by rw [newPath_of_fits h0 hfits, ok_bind]; rfl⟩))
  · exact .inr (.inr (.inl ⟨hshort, h0, hfits, by rw [newPath_of_not_fits h0 hfits, error_bind]⟩))

/-- Where it met no link, a call has not used `new_path`. -/
theorem Plain.inBuffer {a : Call} (h : Plain (pathTurn v follow a.1 a.2))
    (hno : ∀ d t s, ¬MeetsLink v follow a d t s) : InBuffer v follow a where
  inside := fun hover => by
    rw [hover] at h
    exact h rfl
  terminated := fun path d hexpand => by
    rw [hexpand] at h
    exact absurd rfl (h path d)
  refused := fun d t s hmet => absurd hmet (hno d t s)

/-- A link that makes a call stop, or gets a path of its own, has its text bounded. -/
theorem inBuffer_of_met {a : Call} {d : EntryId} {t s : List CChar}
    (hmet : MeetsLink v follow a d t s) (hfits : ExpansionFits v follow a) :
    InBuffer v follow a := by
  have hturn := pathTurn_link hmet
  have hlong : ∀ d t s, MeetsLink v follow a d t s → 0#8 ∈ s →
      newPathSize < t.length + (cstr s).length + 1 → 127 < t.length := by
    intro d t s hmet h0 hnot
    by_contra hshort
    exact Nat.not_le.mpr hnot (hfits d t s hmet h0 (Nat.le_of_not_lt hshort))
  constructor
  · intro hover
    rw [hturn] at hover
    rcases linkTurn_cases v d t s with ⟨-, h⟩ | ⟨-, -, h⟩ | ⟨hshort, h0, hnot, -⟩ | ⟨-, -, -, h⟩
    · simp [h] at hover
    · simp [h] at hover
    · exact hnot (hfits d t s hmet h0 hshort)
    · simp [h] at hover
  · intro path d' hexpand
    rw [hturn] at hexpand
    rcases linkTurn_cases v d t s with ⟨-, h⟩ | ⟨-, -, h⟩ | ⟨-, -, -, h⟩ | ⟨-, -, hle, h⟩
    · simp [h] at hexpand
    · simp [h] at hexpand
    · simp [h] at hexpand
    · rw [h, Except.ok.injEq, Turn.expand.injEq] at hexpand
      rw [← hexpand.1]
      constructor
      · simp only [List.length_append, List.length_replicate]
        omega
      · refine List.mem_append_right _ (List.mem_replicate.mpr ⟨?_, rfl⟩)
        omega
  · intro d' t' s' hmet' h0' hnot
    rw [pathTurn_link hmet', linkTurn, if_pos (hlong d' t' s' hmet' h0' hnot)]

/-- One call keeps to `new_path` if and only if the link it meets fits. -/
theorem inBuffer_iff (a : Call) : InBuffer v follow a ↔ ExpansionFits v follow a := by
  constructor
  · intro hin d t s hmet h0 hshort
    by_contra hfits
    apply hin.inside
    rw [pathTurn_link hmet, linkTurn, if_neg (Nat.not_lt.mpr hshort), newPath_of_not_fits h0 hfits,
      error_bind]
  · intro hfits
    by_cases hmeets : ∃ d t s, MeetsLink v follow a d t s
    · obtain ⟨d, t, s, hmet⟩ := hmeets
      exact inBuffer_of_met hmet hfits
    · have hno : ∀ d t s, ¬MeetsLink v follow a d t s := fun d t s h => hmeets ⟨d, t, s, h⟩
      exact (pathTurn_noLink hno).inBuffer hno

/-! ## The calls of a lookup -/

/-- Where the link fits, the next call is the one with its text in front of the rest. -/
theorem leads_iff {a b : Call} (hfits : ExpansionFits v follow a) :
    Leads (expansion v follow) a b ↔ Expanded v follow a b := by
  constructor
  · intro hleads
    obtain ⟨path, d, hturn, rfl⟩ := expansion_eq_some.mp hleads
    by_cases hmeets : ∃ d t s, MeetsLink v follow a d t s
    · obtain ⟨d', t, s, hmet⟩ := hmeets
      rw [pathTurn_link hmet] at hturn
      rcases linkTurn_cases v d' t s with ⟨-, h⟩ | ⟨-, -, h⟩ | ⟨-, -, -, h⟩ | ⟨hshort, h0, hle, h⟩
      · simp [h] at hturn
      · simp [h] at hturn
      · simp [h] at hturn
      · rw [h, Except.ok.injEq, Turn.expand.injEq] at hturn
        obtain ⟨rfl, rfl⟩ := hturn
        exact ⟨d', t, s, hmet, h0, hshort, rfl⟩
    · have hplain := pathTurn_noLink fun d t s h => hmeets ⟨d, t, s, h⟩
      rw [hturn] at hplain
      exact absurd rfl (hplain path d)
  · rintro ⟨d, t, s, hmet, h0, hshort, rfl⟩
    refine expansion_eq_some.mpr ⟨_, d, ?_, rfl⟩
    rw [pathTurn_link hmet, linkTurn, if_neg (Nat.not_lt.mpr hshort),
      newPath_of_fits h0 (hfits d t s hmet h0 hshort), ok_bind]
    rfl

/-- **Main theorem.** The expansions of a lookup stay inside `new_path`, terminated, or are
    refused, if and only if on the way that the texts of the links lead every link that is followed
    fits with the rest of the path and the NUL into 256 bytes, or has more than 127. -/
theorem expansions_inside_iff (v : Vfs) (follow : Bool) (path : List CChar)
    (start : Option EntryId) :
    (∀ a, Relation.ReflTransGen (Leads (expansion v follow)) (path, start) a →
        InBuffer v follow a) ↔
      ∀ a, Relation.ReflTransGen (Expanded v follow) (path, start) a → ExpansionFits v follow a :=
  forall_reachable_congr inBuffer_iff (fun _ _ => leads_iff)

/-! ## A link of 127 bytes -/

/-- The tree after `symlink` of `l` in the root to a name of 127 bytes. -/
def longLink : Vfs :=
  match symlinkatImpl booted 1 (List.replicate 127 0x61#8 ++ [0#8]) (cliteral "l") (some 0) with
  | .ok (_, v) => v
  | .error _ => booted

/-- `l/` and 128 bytes: with the link in front the path has 256 bytes and the NUL. -/
def longPath : List CChar := chars "l/" ++ List.replicate 128 0x62#8 ++ [0#8]

/-- The NUL of the new path is written behind the buffer. -/
theorem longPath_overflows :
    ¬∀ a, Relation.ReflTransGen (Leads (expansion longLink true)) (longPath, some 0) a →
      InBuffer longLink true a := by
  intro h
  apply (h (longPath, some 0) .refl).inside
  decide +kernel

end Fishix.Fs
