import Fishix.Common.Orbit
import Fishix.Fs.Vfs

/-!
# How far symlinks are followed

`path_to_entry` calls itself once for every symlink it follows and counts nothing. Each call
after the first gets the 256 bytes of a `new_path` and a directory of the tree, so there are
finitely many different calls: a resolution goes on for ever exactly when one of its calls
comes back. The kernel stack, of 256 KiB, is not part of the model: every call takes a frame of it.

* `walk_expand`: what a call hands to the next.
* `pathToEntry_ok_iff`: a lookup returns when its expansions end and none of them faults.
* `pathToEntry_returns_iff`: when a path lookup returns.
-/

namespace Fishix.Fs

/-- The arguments `path` and `starting_point` of a call. -/
abbrev Call := List CChar × Option EntryId

/-- The call that a call of `path_to_entry` makes in turn. -/
def expansion (v : Vfs) (follow : Bool) (a : Call) : Option Call :=
  match pathTurn v follow a.1 a.2 with
  | .ok (.expand path d) => some (path, some d)
  | _ => none

/-- The call runs past the memory of a string, or follows a null pointer. -/
def Faults (v : Vfs) (follow : Bool) (a : Call) : Prop :=
  ∃ fault, pathTurn v follow a.1 a.2 = .error fault

/-- A call that the resolution of `a` makes leads to the same call again. -/
def Cyclic (v : Vfs) (follow : Bool) (a : Call) : Prop :=
  ∃ x, Relation.ReflTransGen (Leads (expansion v follow)) a x ∧
    Relation.TransGen (Leads (expansion v follow)) x x

/-! ## One call -/

/-- The calls a resolution makes: `new_path` and a directory. -/
def IsExpansion (v : Vfs) (path : List CChar) (d : EntryId) : Prop :=
  path.length = newPathSize ∧ d < v.entries.length

theorem length_newPath {t s path : List CChar} (h : newPath t s = .ok path) :
    path.length = newPathSize := by
  unfold newPath at h
  cases hs : strlen s with
  | none => simp [hs, orFault] at h
  | some len =>
    obtain ⟨p, q, rfl, hp, rfl⟩ := strlen_eq_some hs
    simp only [hs, orFault, ok_bind, cstr_append hp] at h
    split_ifs at h with hle
    obtain rfl := Except.ok.inj h
    simp only [List.length_append, List.length_replicate]
    omega

theorem lt_length_of_node {v : Vfs} {d : EntryId} {n : VNode} (h : v.node d = some n) :
    d < v.entries.length := by
  by_contra hd
  have : v.entries[d]? = none := List.getElem?_eq_none (Nat.le_of_not_lt hd)
  simp [Vfs.node, Vfs.entry, this, Entry.construct] at h

theorem component_expand {v : Vfs} {follow last : Bool} {d d' : EntryId} {c : Name}
    {s path : List CChar} (h : component v follow d c last s = .ok (.inl (.expand path d'))) :
    path.length = newPathSize ∧ d' = d := by
  unfold component at h
  simp only at h
  split at h
  · simp [pure, Except.pure] at h
  · split_ifs at h with hf hl
    · split at h
      · simp [pure, Except.pure] at h
      · split_ifs at h with hlen
        · simp [pure, Except.pure] at h
        · obtain ⟨p, hp, h⟩ := bind_ok h
          simp only [pure, Except.pure, Except.ok.injEq, Sum.inl.injEq, Turn.expand.injEq] at h
          obtain ⟨rfl, rfl⟩ := h
          exact ⟨length_newPath hp, rfl⟩
    · simp [pure, Except.pure] at h
    · simp [pure, Except.pure] at h

/-- What the loop hands to the next call. -/
theorem walk_expand {v : Vfs} {follow : Bool} :
    ∀ {turns : ℕ} {d d' : EntryId} {m path : List CChar} {len : ℕ},
      walk v follow turns d m len = .ok (.expand path d') → IsExpansion v path d'
  | 0, _, _, _, _, _, h => by simp [walk] at h
  | turns + 1, d, d', m, path, len, h => by
    unfold walk at h
    obtain ⟨n, hn, h⟩ := bind_ok h
    have hd : v.node d = some n := by
      cases hv : v.node d with
      | none => simp [hv, orFault] at hn
      | some n' =>
        simp only [hv, orFault, Except.ok.injEq] at hn
        rw [hn]
    split_ifs at h with hdir
    · simp [pure, Except.pure] at h
    simp only at h
    split_ifs at h with hslash
    · exact walk_expand h
    · obtain ⟨name, -, h⟩ := bind_ok h
      obtain ⟨w, hw, h⟩ := bind_ok h
      cases w with
      | inl turn =>
        simp only [pure, Except.pure, Except.ok.injEq] at h
        subst h
        obtain ⟨hlen, rfl⟩ := component_expand hw
        exact ⟨hlen, lt_length_of_node hd⟩
      | inr e => exact walk_expand h

theorem expansion_finite (v : Vfs) :
    {a : Call | a.1.length = newPathSize ∧ ∃ d < v.entries.length, a.2 = some d}.Finite := by
  have hpaths : {p : List CChar | p.length = newPathSize}.Finite := List.finite_length_eq _ _
  have hdirs : (some '' Set.Iio v.entries.length : Set (Option EntryId)).Finite :=
    (Set.finite_Iio _).image some
  apply (hpaths.prod hdirs).subset
  rintro ⟨p, d⟩ ⟨hp, e, he, hd⟩
  exact ⟨hp, e, he, hd.symm⟩

theorem expansion_eq_some {v : Vfs} {follow : Bool} {a b : Call} :
    expansion v follow a = some b ↔
      ∃ path d, pathTurn v follow a.1 a.2 = .ok (.expand path d) ∧ b = (path, some d) := by
  unfold expansion
  split
  · next path d h =>
    simp only [h, Option.some.injEq, Except.ok.injEq, Turn.expand.injEq]
    constructor
    · rintro rfl
      exact ⟨path, d, ⟨rfl, rfl⟩, rfl⟩
    · rintro ⟨_, _, ⟨rfl, rfl⟩, rfl⟩
      rfl
  · next h =>
    constructor
    · intro h'
      simp at h'
    · rintro ⟨path, d, hp, -⟩
      exact absurd hp (h path d)

theorem expansion_mem {v : Vfs} {follow : Bool} {a b : Call} (h : expansion v follow a = some b) :
    b.1.length = newPathSize ∧ ∃ d < v.entries.length, b.2 = some d := by
  obtain ⟨path, d, hturn, rfl⟩ := expansion_eq_some.mp h
  suffices h : IsExpansion v path d from ⟨h.1, d, h.2, rfl⟩
  unfold pathTurn at hturn
  obtain ⟨len, -, hturn⟩ := bind_ok hturn
  split_ifs at hturn with h0 habs h1
  · simp [pure, Except.pure] at hturn
  · simp [pure, Except.pure] at hturn
  · exact walk_expand hturn
  · split at hturn
    · simp [pure, Except.pure] at hturn
    · exact walk_expand hturn

/-! ## The run -/

theorem reached_cons {v : Vfs} {follow : Bool} {a b x : Call} (hb : expansion v follow a = some b)
    (hx : Relation.ReflTransGen (Leads (expansion v follow)) a x) :
    x = a ∨ Relation.ReflTransGen (Leads (expansion v follow)) b x := by
  rcases Relation.ReflTransGen.cases_head hx with rfl | ⟨c, hc, hx⟩
  · exact .inl rfl
  · obtain rfl : c = b := Option.some.inj (Eq.trans (Eq.symm hc) hb)
    exact .inr hx

/-- With `calls` calls allowed a lookup returns when fewer expansions follow and none of the
    calls faults. -/
theorem pathToEntry_ok_iff {v : Vfs} {follow : Bool} (calls : ℕ) (a : Call) :
    (∃ r, pathToEntry v follow calls a.1 a.2 = .ok r) ↔
      stepN (expansion v follow) calls a = none ∧
        ∀ x, Relation.ReflTransGen (Leads (expansion v follow)) a x → ¬Faults v follow x := by
  induction calls generalizing a with
  | zero => simp [pathToEntry, stepN]
  | succ calls ih =>
    simp only [pathToEntry, stepN]
    cases hturn : pathTurn v follow a.1 a.2 with
    | error fault =>
      simp only [error_bind, reduceCtorEq, exists_false, false_iff, not_and]
      intro _ hno
      exact hno a .refl ⟨fault, hturn⟩
    | ok turn =>
      cases turn with
      | done e v' =>
        have hnone : expansion v follow a = none := by
          unfold expansion
          rw [hturn]
        simp only [ok_bind, pure, Except.pure, Except.ok.injEq, exists_eq', hnone, Option.bind_none,
          true_and, true_iff]
        intro x hx
        rcases Relation.ReflTransGen.cases_head hx with rfl | ⟨c, hc, -⟩
        · rintro ⟨fault, hfault⟩
          simp [hturn] at hfault
        · rw [show expansion v follow a = some c from hc] at hnone
          simp at hnone
      | expand path d =>
        have hsome : expansion v follow a = some (path, some d) :=
          expansion_eq_some.mpr ⟨path, d, hturn, rfl⟩
        rw [hsome, Option.bind_some]
        refine (ih (path, some d)).trans (and_congr_right fun _ => ?_)
        constructor
        · intro hno x hx
          rcases reached_cons hsome hx with rfl | hx
          · rintro ⟨fault, hfault⟩
            simp [hturn] at hfault
          · exact hno x hx
        · intro hno x hx
          exact hno x (.head hsome hx)

/-- A lookup that returns comes to the same with more calls allowed. -/
theorem pathToEntry_mono {v : Vfs} {follow : Bool} {calls n : ℕ} {path : List CChar}
    {start : Option EntryId} {r : EntryId × Vfs} (hle : calls ≤ n)
    (h : pathToEntry v follow calls path start = .ok r) :
    pathToEntry v follow n path start = .ok r := by
  induction calls generalizing n path start with
  | zero => cases h
  | succ calls ih =>
    obtain ⟨n, rfl⟩ : ∃ k, n = k + 1 := ⟨n - 1, by omega⟩
    unfold pathToEntry at h ⊢
    obtain ⟨turn, hturn, h⟩ := bind_ok h
    rw [hturn]
    cases turn with
    | done e v' => exact h
    | expand path start => exact ih (Nat.le_of_succ_le_succ hle) h

/-- **Main theorem.** A path lookup returns if and only if no call it makes leads to the same
    call again, and none of them runs out of its memory. -/
theorem pathToEntry_returns_iff (v : Vfs) (follow : Bool) (path : List CChar)
    (start : Option EntryId) :
    (∃ calls r, pathToEntry v follow calls path start = .ok r) ↔
      ¬Cyclic v follow (path, start) ∧
        ∀ x, Relation.ReflTransGen (Leads (expansion v follow)) (path, start) x →
          ¬Faults v follow x := by
  have hends := exists_stepN_eq_none_iff (s := (path, start)) (expansion_finite v)
    (fun a b (h : expansion v follow a = some b) => expansion_mem h)
  unfold Cyclic
  rw [← hends]
  constructor
  · rintro ⟨calls, h⟩
    have := (pathToEntry_ok_iff calls (path, start)).mp h
    exact ⟨⟨calls, this.1⟩, this.2⟩
  · rintro ⟨⟨calls, hnone⟩, hno⟩
    exact ⟨calls, (pathToEntry_ok_iff calls (path, start)).mpr ⟨hnone, hno⟩⟩

/-! ## A link to itself -/

/-- The tree after `symlink("l", "l")` in the root. -/
def selfLink : Vfs :=
  match symlinkatImpl Vfs.booted 1 (cliteral "l") (cliteral "l") (some 0) with
  | .ok (_, v) => v
  | .error _ => Vfs.booted

/-- `new_path` when the link to itself was followed. -/
def selfPath : List CChar := chars "l" ++ List.replicate 255 0#8

theorem outOfCalls_selfLink (calls : ℕ) :
    pathToEntry selfLink true calls (cliteral "l") (some 0) = .error .outOfCalls := by
  have hfirst : pathTurn selfLink true (cliteral "l") (some 0) = .ok (.expand selfPath 0) := by
    decide +kernel
  have hagain : pathTurn selfLink true selfPath (some 0) = .ok (.expand selfPath 0) := by
    decide +kernel
  have hloop : ∀ calls, pathToEntry selfLink true calls selfPath (some 0) = .error .outOfCalls := by
    intro calls
    induction calls with
    | zero => rfl
    | succ calls ih =>
      unfold pathToEntry
      rw [hagain]
      exact ih
  cases calls with
  | zero => rfl
  | succ calls =>
    unfold pathToEntry
    rw [hfirst]
    exact hloop calls

/-- The link to itself is followed without end. -/
theorem selfLink_never_returns :
    ¬∃ calls r, pathToEntry selfLink true calls (cliteral "l") (some 0) = .ok r := by
  rintro ⟨calls, r, h⟩
  rw [outOfCalls_selfLink] at h
  exact absurd h (by simp)

end Fishix.Fs
