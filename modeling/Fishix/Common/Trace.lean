import Mathlib.Data.List.Induction
import Mathlib.Order.Nat

/-!
# Runs that do not fail

A machine takes one step after another, through a list of them or for ever. What every step keeps
holds throughout, and what gets nearer with every step of some kind, and no step takes away, is
reached if there is always one more of these steps.

* `along_iff`: what holds behind a list of steps exactly if each of them meets a condition.
* `forall_prefix_iff_along`: what holds behind every step of the list.
* `trace_invariant`: an invariant of the steps that are taken.
* `eventually_of_rank`: a rank that such steps lower comes to its end.
-/

namespace Fishix

variable {σ ω : Type}

/-! ## A list of steps -/

/-- Every step of the list meets `P` in the state before it. -/
def Along (step : σ → ω → σ) (P : σ → ω → Prop) (s : σ) (ops : List ω) : Prop :=
  ∀ before o behind, ops = before ++ o :: behind → P (before.foldl step s) o

section Along

variable {step : σ → ω → σ} {P : σ → ω → Prop} {s : σ} {ops : List ω} {o : ω}

theorem along_nil : Along step P s [] := by
  intro before o behind h
  exact absurd h.symm (List.append_ne_nil_of_right_ne_nil _ (List.cons_ne_nil _ _))

theorem along_concat_iff :
    Along step P s (ops ++ [o]) ↔ Along step P s ops ∧ P (ops.foldl step s) o := by
  constructor
  · intro h
    refine ⟨fun before o' behind hops => ?_, h ops o [] rfl⟩
    refine h before o' (behind ++ [o]) ?_
    rw [hops, List.append_assoc, List.cons_append]
  · rintro ⟨hall, hlast⟩ before o' behind hops
    rcases List.eq_nil_or_concat behind with rfl | ⟨behind, last, rfl⟩
    · obtain ⟨rfl, hsame⟩ := List.append_inj' hops rfl
      obtain rfl := List.head_eq_of_cons_eq hsame
      exact hlast
    · rw [List.concat_eq_append, ← List.cons_append, ← List.append_assoc] at hops
      exact hall before o' behind (List.append_inj' hops rfl).1

/-- What a step keeps exactly if it meets `P` holds behind the list exactly if all steps do. -/
theorem along_iff {Good : σ → Prop} (hs : Good s)
    (hstep : ∀ s o, Good (step s o) ↔ Good s ∧ P s o) :
    Good (ops.foldl step s) ↔ Along step P s ops := by
  induction ops using List.reverseRecOn with
  | nil => exact ⟨fun _ => along_nil, fun _ => hs⟩
  | append_singleton ops o ih =>
    rw [List.foldl_append, along_concat_iff, ← ih]
    exact hstep _ o

/-- What such steps keep. -/
theorem Along.invariant {Inv : σ → Prop} (h : Along step P s ops) (hs : Inv s)
    (hstep : ∀ s o, Inv s → P s o → Inv (step s o)) : Inv (ops.foldl step s) := by
  induction ops using List.reverseRecOn with
  | nil => exact hs
  | append_singleton ops o ih =>
    obtain ⟨hbefore, hlast⟩ := along_concat_iff.mp h
    rw [List.foldl_append]
    exact hstep _ o (ih hbefore) hlast

/-- An invariant is kept by the steps that meet `P`, and no other step leaves a good state: every
    state of the run is good exactly if all steps meet `P`. -/
theorem forall_prefix_iff_along {Good Inv : σ → Prop} (hs : Inv s) (hgood : ∀ s, Inv s → Good s)
    (hstep : ∀ s o, Inv s → P s o → Inv (step s o))
    (hback : ∀ s o, Inv s → Good (step s o) → P s o) :
    (∀ before, before <+: ops → Good (before.foldl step s)) ↔ Along step P s ops := by
  constructor
  · intro h
    induction ops using List.reverseRecOn with
    | nil => exact along_nil
    | append_singleton ops o ih =>
      have hbefore := ih fun before hle => h before (hle.trans (List.prefix_append ops [o]))
      have hlast := h _ List.prefix_rfl
      rw [List.foldl_append] at hlast
      exact along_concat_iff.mpr ⟨hbefore, hback _ o (hbefore.invariant hs hstep) hlast⟩
  · rintro h before ⟨behind, rfl⟩
    refine hgood _ (Along.invariant (fun earlier o later hops => ?_) hs hstep)
    refine h earlier o (later ++ behind) ?_
    rw [hops, List.append_assoc, List.cons_append]

end Along

/-! ## For ever -/

/-- The states of a run from `s`. -/
def trace (step : σ → ω → σ) (s : σ) (ops : ℕ → ω) : ℕ → σ
  | 0 => s
  | n + 1 => step (trace step s ops n) (ops n)

/-- There is always one more step of this kind. -/
def InfinitelyOften (ops : ℕ → ω) (Kind : ω → Prop) : Prop := ∀ n, ∃ m, n ≤ m ∧ Kind (ops m)

variable {step : σ → ω → σ} {s : σ} {ops : ℕ → ω}

theorem trace_invariant {P : σ → Prop} {Ok : σ → ω → Prop} (hs : P s)
    (hstep : ∀ s o, P s → Ok s o → P (step s o)) :
    ∀ n, (∀ m < n, Ok (trace step s ops m) (ops m)) → P (trace step s ops n) := by
  intro n
  induction n with
  | zero => exact fun _ => hs
  | succ n ih =>
    exact fun hok => hstep _ _ (ih fun m hm => hok m (Nat.lt_succ_of_lt hm)) (hok n n.lt_succ_self)

theorem eventually_of_rank {Kind : ω → Prop} (Goal : σ → Prop) (rank : σ → ℕ)
    (hkind : InfinitelyOften ops Kind) (n : ℕ)
    (hle : ∀ m, n ≤ m → ¬Goal (trace step s ops m) →
      rank (trace step s ops (m + 1)) ≤ rank (trace step s ops m))
    (hlt : ∀ m, n ≤ m → ¬Goal (trace step s ops m) → Kind (ops m) →
      rank (trace step s ops (m + 1)) < rank (trace step s ops m)) :
    ∃ m, n ≤ m ∧ Goal (trace step s ops m) := by
  induction hr : rank (trace step s ops n) using Nat.strong_induction_on generalizing n with
  | _ r ih =>
    by_contra hnever
    have hgoal : ∀ m, n ≤ m → ¬Goal (trace step s ops m) := fun m hm hg => hnever ⟨m, hm, hg⟩
    obtain ⟨m, hm, hmk⟩ := hkind n
    -- up to the next such step the rank does not rise
    have hsame : ∀ d, rank (trace step s ops (n + d)) ≤ r := by
      intro d
      induction d with
      | zero => exact hr.le
      | succ d ihd =>
        have hd := Nat.le_add_right n d
        exact (hle (n + d) hd (hgoal _ hd)).trans ihd
    have hlow := hlt m hm (hgoal m hm) hmk
    have hm' := hsame (m - n)
    rw [Nat.add_sub_cancel' hm] at hm'
    have hnext : n ≤ m + 1 := hm.trans m.le_succ
    obtain ⟨k, hk, hg⟩ := ih _ (Nat.lt_of_lt_of_le hlow hm') (m + 1)
      (fun k hk => hle k (hnext.trans hk)) (fun k hk => hlt k (hnext.trans hk)) rfl
    exact hgoal k (hnext.trans hk) hg

end Fishix
