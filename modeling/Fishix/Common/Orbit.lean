import Mathlib

/-!
# Runs of a partial step function

A partial function `f : σ → Option σ` is run until it gives nothing more.

* `stepN`: the state after `n` steps.
* `exists_stepN_eq_none_iff`: when all states but the first are taken from a finite set, the run
  ends if and only if no state on it leads back to itself.
* `exists_stepN_eq_none_of_rank_or_no_cycle`: a run ends whose steps lower a rank or are not taken
  twice.
* `forall_reachable_congr`: two step relations that agree where a property holds.
-/

namespace Fishix

variable {σ : Type} {f : σ → Option σ} {s t u : σ} {m n : ℕ}

/-- The state after `n` steps, if there are so many. -/
def stepN (f : σ → Option σ) : ℕ → σ → Option σ
  | 0, s => some s
  | n + 1, s => (f s).bind (stepN f n)

theorem stepN_zero (s : σ) : stepN f 0 s = some s := rfl

theorem stepN_succ (n : ℕ) (s : σ) : stepN f (n + 1) s = (f s).bind (stepN f n) := rfl

/-- One step. -/
def Leads (f : σ → Option σ) (s t : σ) : Prop := f s = some t

theorem stepN_add (m n : ℕ) (s : σ) : stepN f (m + n) s = (stepN f m s).bind (stepN f n) := by
  induction m generalizing s with
  | zero => simp [stepN_zero]
  | succ m ih =>
    rw [show m + 1 + n = (m + n) + 1 by omega]
    simp only [stepN_succ]
    cases f s with
    | none => rfl
    | some t => simp [ih]

theorem stepN_eq_none_of_le (h : stepN f m s = none) (hmn : m ≤ n) : stepN f n s = none := by
  obtain ⟨k, rfl⟩ := Nat.exists_eq_add_of_le hmn
  rw [stepN_add, h]
  rfl

theorem reflTransGen_of_stepN (h : stepN f n s = some t) : Relation.ReflTransGen (Leads f) s t := by
  induction n generalizing s with
  | zero =>
    obtain rfl := Option.some.inj h
    exact .refl
  | succ n ih =>
    obtain ⟨u, hu, ht⟩ := Option.bind_eq_some_iff.mp h
    exact .head hu (ih ht)

theorem exists_stepN_of_reflTransGen (h : Relation.ReflTransGen (Leads f) s t) :
    ∃ n, stepN f n s = some t := by
  induction h using Relation.ReflTransGen.head_induction_on with
  | refl => exact ⟨0, rfl⟩
  | head hstep _ ih =>
    obtain ⟨n, hn⟩ := ih
    refine ⟨n + 1, ?_⟩
    simp only [stepN_succ]
    rw [show f _ = some _ from hstep]
    exact hn

theorem exists_stepN_of_transGen (h : Relation.TransGen (Leads f) s t) :
    ∃ n, stepN f (n + 1) s = some t := by
  obtain ⟨u, hu, ht⟩ := Relation.TransGen.head'_iff.mp h
  obtain ⟨n, hn⟩ := exists_stepN_of_reflTransGen ht
  refine ⟨n, ?_⟩
  simp only [stepN_succ]
  rw [show f s = some u from hu]
  exact hn

theorem transGen_of_stepN (h : stepN f (n + 1) s = some t) : Relation.TransGen (Leads f) s t := by
  obtain ⟨u, hu, ht⟩ := Option.bind_eq_some_iff.mp h
  exact .head' hu (reflTransGen_of_stepN ht)

/-- A state that leads back to itself is left again and again. -/
theorem stepN_ne_none_of_cycle (h : stepN f (m + 1) s = some s) (n : ℕ) : stepN f n s ≠ none := by
  have hrounds : ∀ k, stepN f (k * (m + 1)) s = some s := by
    intro k
    induction k with
    | zero => rw [Nat.zero_mul, stepN_zero]
    | succ k ih => rw [Nat.succ_mul, stepN_add, ih, Option.bind_some, h]
  intro hn
  have hle : n ≤ n * (m + 1) := Nat.le_mul_of_pos_right n (by omega)
  have := stepN_eq_none_of_le hn hle
  rw [hrounds n] at this
  simp at this

/-- A run through finitely many states ends if and only if no state on it comes back to
    itself. -/
theorem exists_stepN_eq_none_iff {S : Set σ} (hS : S.Finite) (hf : ∀ a b, f a = some b → b ∈ S) :
    (∃ n, stepN f n s = none) ↔
      ¬∃ x, Relation.ReflTransGen (Leads f) s x ∧ Relation.TransGen (Leads f) x x := by
  constructor
  · rintro ⟨n, hn⟩ ⟨x, hx, hcycle⟩
    obtain ⟨j, hj⟩ := exists_stepN_of_reflTransGen hx
    obtain ⟨m, hm⟩ := exists_stepN_of_transGen hcycle
    have hnone : stepN f (j + n) s = none := stepN_eq_none_of_le hn (by omega)
    rw [stepN_add, hj] at hnone
    exact stepN_ne_none_of_cycle hm n hnone
  · intro hno
    by_contra hall
    have hsome : ∀ n, ∃ t, stepN f n s = some t := by
      intro n
      exact Option.ne_none_iff_exists'.mp fun h => hall ⟨n, h⟩
    choose g hg using hsome
    have hstep : ∀ i k, stepN f k (g i) = some (g (i + k)) := by
      intro i k
      have := hg (i + k)
      rwa [stepN_add, hg i] at this
    have hmem : ∀ n, g (n + 1) ∈ S := by
      intro n
      have := hstep n 1
      simp only [stepN_succ] at this
      obtain ⟨b, hb, he⟩ := Option.bind_eq_some_iff.mp this
      obtain rfl := Option.some.inj he
      exact hf _ _ hb
    -- two of the infinitely many states are the same
    obtain ⟨i, j, hij, heq⟩ := hS.exists_lt_map_eq_of_forall_mem hmem
    obtain ⟨k, rfl⟩ := Nat.exists_eq_add_of_lt hij
    refine hno ⟨g (i + 1), reflTransGen_of_stepN (hg _), ?_⟩
    have := hstep (i + 1) (k + 1)
    rw [show i + 1 + (k + 1) = i + k + 1 + 1 by omega, ← heq] at this
    exact transGen_of_stepN this

/-- A cycle that a run comes to goes through every state behind it. -/
theorem transGen_of_cycle (hs : Relation.TransGen (Leads f) s s)
    (ht : Relation.ReflTransGen (Leads f) s t) : Relation.TransGen (Leads f) t t := by
  induction ht with
  | refl => exact hs
  | tail _ hstep ih =>
    obtain ⟨u, hu, hback⟩ := Relation.TransGen.head'_iff.mp ih
    obtain rfl : u = _ := Option.some.inj (hu.symm.trans hstep)
    exact .tail' hback hstep

/-- A run through finitely many states ends if every step that it takes lowers a rank or leaves a
    state that does not come back to itself. -/
theorem exists_stepN_eq_none_of_rank_or_no_cycle [Finite σ] (rank : σ → ℕ)
    (h : ∀ t u, Relation.ReflTransGen (Leads f) s t → f t = some u →
      rank u < rank t ∨ ¬Relation.TransGen (Leads f) t t) :
    ∃ n, stepN f n s = none := by
  refine (exists_stepN_eq_none_iff Set.finite_univ fun _ _ _ => Set.mem_univ _).mpr ?_
  rintro ⟨x, hx, hcycle⟩
  -- on the cycle every step lowers the rank
  have hlower : ∀ y, Relation.TransGen (Leads f) x y → rank y < rank x := by
    intro y hy
    induction hy with
    | single hstep => exact (h _ _ hx hstep).resolve_right (not_not_intro hcycle)
    | tail hxy hstep ih =>
      have hturn := transGen_of_cycle hcycle hxy.to_reflTransGen
      have hless := (h _ _ (hx.trans hxy.to_reflTransGen) hstep).resolve_right
        (not_not_intro hturn)
      exact hless.trans ih
  exact absurd (hlower x hcycle) (lt_irrefl _)

/-- A property that holds in all states one relation reaches holds, under its other name, in all
    states another reaches, if the two relations agree wherever it holds. -/
theorem forall_reachable_congr {r r' : σ → σ → Prop} {p q : σ → Prop} (hpq : ∀ a, p a ↔ q a)
    (hrr : ∀ a b, q a → (r a b ↔ r' a b)) :
    (∀ a, Relation.ReflTransGen r s a → p a) ↔ ∀ a, Relation.ReflTransGen r' s a → q a := by
  constructor
  · intro h a ha
    suffices hr : Relation.ReflTransGen r s a from (hpq a).mp (h a hr)
    induction ha with
    | refl => exact .refl
    | tail _ hstep ih => exact ih.tail ((hrr _ _ ((hpq _).mp (h _ ih))).mpr hstep)
  · intro h a ha
    suffices hr : Relation.ReflTransGen r' s a from (hpq a).mpr (h a hr)
    induction ha with
    | refl => exact .refl
    | tail _ hstep ih => exact ih.tail ((hrr _ _ (h _ ih)).mp hstep)

end Fishix
