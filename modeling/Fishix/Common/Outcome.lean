import Mathlib

/-!
# Computations that may stop

`Except ε` computations with explicit state: how a completed `do` block is taken
apart, and the invariant rules for a loop (`List.foldlM`) over such computations.

* `bind_ok_iff`: a completed sequence is two completed parts.
* `foldlM_ok_induction`: a property of (elements done, state) carried by every
  completed iteration holds at the end of a completed loop.
* `foldlM_ok_invariant`: the same for a property of the state alone.
* `foldlM_completes`: a loop whose iterations complete completes.
* `foldlM_ok_map`: a value read off the state after a completed loop.
* `foldlM_range_ok`, `foldlM_range_completes`: the same rules for a loop that counts.
* `Avoids`: the computation does not stop with a given error.
* `Yields`: what holds after a completed run and what holds of the error otherwise, with
  the rules for sequences and loops.
* `Run`: the states a sequence of steps leads to; `Run.invariant`: what every step keeps
  holds in all of them; `Run.of_guarded`: a list of steps that may be taken.
-/

namespace Fishix

variable {ε α β γ σ : Type}

/-- A completed sequence is two completed parts. -/
theorem bind_ok_iff {x : Except ε α} {f : α → Except ε β} {b : β} :
    (x >>= f) = .ok b ↔ ∃ a, x = .ok a ∧ f a = .ok b := by
  cases x with
  | error e => simp [bind, Except.bind]
  | ok a => simp [bind, Except.bind]

theorem bind_ok {x : Except ε α} {f : α → Except ε β} {b : β} (h : (x >>= f) = .ok b) :
    ∃ a, x = .ok a ∧ f a = .ok b := bind_ok_iff.mp h

/-- A completed sequence that ends with a value. -/
theorem bind_pure_ok {x : Except ε α} {f : α → β} {b : β} (h : (x >>= fun a => pure (f a)) = .ok b) :
    ∃ a, x = .ok a ∧ f a = b := by
  obtain ⟨a, ha, hb⟩ := bind_ok_iff.mp h
  exact ⟨a, ha, Except.ok.inj hb⟩

theorem bind_error_iff {x : Except ε α} {f : α → Except ε β} {e : ε} :
    (x >>= f) = .error e ↔ x = .error e ∨ ∃ a, x = .ok a ∧ f a = .error e := by
  cases x with
  | error e => simp [bind, Except.bind]
  | ok a => simp [bind, Except.bind]

@[simp] theorem ok_bind (a : α) (f : α → Except ε β) : ((Except.ok a : Except ε α) >>= f) = f a :=
  rfl

@[simp] theorem error_bind (e : ε) (f : α → Except ε β) :
    ((Except.error e : Except ε α) >>= f) = .error e := rfl

/-- A value computed from the result of a completed computation. -/
theorem map_ok_eq {x : Except ε α} {a : α} {b : β} (hx : x = .ok a) (f : α → β)
    (h : x.map f = .ok b) : f a = b := by
  rw [hx] at h
  exact Except.ok.inj h

theorem pure_pair {a a' : α} {b b' : β} (h : (pure (a, b) : Except ε (α × β)) = .ok (a', b')) :
    a = a' ∧ b = b' := by
  simpa [pure, Except.pure] using h

theorem pure_triple {a a' : α} {b b' : β} {c c' : γ}
    (h : (pure (a, b, c) : Except ε (α × β × γ)) = .ok (a', b', c')) : a = a' ∧ b = b' ∧ c = c' := by
  obtain ⟨ha, hrest⟩ := pure_pair h
  exact ⟨ha, Prod.mk.inj hrest⟩

/-- A computation completes if what is read off its result can be computed. -/
theorem exists_ok_of_map {x : Except ε α} {f : α → β} {b : β} (h : x.map f = .ok b) :
    ∃ a, x = .ok a ∧ f a = b := by
  cases x with
  | error e => cases h
  | ok a => exact ⟨a, rfl, Except.ok.inj h⟩

section

variable {step : σ → α → Except ε σ}

/-- A property of the elements done so far and the state, carried through every
    completed iteration, holds at the end of a completed loop. -/
theorem foldlM_ok_induction (R : List α → σ → Prop) :
    ∀ (l pre : List α) (s s' : σ), R pre s →
      (∀ pre a s s', R pre s → a ∈ l → step s a = .ok s' → R (pre ++ [a]) s') →
      l.foldlM step s = .ok s' → R (pre ++ l) s'
  | [], pre, s, s', hR, _, h => by
    simp only [List.foldlM_nil] at h
    cases h
    simpa using hR
  | a :: l, pre, s, s', hR, hstep, h => by
    rw [List.foldlM_cons, bind_ok_iff] at h
    obtain ⟨s1, h1, h2⟩ := h
    have := foldlM_ok_induction R l (pre ++ [a]) s1 s' (hstep pre a s s1 hR (by simp) h1)
      (fun pre b t t' hRt hb => hstep pre b t t' hRt (List.mem_cons_of_mem _ hb)) h2
    simpa using this

/-- A property of the state that every completed iteration keeps holds at the end
    of a completed loop. -/
theorem foldlM_ok_invariant (P : σ → Prop) {l : List α} {s s' : σ} (hP : P s)
    (hstep : ∀ a s s', a ∈ l → P s → step s a = .ok s' → P s') (h : l.foldlM step s = .ok s') :
    P s' :=
  foldlM_ok_induction (fun _ => P) l [] s s' hP (fun _ a s s' hs ha => hstep a s s' ha hs) h

/-- A loop whose iterations complete, as long as they keep a property of the state, completes. -/
theorem foldlM_completes (P : σ → Prop) (hstep : ∀ s a, P s → ∃ s', step s a = .ok s' ∧ P s')
    (l : List α) : ∀ {s : σ}, P s → ∃ s', l.foldlM step s = .ok s' := by
  induction l with
  | nil => exact fun _ => ⟨_, rfl⟩
  | cons a l ih =>
    intro s hs
    obtain ⟨s1, h1, hs1⟩ := hstep s a hs
    obtain ⟨s', h'⟩ := ih hs1
    exact ⟨s', by rw [List.foldlM_cons, h1, ok_bind, h']⟩

/-- What every completed iteration does to a value read off the state, a completed loop does to it
    one element after the other. -/
theorem foldlM_ok_map {τ : Type} (g : σ → τ) (next : τ → α → τ)
    (hstep : ∀ a s s', step s a = .ok s' → g s' = next (g s) a) {l : List α} :
    ∀ {s s' : σ}, l.foldlM step s = .ok s' → g s' = l.foldl next (g s) := by
  induction l with
  | nil =>
    intro s s' h
    simp only [List.foldlM_nil] at h
    rw [List.foldl_nil, Except.ok.inj h]
  | cons a l ih =>
    intro s s' h
    rw [List.foldlM_cons, bind_ok_iff] at h
    obtain ⟨s1, h1, h2⟩ := h
    rw [List.foldl_cons, ← hstep a s s1 h1]
    exact ih h2

end

/-- The rule for a loop over `List.range`: `R` holds of the number of iterations and the state. -/
theorem foldlM_range_ok {step : σ → ℕ → Except ε σ} (R : ℕ → σ → Prop) {n : ℕ} {s s' : σ}
    (hR : R 0 s) (hstep : ∀ i s s', i < n → R i s → step s i = .ok s' → R (i + 1) s')
    (h : (List.range n).foldlM step s = .ok s') : R n s' := by
  induction n generalizing s' with
  | zero =>
    simp only [List.range_zero, List.foldlM_nil] at h
    cases h
    exact hR
  | succ n ih =>
    rw [List.range_succ, List.foldlM_append, bind_ok_iff] at h
    obtain ⟨s1, h1, h2⟩ := h
    rw [List.foldlM_cons, bind_ok_iff] at h2
    obtain ⟨s2, h2, h3⟩ := h2
    obtain rfl : s2 = s' := Except.ok.inj h3
    exact hstep n s1 s2 (Nat.lt_succ_self n)
      (ih (fun i s s' hi => hstep i s s' (Nat.lt_succ_of_lt hi)) h1) h2

/-- It completes if all of its iterations do. -/
theorem foldlM_range_completes {step : σ → ℕ → Except ε σ} (R : ℕ → σ → Prop) {n : ℕ} {s : σ}
    (hR : R 0 s)
    (hstep : ∀ i s, i < n → R i s → ∃ s', step s i = .ok s' ∧ R (i + 1) s') :
    ∃ s', (List.range n).foldlM step s = .ok s' := by
  suffices h : ∃ s', (List.range n).foldlM step s = .ok s' ∧ R n s' from
    h.imp fun _ => And.left
  induction n with
  | zero => exact ⟨s, rfl, hR⟩
  | succ n ih =>
    obtain ⟨s1, h1, hs1⟩ := ih fun i s hi => hstep i s (Nat.lt_succ_of_lt hi)
    obtain ⟨s', h', hs'⟩ := hstep n s1 n.lt_succ_self hs1
    refine ⟨s', ?_, hs'⟩
    rw [List.range_succ, List.foldlM_append, h1, ok_bind, List.foldlM_cons, h', ok_bind]
    rfl

/-! ## Errors that do not occur -/

/-- The computation does not stop with `e`. -/
def Avoids (e : ε) (x : Except ε α) : Prop := x ≠ .error e

theorem avoids_ok (e : ε) (a : α) : Avoids e (.ok a : Except ε α) := by
  intro h
  cases h

theorem avoids_error {e e' : ε} (h : e' ≠ e) : Avoids e (.error e' : Except ε α) := by
  intro h'
  cases h'
  exact h rfl

theorem Avoids.bind {e : ε} {x : Except ε α} {f : α → Except ε β} (hx : Avoids e x)
    (hf : ∀ a, x = .ok a → Avoids e (f a)) : Avoids e (x >>= f) := by
  intro h
  rcases bind_error_iff.mp h with h | ⟨a, ha, h⟩
  · exact hx h
  · exact hf a ha h

theorem avoids_foldlM {e : ε} {step : σ → α → Except ε σ} (h : ∀ s a, Avoids e (step s a)) :
    ∀ (l : List α) (s : σ), Avoids e (l.foldlM step s)
  | [], s => avoids_ok e s
  | a :: l, s => by
    rw [List.foldlM_cons]
    exact (h s a).bind fun s' _ => avoids_foldlM h l s'

/-! ## Both outcomes -/

/-- A completed computation satisfies `Q`, one that stops with an error satisfies `E`. -/
def Yields (Q : α → Prop) (E : ε → Prop) : Except ε α → Prop
  | .ok a => Q a
  | .error e => E e

theorem Yields.bind {x : Except ε α} {f : α → Except ε β} {P : α → Prop} {Q : β → Prop}
    {E : ε → Prop} (hx : Yields P E x) (hf : ∀ a, P a → Yields Q E (f a)) :
    Yields Q E (x >>= f) := by
  cases x with
  | error e => exact hx
  | ok a => exact hf a hx

theorem Yields.mono {x : Except ε α} {Q Q' : α → Prop} {E E' : ε → Prop} (hx : Yields Q E x)
    (hQ : ∀ a, Q a → Q' a) (hE : ∀ e, E e → E' e) : Yields Q' E' x := by
  cases x with
  | error e => exact hE e hx
  | ok a => exact hQ a hx

theorem yields_of_ok {x : Except ε α} {Q : α → Prop} (h : ∀ a, x = .ok a → Q a) :
    Yields Q (fun _ => True) x := by
  cases x with
  | error e => trivial
  | ok a => exact h a rfl

theorem Yields.ok {x : Except ε α} {Q : α → Prop} {E : ε → Prop} {a : α} (hx : Yields Q E x)
    (h : x = .ok a) : Q a := by
  rw [h] at hx
  exact hx

/-- The rule for loops: `R` holds of the elements done so far and the state. -/
theorem yields_foldlM {f : σ → α → Except ε σ} {R : List α → σ → Prop} {E : ε → Prop}
    {l : List α} (hstep : ∀ pre a post s, l = pre ++ a :: post → R pre s →
      Yields (R (pre ++ [a])) E (f s a)) {s : σ} (hR : R [] s) :
    Yields (R l) E (l.foldlM f s) := by
  suffices h : ∀ post pre s, l = pre ++ post → R pre s → Yields (R l) E (post.foldlM f s) from
    h l [] s rfl hR
  intro post
  induction post with
  | nil =>
    intro pre s hl hpre
    rw [List.append_nil] at hl
    rw [hl]
    exact hpre
  | cons a post ih =>
    intro pre s hl hpre
    rw [List.foldlM_cons]
    refine (hstep pre a post s hl hpre).bind fun s' hs' => ih (pre ++ [a]) s' ?_ hs'
    rw [hl, List.append_assoc]
    rfl

/-! ## Runs -/

/-- The states that completed steps lead to, every step `o` taken in a state `s` with `Ok s o`. -/
inductive Run {ω : Type} (step : σ → ω → Except ε σ) (Ok : σ → ω → Prop) (s : σ) : σ → Prop
  | start : Run step Ok s s
  | step {s1 s2 : σ} {o : ω} (run : Run step Ok s s1) (ok : Ok s1 o) (next : step s1 o = .ok s2) :
      Run step Ok s s2

section Run

variable {ω : Type} {step : σ → ω → Except ε σ} {Ok : σ → ω → Prop} {s s' : σ}

/-- What every step keeps holds in every state of a run. -/
theorem Run.invariant {P : σ → Prop} (h : Run step Ok s s')
    (hstep : ∀ s1 o s2, P s1 → Ok s1 o → step s1 o = .ok s2 → P s2) (hs : P s) : P s' := by
  induction h with
  | start => exact hs
  | step _ ok next ih => exact hstep _ _ _ ih ok next

theorem Run.foldlM {l : List ω} {s1 : σ} (h : Run step Ok s s1) (hok : ∀ o ∈ l, ∀ s, Ok s o)
    (hl : l.foldlM step s1 = .ok s') : Run step Ok s s' :=
  foldlM_ok_invariant (Run step Ok s) h (fun o s1 _ ho hrun hs => .step hrun (hok o ho s1) hs) hl

/-- One step, if it may be taken. -/
def guarded (step : σ → ω → Except ε σ) (Ok : σ → ω → Prop) [∀ s o, Decidable (Ok s o)] (e : ε)
    (s : σ) (o : ω) : Except ε σ :=
  if Ok s o then step s o else .error e

theorem Run.of_guarded [∀ s o, Decidable (Ok s o)] {e : ε} {l : List ω}
    (h : l.foldlM (guarded step Ok e) s = .ok s') : Run step Ok s s' := by
  refine foldlM_ok_invariant (Run step Ok s) .start ?_ h
  intro o s1 s2 _ hrun hstep
  unfold guarded at hstep
  split_ifs at hstep with hok
  exact hrun.step hok hstep

end Run

end Fishix
