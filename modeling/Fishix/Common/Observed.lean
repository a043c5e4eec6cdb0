import Mathlib

/-!
# Reads of a memory, observed

A computation that reads a memory without bounds, with the places that it has read. What a
computation with `Reads` touches is read off its parts.

* `reads_bind`: one part after the other.
* `reads_load`: a load touches what it loads.
-/

namespace Fishix

/-- The `length` places from `offset` on. -/
structure Access where
  offset : ℕ
  length : ℕ
  deriving DecidableEq

/-- The place behind the access. -/
def Access.stop (a : Access) : ℕ := a.offset + a.length

/-- A result, and what has been read for it. -/
structure Observed (α : Type) where
  value : α
  reads : List Access := []

namespace Observed

variable {α β : Type}

instance : Monad Observed where
  pure a := { value := a }
  bind x f := { value := (f x.value).value, reads := x.reads ++ (f x.value).reads }

/-- The `length` places of `m` from `offset` on. -/
def load (m : ℕ → α) (offset length : ℕ) : Observed (List α) where
  value := (List.range length).map fun i => m (offset + i)
  reads := [⟨offset, length⟩]

/-- The place of `m` at `offset`. -/
def get (m : ℕ → α) (offset : ℕ) : Observed α where
  value := m offset
  reads := [⟨offset, 1⟩]

/-- Everything that has been read satisfies `P`. -/
def Reads (x : Observed α) (P : Access → Prop) : Prop := ∀ a ∈ x.reads, P a

variable {P : Access → Prop} {x : Observed α} {f : α → Observed β}

@[simp] theorem value_pure (a : α) : (pure a : Observed α).value = a := rfl

theorem value_ite {c : Prop} [Decidable c] {y : Observed α} :
    (if c then x else y).value = if c then x.value else y.value :=
  apply_ite Observed.value c x y

theorem value_bind : (x >>= f).value = (f x.value).value := rfl

@[simp] theorem reads_pure (a : α) : (pure a : Observed α).Reads P := by
  intro b hb
  cases hb

theorem reads_bind : (x >>= f).Reads P ↔ x.Reads P ∧ (f x.value).Reads P := by
  show (∀ a ∈ x.reads ++ (f x.value).reads, P a) ↔ _
  simp only [List.mem_append, or_imp, forall_and]
  exact Iff.rfl

theorem reads_load {m : ℕ → α} {offset length : ℕ} :
    (load m offset length).Reads P ↔ P ⟨offset, length⟩ := by
  simp [load, Reads]

theorem reads_get {m : ℕ → α} {offset : ℕ} : (get m offset).Reads P ↔ P ⟨offset, 1⟩ := by
  simp [get, Reads]

end Observed

end Fishix
