import Mathlib.Logic.Function.Basic
import Mathlib.Data.List.Basic

/-!
# A list through an array

The elements of a list are the indices of an array, and each cell holds the index of the next one.

* `Path.congr`: cells that are not on the list do not matter.
* `Path.push`: an element is put in front.
-/

namespace Fishix

variable {α : Type} {next next' : α → α} {stop a : α} {l : List α}

/-- From `a` the cells lead through `l` to `stop`. -/
def Path (next : α → α) (stop : α) : α → List α → Prop
  | a, [] => a = stop
  | a, b :: l => a = b ∧ b ≠ stop ∧ Path next stop (next b) l

theorem Path.congr (h : Path next stop a l) (hnext : ∀ b ∈ l, next' b = next b) :
    Path next' stop a l := by
  induction l generalizing a with
  | nil => exact h
  | cons b l ih =>
    obtain ⟨ha, hb, hl⟩ := h
    refine ⟨ha, hb, ?_⟩
    rw [hnext b List.mem_cons_self]
    exact ih hl fun c hc => hnext c (List.mem_cons_of_mem b hc)

theorem Path.push [DecidableEq α] (h : Path next stop a l) {b : α} (hb : b ∉ l)
    (hstop : b ≠ stop) : Path (Function.update next b a) stop b (b :: l) := by
  refine ⟨rfl, hstop, ?_⟩
  rw [Function.update_self]
  refine h.congr fun c hc => Function.update_of_ne ?_ _ _
  rintro rfl
  exact hb hc

end Fishix
