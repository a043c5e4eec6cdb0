import Mathlib

/-!
# Rings with a cycle bit

A ring of `n` slots whose entries carry a bit that the writer turns over with every lap. The slots
hold the last `n` entries of everything that has been written, and the bit of a slot says whether
its entry is of the lap that a reader is in.

* `Laps.write`: the next entry goes to the next slot.
* `Laps.owned_iff`: what a reader learns from the bit of its slot.
-/

namespace Fishix

variable {α β : Type} {n : ℕ}

/-! ## Laps -/

/-- The bit of the `k`th entry: it is set in the first lap, and in every other one from there. -/
def phase (n k : ℕ) : Bool := k / n % 2 = 0

theorem phase_of_lt {k : ℕ} (h : k < n) : phase n k = true := by
  simp [phase, Nat.div_eq_of_lt h]

/-- A lap further. -/
theorem phase_add (hn : 0 < n) (k : ℕ) : phase n (k + n) = !phase n k := by
  unfold phase
  rw [Nat.add_div_right k hn, ← decide_not, decide_eq_decide]
  omega

/-- The bit turns where a lap ends. -/
theorem phase_succ (n k : ℕ) :
    phase n (k + 1) = if (k + 1) % n = 0 then !phase n k else phase n k := by
  unfold phase
  rw [Nat.succ_div]
  by_cases hdvd : n ∣ k + 1
  · rw [if_pos hdvd, if_pos (Nat.mod_eq_zero_of_dvd hdvd), ← decide_not, decide_eq_decide]
    omega
  · rw [if_neg hdvd, if_neg fun h => hdvd (Nat.dvd_of_mod_eq_zero h), Nat.add_zero]

/-- Two entries less than a lap apart are in different slots. -/
theorem mod_ne_of_lt {a b : ℕ} (hlt : a < b) (h : b < a + n) : a % n ≠ b % n := by
  intro hmod
  have hdvd : n ∣ b - a := (Nat.modEq_iff_dvd' hlt.le).mp hmod
  have := Nat.le_of_dvd (by omega) hdvd
  omega

/-- The slot behind the one of the `k`th entry. -/
theorem succ_mod (hn : 0 < n) (k : ℕ) :
    (k + 1) % n = if k % n + 1 = n then 0 else k % n + 1 := by
  have hlt := Nat.mod_lt k hn
  rw [Nat.add_mod]
  by_cases hone : n = 1
  · subst hone
    simp [Nat.mod_one]
  rw [Nat.mod_eq_of_lt (a := 1) (by omega)]
  split_ifs with hlast
  · rw [hlast, Nat.mod_self]
  · exact Nat.mod_eq_of_lt (by omega)

/-! ## Slots -/

/-- The next entry of a list behind a part of it. -/
theorem prefix_concat {l l' : List β} {x : β} (h : l <+: l')
    (hx : l'[l.length]? = some x) : l ++ [x] <+: l' := by
  have htake := List.take_prefix (l.length + 1) l'
  rwa [List.take_add_one, hx, ← List.prefix_iff_eq_take.mp h] at htake

/-- The slots hold the last `n` entries of the log, each with the bit of its lap; where an entry has
    not been written yet, the slot has the bit of the lap before. -/
structure Laps (n : ℕ) (cycle : α → Bool) (content : α → β) (slot : ℕ → α) (log : List β) :
    Prop where
  written : ∀ k < log.length, log.length ≤ k + n →
    cycle (slot (k % n)) = phase n k ∧ log[k]? = some (content (slot (k % n)))
  free : ∀ k, log.length ≤ k → k < log.length + n → cycle (slot (k % n)) = !phase n k

namespace Laps

variable {cycle : α → Bool} {content : α → β} {slot slot' : ℕ → α} {log : List β}

/-- A ring without an entry. -/
theorem nil (h : ∀ i < n, cycle (slot i) = false) : Laps n cycle content slot [] := by
  refine ⟨fun k hk => absurd hk (Nat.not_lt_zero k), fun k _ hk => ?_⟩
  rw [List.length_nil, Nat.zero_add] at hk
  rw [Nat.mod_eq_of_lt hk, h k hk, phase_of_lt hk]
  rfl

section

variable (hn : 0 < n) (h : Laps n cycle content slot log)

include hn h

theorem congr (hslot : ∀ i < n, slot' i = slot i) : Laps n cycle content slot' log := by
  constructor
  · intro k hk hle
    rw [hslot _ (Nat.mod_lt k hn)]
    exact h.written k hk hle
  · intro k hk hlt
    rw [hslot _ (Nat.mod_lt k hn)]
    exact h.free k hk hlt

/-- The next entry goes to the next slot, with the bit of its lap. -/
theorem write {x : α} (hx : cycle x = phase n log.length) :
    Laps n cycle content (Function.update slot (log.length % n) x) (log ++ [content x]) := by
  constructor
  · intro k hk hle
    rw [List.length_append, List.length_singleton] at hk hle
    rcases Nat.eq_or_lt_of_le (Nat.le_of_lt_succ hk) with rfl | hold
    · rw [Function.update_self, List.getElem?_append_right le_rfl, Nat.sub_self]
      exact ⟨hx, rfl⟩
    · rw [Function.update_of_ne (mod_ne_of_lt hold (by omega)), List.getElem?_append_left hold]
      exact h.written k hold (by omega)
  · intro k hk hlt
    rw [List.length_append, List.length_singleton] at hk hlt
    rcases Nat.eq_or_lt_of_le (show k ≤ log.length + n by omega) with rfl | hold
    · rw [Nat.add_mod_right, Function.update_self, phase_add hn, hx, Bool.not_not]
    · rw [Function.update_of_ne (mod_ne_of_lt hk (by omega)).symm]
      exact h.free k (by omega) (by omega)

/-- The slot of a reader that is not more than a lap behind has the bit of its lap exactly if its
    entry has been written. -/
theorem owned_iff {k : ℕ} (hk : k ≤ log.length) (hlap : log.length ≤ k + n) :
    cycle (slot (k % n)) = phase n k ↔ k < log.length := by
  rcases Nat.eq_or_lt_of_le hk with rfl | hlt
  · rw [h.free _ le_rfl (by omega)]
    simp
  · exact iff_of_true (h.written k hlt hlap).1 hlt

end

/-- What the reader reads there is the entry. -/
theorem getElem? (h : Laps n cycle content slot log) {k : ℕ} (hk : k < log.length)
    (hlap : log.length ≤ k + n) : log[k]? = some (content (slot (k % n))) :=
  (h.written k hk hlap).2

end Laps

end Fishix
