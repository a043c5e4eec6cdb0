import Mathlib

/-!
# Times

Model of `klib/timespec.hpp`: seconds and nanoseconds with a hand-written carry and borrow. Both
are integers here. The difference of two normalised times that are not negative stays in the range
of an `i64`. A sum does so while its seconds are below `2 ^ 63`: what is said of sums is said of
those.

A borrowed second counts `999'999'999` nanoseconds in `operator -=`. Its result is therefore not
the difference of the times but, exactly, that of their `short` values, in which every second is
one nanosecond short (`short_sub`). `exactArithmetic_iff` says for which times nothing is lost.
-/

namespace Fishix

/-- `TimeSpec` (klib/timespec.hpp:7-9). -/
structure TimeSpec where
  seconds : ℤ := 0
  nanoseconds : ℤ := 0
deriving DecidableEq

namespace TimeSpec

/-- `is_zero` (klib/timespec.hpp:18-20). -/
def isZero (a : TimeSpec) : Bool := a.seconds = 0 && a.nanoseconds = 0

/-- `operator +=` (klib/timespec.hpp:22-32). -/
def add (a b : TimeSpec) : TimeSpec :=
  if a.nanoseconds + b.nanoseconds > 999999999 then
    { seconds := a.seconds + 1 + b.seconds
      nanoseconds := a.nanoseconds + b.nanoseconds - 1000000000 }
  else { seconds := a.seconds + b.seconds, nanoseconds := a.nanoseconds + b.nanoseconds }

/-- The second half of `operator -=` (klib/timespec.hpp:47-53). -/
def subSeconds (a b : TimeSpec) : TimeSpec :=
  if b.seconds > a.seconds then {} else { a with seconds := a.seconds - b.seconds }

/-- `operator -=` (klib/timespec.hpp:34-54). -/
def sub (a b : TimeSpec) : TimeSpec :=
  if b.nanoseconds > a.nanoseconds then
    let diff := b.nanoseconds - a.nanoseconds
    if a.seconds = 0 then {}
    else subSeconds { seconds := a.seconds - 1, nanoseconds := 999999999 - diff } b
  else subSeconds { a with nanoseconds := a.nanoseconds - b.nanoseconds } b

/-- The time in nanoseconds. -/
def ns (a : TimeSpec) : ℤ := 1000000000 * a.seconds + a.nanoseconds

/-- The time with every second counted as a borrowed one. -/
def short (a : TimeSpec) : ℤ := 999999999 * a.seconds + a.nanoseconds

/-- Not negative, and less than a second of nanoseconds. -/
structure Normal (a : TimeSpec) : Prop where
  seconds : 0 ≤ a.seconds
  nanoseconds : 0 ≤ a.nanoseconds
  lt_second : a.nanoseconds < 1000000000

variable {a b : TimeSpec}

theorem ns_eq (a : TimeSpec) : a.ns = a.short + a.seconds := by
  unfold ns short
  omega

theorem ns_add (a b : TimeSpec) : (a.add b).ns = a.ns + b.ns := by
  unfold add
  split_ifs
  · simp only [ns]
    omega
  · simp only [ns]
    omega

theorem Normal.short_nonneg (h : a.Normal) : 0 ≤ a.short := by
  have := h.seconds
  have := h.nanoseconds
  unfold short
  omega

theorem normal_sub (ha : a.Normal) (hb : b.Normal) : (a.sub b).Normal := by
  obtain ⟨ha1, ha2, ha3⟩ := ha
  obtain ⟨hb1, hb2, hb3⟩ := hb
  unfold sub subSeconds
  simp only
  split_ifs
  all_goals
    constructor
    all_goals simp only
    all_goals omega

/-- What `operator -=` subtracts exactly, and never below zero. -/
theorem short_sub (ha : a.Normal) (hb : b.Normal) : (a.sub b).short = max 0 (a.short - b.short) := by
  obtain ⟨ha1, ha2, ha3⟩ := ha
  obtain ⟨hb1, hb2, hb3⟩ := hb
  unfold sub subSeconds
  simp only
  split_ifs
  all_goals
    simp only [short]
    omega

theorem isZero_iff (ha : a.Normal) : a.isZero = true ↔ a.short ≤ 0 := by
  obtain ⟨ha1, ha2, -⟩ := ha
  simp only [isZero, short, Bool.and_eq_true, decide_eq_true_eq]
  omega

/-! ## Exactness -/

theorem normal_add (ha : a.Normal) (hb : b.Normal) : (a.add b).Normal := by
  obtain ⟨ha1, ha2, ha3⟩ := ha
  obtain ⟨hb1, hb2, hb3⟩ := hb
  unfold add
  split_ifs
  all_goals
    constructor
    all_goals simp only
    all_goals omega

/-- The difference is exact unless a second is borrowed and something is left of it. -/
theorem ns_sub_iff (ha : a.Normal) (hb : b.Normal) :
    (a.sub b).ns = max 0 (a.ns - b.ns) ↔
      b.nanoseconds ≤ a.nanoseconds ∨ a.seconds ≤ b.seconds := by
  obtain ⟨ha1, ha2, ha3⟩ := ha
  obtain ⟨hb1, hb2, hb3⟩ := hb
  unfold sub subSeconds
  simp only
  split_ifs
  all_goals
    simp only [ns]
    omega

/-- A time comes back from a sum unless the nanoseconds have been carried. -/
theorem add_sub_iff (ha : a.Normal) (hb : b.Normal) :
    (a.add b).sub b = a ↔ a.nanoseconds + b.nanoseconds < 1000000000 := by
  obtain ⟨s, n⟩ := a
  obtain ⟨ha1, ha2, ha3⟩ := ha
  obtain ⟨hb1, hb2, hb3⟩ := hb
  simp only at ha1 ha2 ha3
  unfold add
  simp only
  split_ifs with hcarry
  all_goals
    unfold sub subSeconds
    simp only
    split_ifs
    all_goals
      simp only [TimeSpec.mk.injEq]
      omega

/-- Sum and difference are normal and denote what they should, and the sum can be taken back. -/
structure ExactArithmetic (a b : TimeSpec) : Prop where
  normalAdd : (a.add b).Normal
  nsAdd : (a.add b).ns = a.ns + b.ns
  normalSub : (a.sub b).Normal
  nsSub : (a.sub b).ns = max 0 (a.ns - b.ns)
  addSub : (a.add b).sub b = a

/-- **Main theorem.** The arithmetic is exact for two times exactly if no nanoseconds are borrowed,
    neither by the difference nor for what has been carried by the sum. -/
theorem exactArithmetic_iff (ha : a.Normal) (hb : b.Normal) :
    ExactArithmetic a b ↔ (b.nanoseconds ≤ a.nanoseconds ∨ a.seconds ≤ b.seconds) ∧
      a.nanoseconds + b.nanoseconds < 1000000000 := by
  constructor
  · intro h
    exact ⟨(ns_sub_iff ha hb).mp h.nsSub, (add_sub_iff ha hb).mp h.addSub⟩
  · rintro ⟨hborrow, hcarry⟩
    exact ⟨normal_add ha hb, ns_add a b, normal_sub ha hb, (ns_sub_iff ha hb).mpr hborrow,
      (add_sub_iff ha hb).mpr hcarry⟩

/-- Two seconds and three nanoseconds, and one second and two nanoseconds. -/
theorem exactArithmetic_small : ExactArithmetic ⟨2, 3⟩ ⟨1, 2⟩ :=
  (exactArithmetic_iff ⟨by decide, by decide, by decide⟩ ⟨by decide, by decide, by decide⟩).mpr
    ⟨.inl (by decide), by decide⟩

/-- A nanosecond before one second. -/
theorem borrow_short : ¬∀ a b : TimeSpec, a.Normal → b.Normal → ExactArithmetic a b := by
  intro h
  have hsub := (h ⟨1, 0⟩ ⟨0, 1⟩ ⟨by decide, by decide, by decide⟩
    ⟨by decide, by decide, by decide⟩).nsSub
  exact absurd hsub (by decide)

/-! ## Sums -/

/-- Nanoseconds of several times. -/
def total (ts : List TimeSpec) : ℤ := (ts.map ns).sum

/-- Seconds of several times, without those that their nanoseconds make up. -/
def wholeSeconds (ts : List TimeSpec) : ℤ := (ts.map seconds).sum

def totalShort (ts : List TimeSpec) : ℤ := (ts.map short).sum

@[simp] theorem totalShort_nil : totalShort [] = 0 := rfl

@[simp] theorem totalShort_cons (ts : List TimeSpec) :
    totalShort (a :: ts) = a.short + totalShort ts := List.sum_cons

theorem total_eq (ts : List TimeSpec) : total ts = totalShort ts + wholeSeconds ts := by
  induction ts with
  | nil => rfl
  | cons a ts ih =>
    simp only [total, totalShort, wholeSeconds, List.map_cons, List.sum_cons] at ih ⊢
    rw [ih, ns_eq]
    omega

theorem wholeSeconds_le {ts : List TimeSpec} (h : ∀ t ∈ ts, t.Normal) :
    999999999 * wholeSeconds ts ≤ totalShort ts := by
  induction ts with
  | nil => exact le_refl _
  | cons a ts ih =>
    have ha := (h a List.mem_cons_self).nanoseconds
    have hts := ih fun t ht => h t (List.mem_cons_of_mem a ht)
    simp only [totalShort, wholeSeconds, List.map_cons, List.sum_cons, short] at hts ⊢
    omega

/-- Times that make up a time also do so where every second is short. -/
theorem short_le_of_ns_le {d : TimeSpec} {ts : List TimeSpec} (hd : d.Normal)
    (h : ∀ t ∈ ts, t.Normal) (hle : d.ns ≤ total ts) : d.short ≤ totalShort ts := by
  have hwhole := wholeSeconds_le h
  have htotal := total_eq ts
  have hns := ns_eq d
  have hsecond := hd.lt_second
  by_cases hmore : wholeSeconds ts ≤ d.seconds
  · omega
  · unfold short
    omega

end TimeSpec

end Fishix
