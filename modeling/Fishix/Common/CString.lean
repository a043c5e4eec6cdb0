import Mathlib

/-!
# NUL-terminated strings

Memory is seen through a pointer: a `List CChar` holds the bytes from the pointer on that may
be read. A string in it ends at the first NUL; what stands behind the NUL belongs to
something else and is still there for a pointer that has run past the end.

* `cstr`, `strlen`, `strchr`, `memcpyFrom`, `strncpy`: reading through a pointer.
* `hash`: the hash of a string (klib/common.hpp:157-162).
* `components`: a string cut at a separator, empty parts left out.
-/

namespace Fishix

/-- `char`. -/
abbrev CChar := BitVec 8

/-- The string behind a pointer. -/
def cstr (m : List CChar) : List CChar := m.takeWhile (· ≠ 0#8)

/-- The bytes of a string literal. -/
def chars (s : String) : List CChar := s.toList.map fun c => BitVec.ofNat 8 c.toNat

/-- A string literal in memory: its bytes and the NUL. -/
def cliteral (s : String) : List CChar := chars s ++ [0#8]

/-- `klib::strlen` (klib/cstring.cpp:5-10); `none` when it runs out of the memory. -/
def strlen (m : List CChar) : Option ℕ :=
  if 0#8 ∈ m then some (cstr m).length else none

/-- `klib::strchr` (klib/cstring.cpp:68-73) of a terminated string, as an offset. -/
def strchr (m : List CChar) (c : CChar) : Option ℕ := (cstr m).idxOf? c

/-- `memcpy` of `n` bytes from a pointer. -/
def memcpyFrom (m : List CChar) (n : ℕ) : Option (List CChar) :=
  if n ≤ m.length then some (m.take n) else none

/-- `klib::strncpy` (klib/cstring.cpp:22-29): what stands at `dst` afterwards. -/
def strncpy (dst src : List CChar) (n : ℕ) : List CChar :=
  let copied := (cstr src).take n
  copied ++ List.replicate (n - copied.length) 0#8 ++ dst.drop n

/-- `klib::hash` of a string (klib/common.hpp:157-162), `char` being signed. -/
def hash (s : List CChar) : BitVec 32 :=
  s.foldl (fun h c => ((h <<< 5) + h) ^^^ c.signExtend 32) 5381#32

theorem cstr_append {p : List CChar} (hp : 0#8 ∉ p) (t : List CChar) :
    cstr (p ++ 0#8 :: t) = p := by
  unfold cstr
  rw [List.takeWhile_append_of_pos]
  · simp
  · intro c hc
    simp only [ne_eq, decide_not, Bool.not_eq_eq_eq_not, Bool.not_true, decide_eq_false_iff_not]
    intro h0
    exact hp (h0 ▸ hc)

theorem cstr_of_not_mem {p : List CChar} (hp : 0#8 ∉ p) : cstr p = p := by
  unfold cstr
  rw [List.takeWhile_eq_self_iff]
  intro c hc
  simp only [ne_eq, decide_not, Bool.not_eq_eq_eq_not, Bool.not_true, decide_eq_false_iff_not]
  intro h0
  exact hp (h0 ▸ hc)

/-- Bytes copied from behind the NUL do not change the string. -/
theorem cstr_take {p : List CChar} (hp : 0#8 ∉ p) (t : List CChar) (k : ℕ) :
    cstr ((p ++ 0#8 :: t).take (p.length + k)) = p := by
  rw [List.take_length_add_append]
  cases k with
  | zero =>
    rw [List.take_zero, List.append_nil]
    exact cstr_of_not_mem hp
  | succ j =>
    rw [List.take_succ_cons]
    exact cstr_append hp _

theorem not_mem_cstr (m : List CChar) : 0#8 ∉ cstr m := by
  intro h
  simpa using List.mem_takeWhile_imp h

/-- A terminated string is its bytes, the NUL and what stands behind it. -/
theorem eq_cstr_append {m : List CChar} (h : 0#8 ∈ m) :
    ∃ t, m = cstr m ++ 0#8 :: t := by
  induction m with
  | nil => simp at h
  | cons c m ih =>
    by_cases hc : c = 0#8
    · exact ⟨m, by simp [cstr, hc]⟩
    · have hm : 0#8 ∈ m := by
        rcases List.mem_cons.mp h with h | h
        · exact absurd h.symm hc
        · exact h
      obtain ⟨t, ht⟩ := ih hm
      refine ⟨t, ?_⟩
      have : cstr (c :: m) = c :: cstr m := by simp [cstr, hc]
      rw [this, List.cons_append, ← ht]

theorem cstr_append_zeros {p : List CChar} (hp : 0#8 ∉ p) (n : ℕ) :
    cstr (p ++ List.replicate n 0#8) = p := by
  cases n with
  | zero => rw [List.replicate_zero, List.append_nil, cstr_of_not_mem hp]
  | succ n => rw [List.replicate_succ, cstr_append hp]

theorem take_cstr (m : List CChar) (n : ℕ) : (cstr m).take n = cstr (m.take n) := by
  unfold cstr
  induction m generalizing n with
  | nil => simp
  | cons c m ih =>
    cases n with
    | zero => simp
    | succ n =>
      rw [List.take_succ_cons]
      by_cases hc : c = 0#8
      · simp [hc]
      · simpa [hc] using ih n

/-- What `strncpy` has copied, read as a string of at most `n` bytes. -/
theorem cstr_strncpy (dst src : List CChar) (n : ℕ) :
    cstr ((strncpy dst src n).take n) = cstr (src.take n) := by
  have hnul : 0#8 ∉ (cstr src).take n := fun h => not_mem_cstr src (List.mem_of_mem_take h)
  have hlength : ((cstr src).take n ++
      List.replicate (n - ((cstr src).take n).length) 0#8).length = n := by
    rw [List.length_append, List.length_replicate, Nat.add_sub_cancel' (List.length_take_le n _)]
  show cstr (((cstr src).take n ++ List.replicate _ 0#8 ++ dst.drop n).take n) = _
  rw [List.take_left' hlength, cstr_append_zeros hnul, take_cstr]

theorem strlen_append {p : List CChar} (hp : 0#8 ∉ p) (t : List CChar) :
    strlen (p ++ 0#8 :: t) = some p.length := by
  unfold strlen
  rw [if_pos (by simp), cstr_append hp]

theorem strlen_eq_some {m : List CChar} {n : ℕ} (h : strlen m = some n) :
    ∃ p t, m = p ++ 0#8 :: t ∧ 0#8 ∉ p ∧ n = p.length := by
  unfold strlen at h
  split_ifs at h with hm
  obtain ⟨t, ht⟩ := eq_cstr_append hm
  exact ⟨cstr m, t, ht, not_mem_cstr m, (Option.some.inj h).symm⟩

theorem strchr_append {p : List CChar} (hp : 0#8 ∉ p) (t : List CChar) (c : CChar) :
    strchr (p ++ 0#8 :: t) c = p.idxOf? c := by
  unfold strchr
  rw [cstr_append hp]

theorem idxOf?_eq_none_of_not_mem {p : List CChar} {c : CChar} (h : c ∉ p) :
    p.idxOf? c = none := by
  simpa using h

theorem idxOf?_append_cons {p : List CChar} {c : CChar} (h : c ∉ p) (q : List CChar) :
    (p ++ c :: q).idxOf? c = some p.length := by
  induction p with
  | nil => simp [List.idxOf?_cons]
  | cons d p ih =>
    have hd : d ≠ c := by
      intro e
      exact h (by simp [e])
    have hp : c ∉ p := fun hc => h (List.mem_cons_of_mem _ hc)
    simp [List.idxOf?_cons, hd, ih hp]

/-! ## Components -/

/-- The non-empty parts of `p` between separators. -/
def components (sep : CChar) (p : List CChar) : List (List CChar) :=
  (p.splitOn sep).filter (· ≠ [])

variable {sep : CChar}

@[simp] theorem components_nil : components sep [] = [] := by
  simp [components]

@[simp] theorem components_sep (p : List CChar) : components sep (sep :: p) = components sep p := by
  unfold components
  have := List.splitOn_append_cons_self_of_not_mem (show sep ∉ ([] : List CChar) by simp) p
  rw [List.nil_append] at this
  rw [this]
  simp

theorem components_append_sep (p q : List CChar) :
    components sep (p ++ sep :: q) = components sep p ++ components sep q := by
  unfold components
  rw [List.splitOn_append_cons_self, List.filter_append]

theorem components_single {c : List CChar} (hc : sep ∉ c) (hne : c ≠ []) :
    components sep c = [c] := by
  unfold components
  rw [List.splitOn_eq_singleton hc]
  simp [hne]

theorem components_cons {c : List CChar} (hc : sep ∉ c) (hne : c ≠ []) (q : List CChar) :
    components sep (c ++ sep :: q) = c :: components sep q := by
  rw [components_append_sep, components_single hc hne, List.singleton_append]

/-- Text that starts with the separator, or is empty, adds its own components. -/
theorem components_append {p q : List CChar} (hq : q = [] ∨ q.head? = some sep) :
    components sep (p ++ q) = components sep p ++ components sep q := by
  rcases hq with rfl | hq
  · simp
  · obtain ⟨q', rfl⟩ : ∃ q', q = sep :: q' := by
      cases q with
      | nil => simp at hq
      | cons a q' => exact ⟨q', by simpa using hq⟩
    rw [components_append_sep, components_sep]

end Fishix
