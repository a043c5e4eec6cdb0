import Fishix.Common.ByteMemory

/-!
# Strings and tables in memory

Strings are put into memory one behind the other, each with room for its terminator. Their bytes are
written without the terminators: what stands there is what stood there before.

* `stringAt_storeStrings_iff`: a string can be read back exactly if there was a zero behind it.
* `load_storeStrings_of_apart`: nothing else changes.
* `loadWord_store_words`: the words of a table.
-/

namespace Fishix.ByteMemory

open BitVec (ofNat ofNat_add)

/-- A string with its terminator. -/
def StringAt (m : ByteMemory) (a : U64) (s : List (BitVec 8)) : Prop :=
  m.load a (s.length + 1) = s ++ [0#8]

instance (m : ByteMemory) (a : U64) (s : List (BitVec 8)) : Decidable (m.StringAt a s) :=
  inferInstanceAs (Decidable (_ = _))

/-- The bytes that strings take with their terminators. -/
def stringsSize (strs : List (List (BitVec 8))) : ℕ := (strs.map fun s => s.length + 1).sum

/-- Where the `i`-th string begins, from the first one on. -/
def stringOffset (strs : List (List (BitVec 8))) (i : ℕ) : ℕ := stringsSize (strs.take i)

/-- The strings are written from `base` on, the last one first. -/
def storeStrings (m : ByteMemory) (base : U64) : List (List (BitVec 8)) → ByteMemory
  | [] => m
  | s :: strs => (m.storeStrings (base + ofNat 64 (s.length + 1)) strs).store base s

/-- The addresses of the strings, each computed from the one before. -/
def stringPointers (base : U64) : List (List (BitVec 8)) → List U64
  | [] => []
  | s :: strs => base :: stringPointers (base + (ofNat 64 s.length + 1#64)) strs

variable {m : ByteMemory} {a b base : U64} {i n : ℕ} {s : List (BitVec 8)}
  {strs strs' : List (List (BitVec 8))}

/-! ## Sizes -/

@[simp] theorem stringsSize_nil : stringsSize [] = 0 := rfl

@[simp] theorem stringsSize_cons : stringsSize (s :: strs) = s.length + 1 + stringsSize strs := by
  simp [stringsSize]

@[simp] theorem stringsSize_append :
    stringsSize (strs ++ strs') = stringsSize strs + stringsSize strs' := by
  simp [stringsSize]

@[simp] theorem stringOffset_zero : stringOffset strs 0 = 0 := rfl

@[simp] theorem stringOffset_succ :
    stringOffset (s :: strs) (i + 1) = s.length + 1 + stringOffset strs i := stringsSize_cons

/-- A string with its terminator ends before the next one begins. -/
theorem stringOffset_add_le (hi : i < strs.length) {j : ℕ} (hj : i < j) :
    stringOffset strs i + (strs[i].length + 1) ≤ stringOffset strs j := by
  induction strs generalizing i j with
  | nil => cases hi
  | cons s strs ih =>
    obtain ⟨j, rfl⟩ : ∃ k, j = k + 1 := ⟨j - 1, by omega⟩
    cases i with
    | zero => simp
    | succ i =>
      have := ih (Nat.lt_of_succ_lt_succ hi) (Nat.lt_of_succ_lt_succ hj)
      simp only [stringOffset_succ, List.getElem_cons_succ]
      omega

theorem stringOffset_length : stringOffset strs strs.length = stringsSize strs := by
  simp [stringOffset]

theorem stringOffset_le_size (hi : i < strs.length) :
    stringOffset strs i + (strs[i].length + 1) ≤ stringsSize strs :=
  (stringOffset_add_le hi hi).trans_eq stringOffset_length

theorem stringOffset_append_left (hi : i ≤ strs.length) :
    stringOffset (strs ++ strs') i = stringOffset strs i := by
  unfold stringOffset
  rw [List.take_append_of_le_length hi]

theorem stringOffset_append_right :
    stringOffset (strs ++ strs') (strs.length + i) = stringsSize strs + stringOffset strs' i := by
  unfold stringOffset
  rw [List.take_length_add_append, stringsSize_append]

@[simp] theorem length_stringPointers : (stringPointers base strs).length = strs.length := by
  induction strs generalizing base with
  | nil => rfl
  | cons s strs ih => simp [stringPointers, ih]

theorem getElem_stringPointers (hi : i < (stringPointers base strs).length) :
    (stringPointers base strs)[i] = base + ofNat 64 (stringOffset strs i) := by
  induction strs generalizing base i with
  | nil => cases hi
  | cons s strs ih =>
    cases i with
    | zero => simp [stringPointers]
    | succ i =>
      simp only [stringPointers, List.getElem_cons_succ, stringOffset_succ]
      rw [ih, show (1#64 : U64) = ofNat 64 1 from rfl, ← ofNat_add, BitVec.add_assoc,
        ← ofNat_add]

/-! ## Strings -/

theorem load_succ : m.load a (n + 1) = m.load a n ++ [m (a + ofNat 64 n)] := by
  simp [load, List.range_succ]

theorem apart_above {k : ℕ} (hi : n ≤ i) (hk : i + k ≤ 2 ^ 64) :
    Apart (a + ofNat 64 i) k a n := by
  intro j hj
  rw [BitVec.add_assoc, ← ofNat_add, add_sub_toNat (by omega)]
  omega

theorem store_of_apart {bytes : List (BitVec 8)} (h : Apart b 1 a bytes.length) :
    m.store a bytes b = m b := by
  have hlow := h 0 Nat.one_pos
  rw [show b + ofNat 64 0 = b by simp] at hlow
  unfold store
  rw [if_neg (Nat.not_lt.mpr hlow)]

theorem store_append {x y : List (BitVec 8)} (hsize : x.length + y.length ≤ 2 ^ 64) :
    (m.store (a + ofNat 64 x.length) y).store a x = m.store a (x ++ y) := by
  funext c
  have hc := (c - a).isLt
  unfold store
  rw [List.length_append]
  by_cases hx : (c - a).toNat < x.length
  · rw [if_pos hx, if_pos (by omega), List.getD_append _ _ _ _ hx]
  · have hat : (c - (a + ofNat 64 x.length)).toNat = (c - a).toNat - x.length := by
      rw [← sub_sub, BitVec.toNat_sub, BitVec.toNat_ofNat]
      omega
    rw [if_neg hx, hat]
    by_cases hy : (c - a).toNat - x.length < y.length
    · rw [if_pos hy, if_pos (by omega), List.getD_append_right _ _ _ _ (by omega)]
    · rw [if_neg hy, if_neg (by omega)]

theorem storeStrings_append : m.storeStrings base (strs ++ strs') =
    (m.storeStrings (base + ofNat 64 (stringsSize strs)) strs').storeStrings base strs := by
  induction strs generalizing base with
  | nil => simp [storeStrings]
  | cons s strs ih =>
    rw [List.cons_append]
    unfold storeStrings
    rw [ih, stringsSize_cons, BitVec.add_assoc, ← ofNat_add]

/-- What lies elsewhere is not written. -/
theorem load_storeStrings_of_apart (h : Apart b n base (stringsSize strs)) :
    (m.storeStrings base strs).load b n = m.load b n := by
  induction strs generalizing base with
  | nil => rfl
  | cons s strs ih =>
    rw [stringsSize_cons] at h
    have hfirst : Apart b n base s.length := h.mono (by omega)
    unfold storeStrings
    rw [load_store_of_apart hfirst, ih (h.part (by omega))]

theorem storeStrings_of_apart (h : Apart a 1 base (stringsSize strs)) :
    m.storeStrings base strs a = m a := by
  have hload := load_storeStrings_of_apart (m := m) h
  simpa [load] using hload

/-- The bytes of a string, and what stands behind them. -/
theorem load_storeStrings (hsize : stringsSize strs ≤ 2 ^ 64) (hi : i < strs.length) :
    (m.storeStrings base strs).load (base + ofNat 64 (stringOffset strs i))
        (strs[i].length + 1) =
      strs[i] ++ [m (base + ofNat 64 (stringOffset strs i) +
        ofNat 64 strs[i].length)] := by
  induction strs generalizing base i with
  | nil => cases hi
  | cons s strs ih =>
    rw [stringsSize_cons] at hsize
    unfold storeStrings
    cases i with
    | zero =>
      have hzero : base + ofNat 64 (stringOffset (s :: strs) 0) = base := by simp
      rw [hzero, List.getElem_cons_zero, load_succ, load_store (by omega)]
      have hbehind : Apart (base + ofNat 64 s.length) 1
          (base + ofNat 64 (s.length + 1)) (stringsSize strs) :=
        apart_of_offsets (by omega) (by omega) (.inl (by omega))
      have hkept : (m.storeStrings (base + ofNat 64 (s.length + 1)) strs).store base s
          (base + ofNat 64 s.length) = m (base + ofNat 64 s.length) := by
        unfold store
        rw [add_sub_toNat (by omega), if_neg (Nat.lt_irrefl _), storeStrings_of_apart hbehind]
      rw [hkept]
    | succ i =>
      have hi' : i < strs.length := Nat.lt_of_succ_lt_succ hi
      have hlast := stringOffset_le_size hi'
      have hat : base + ofNat 64 (stringOffset (s :: strs) (i + 1)) =
          base + ofNat 64 (s.length + 1) + ofNat 64 (stringOffset strs i) := by
        rw [stringOffset_succ, ofNat_add, BitVec.add_assoc]
      have hapart : Apart (base + ofNat 64 (stringOffset (s :: strs) (i + 1)))
          (strs[i].length + 1) (base + ofNat 64 0) s.length := by
        rw [stringOffset_succ]
        exact apart_of_offsets (by omega) (by omega) (.inr (by omega))
      have hbase : base + ofNat 64 0 = base := by simp
      rw [hbase] at hapart
      rw [List.getElem_cons_succ, load_store_of_apart hapart, hat]
      exact ih (by omega) hi'

/-- A string can be read back exactly if there was a zero where its terminator belongs. -/
theorem stringAt_storeStrings_iff (hsize : stringsSize strs ≤ 2 ^ 64) (hi : i < strs.length) :
    (m.storeStrings base strs).StringAt (base + ofNat 64 (stringOffset strs i)) strs[i] ↔
      m (base + ofNat 64 (stringOffset strs i) + ofNat 64 strs[i].length) = 0#8 := by
  unfold StringAt
  rw [load_storeStrings hsize hi]
  constructor
  · intro h
    exact List.head_eq_of_cons_eq (List.append_cancel_left h)
  · intro h
    rw [h]

theorem StringAt.terminator (h : m.StringAt a s) : m (a + ofNat 64 s.length) = 0#8 := by
  unfold StringAt at h
  rw [load_succ] at h
  exact List.head_eq_of_cons_eq (List.append_inj_right h (by simp))

/-- Elsewhere written memory has the same strings. -/
theorem stringAt_congr {m' : ByteMemory} (h : m'.load a (s.length + 1) = m.load a (s.length + 1)) :
    m'.StringAt a s ↔ m.StringAt a s := by
  unfold StringAt
  rw [h]

/-! ## Tables -/

theorem load_store_part {bytes : List (BitVec 8)} (hlen : bytes.length ≤ 2 ^ 64)
    (hin : i + n ≤ bytes.length) :
    (m.store a bytes).load (a + ofNat 64 i) n = (bytes.drop i).take n := by
  refine List.ext_getElem (by simp; omega) ?_
  intro j hj _
  rw [length_load] at hj
  rw [getElem_load, BitVec.add_assoc, ← ofNat_add, store_at (by omega) hlen,
    List.getElem_take, List.getElem_drop]

@[simp] theorem length_flatMap_wordBytes (ws : List U64) :
    (ws.flatMap wordBytes).length = 8 * ws.length := by
  induction ws with
  | nil => rfl
  | cons w ws ih =>
    rw [List.flatMap_cons, List.length_append, ih, length_wordBytes, List.length_cons]
    omega

theorem take_drop_flatMap_wordBytes {ws : List U64} (hi : i < ws.length) :
    ((ws.flatMap wordBytes).drop (8 * i)).take 8 = wordBytes ws[i] := by
  induction ws generalizing i with
  | nil => cases hi
  | cons w ws ih =>
    rw [List.flatMap_cons]
    cases i with
    | zero => exact List.take_left' (length_wordBytes w)
    | succ i =>
      have hdrop : 8 * (i + 1) = (wordBytes w).length + 8 * i := by
        rw [length_wordBytes]
        omega
      rw [hdrop, List.drop_length_add_append]
      exact ih (Nat.lt_of_succ_lt_succ hi)

theorem loadWord_store_words {ws : List U64} (hsize : 8 * ws.length ≤ 2 ^ 64) (hi : i < ws.length) :
    (m.store a (ws.flatMap wordBytes)).loadWord (a + ofNat 64 (8 * i)) = ws[i] := by
  unfold loadWord
  rw [load_store_part (by rw [length_flatMap_wordBytes]; exact hsize)
      (by rw [length_flatMap_wordBytes]; omega),
    take_drop_flatMap_wordBytes hi, wordOf_wordBytes]

end Fishix.ByteMemory
