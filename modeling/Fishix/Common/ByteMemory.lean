import Fishix.Common.Word

/-!
# Bytes in memory

Memory is a function from addresses to bytes. Addresses wrap around: the bytes from `a` on are those
at `a + 0`, `a + 1`, ... up to the end of the address space and on from zero. Words are
little-endian.

* `load_store`, `load_store_of_apart`: a load of what was stored, and of what was not.
* `loadWord_storeWord`, `loadWord_storeWords`: the same for words, and for the words of a record.
* `gather_scatter`: what parts of the memory hold after bytes have been distributed to them.
-/

namespace Fishix

open BitVec (ofNat toNat_ofNat)

/-- What stands at each address. -/
abbrev ByteMemory := U64 → BitVec 8

namespace ByteMemory

/-- The bytes are written from `dst` on. -/
def store (m : ByteMemory) (dst : U64) (bytes : List (BitVec 8)) : ByteMemory := fun a =>
  if (a - dst).toNat < bytes.length then bytes.getD (a - dst).toNat 0#8 else m a

/-- The `n` bytes from `src` on. -/
def load (m : ByteMemory) (src : U64) (n : ℕ) : List (BitVec 8) :=
  (List.range n).map fun i => m (src + ofNat 64 i)

/-- The bytes of a word, the lowest first. -/
def wordBytes (x : U64) : List (BitVec 8) :=
  (List.range 8).map fun i => ofNat 8 (x.toNat / 256 ^ i)

/-- The word of some bytes. -/
def wordOf (bytes : List (BitVec 8)) : U64 :=
  ofNat 64 (Nat.ofDigits 256 (bytes.map BitVec.toNat))

def storeWord (m : ByteMemory) (dst x : U64) : ByteMemory := m.store dst (wordBytes x)

def loadWord (m : ByteMemory) (src : U64) : U64 := wordOf (m.load src 8)

/-- The words of a record at `base`, each at its offset. -/
def storeWords (m : ByteMemory) (base : U64) (words : List (ℕ × U64)) : ByteMemory :=
  words.foldl (fun m w => m.storeWord (base + ofNat 64 w.1) w.2) m

/-- The `n` bytes from `a` on and the `k` bytes from `b` on have no byte in common. -/
def Apart (a : U64) (n : ℕ) (b : U64) (k : ℕ) : Prop :=
  ∀ i < n, k ≤ (a + ofNat 64 i - b).toNat

variable {m : ByteMemory} {a b base : U64} {i j n k : ℕ} {bytes : List (BitVec 8)}

@[simp] theorem length_load : (m.load a n).length = n := by simp [load]

@[simp] theorem length_wordBytes (x : U64) : (wordBytes x).length = 8 := rfl

/-! ## Bytes -/

theorem getElem_load (hi : i < (m.load a n).length) :
    (m.load a n)[i] = m (a + ofNat 64 i) := by simp [load]

theorem load_add : m.load a (n + k) = m.load a n ++ m.load (a + ofNat 64 n) k := by
  unfold load
  rw [List.range_add, List.map_append, List.map_map]
  congr 2
  funext i
  show m (a + ofNat 64 (n + i)) = _
  rw [BitVec.ofNat_add, BitVec.add_assoc]

theorem drop_load (h : i ≤ n) : (m.load a n).drop i = m.load (a + ofNat 64 i) (n - i) := by
  obtain ⟨k, rfl⟩ := Nat.exists_eq_add_of_le h
  rw [load_add, List.drop_left' length_load, Nat.add_sub_cancel_left]

theorem load_congr {m' : ByteMemory} (h : ∀ i < n, m' (a + ofNat 64 i) =
    m (a + ofNat 64 i)) : m'.load a n = m.load a n := by
  refine List.map_congr_left ?_
  intro i hi
  exact h i (List.mem_range.mp hi)

theorem add_sub_toNat (hi : i < 2 ^ 64) : (a + ofNat 64 i - a).toNat = i := by
  rw [add_sub_cancel_left, toNat_ofNat, Nat.mod_eq_of_lt hi]

theorem store_at (hi : i < bytes.length) (hlen : bytes.length ≤ 2 ^ 64) :
    m.store a bytes (a + ofNat 64 i) = bytes[i] := by
  unfold store
  rw [add_sub_toNat (by omega), if_pos hi, List.getD_eq_getElem _ _ hi]

/-- What has been stored is loaded. -/
theorem load_store (hlen : bytes.length ≤ 2 ^ 64) :
    (m.store a bytes).load a bytes.length = bytes := by
  refine List.ext_getElem (by simp) ?_
  intro i _ hi
  rw [getElem_load, store_at hi hlen]

theorem load_store_of_apart (h : Apart b n a bytes.length) :
    (m.store a bytes).load b n = m.load b n := by
  refine load_congr ?_
  intro i hi
  unfold store
  rw [if_neg (Nat.not_lt.mpr (h i hi))]

/-- Two places in one record. -/
theorem apart_of_offsets (hi : i + n ≤ 2 ^ 64) (hj : j + k ≤ 2 ^ 64) (h : i + n ≤ j ∨ j + k ≤ i) :
    Apart (base + ofNat 64 i) n (base + ofNat 64 j) k := by
  intro l hl
  have hdiff : base + ofNat 64 i + ofNat 64 l - (base + ofNat 64 j) =
      ofNat 64 (i + l) - ofNat 64 j := by
    rw [BitVec.add_assoc, ← BitVec.ofNat_add]
    bv_omega
  rw [hdiff, BitVec.toNat_sub, toNat_ofNat, toNat_ofNat]
  omega

theorem Apart.symm (h : Apart a n b k) (hk : k ≤ 2 ^ 64) : Apart b k a n := by
  intro j hj
  by_contra hlt
  have hi := h (b + ofNat 64 j - a).toNat (Nat.lt_of_not_le hlt)
  rw [BitVec.ofNat_toNat, BitVec.setWidth_eq, add_sub_cancel, add_sub_toNat (by omega)] at hi
  omega

theorem Apart.part (h : Apart b n a k) (hj : j + i ≤ k) : Apart b n (a + ofNat 64 j) i := by
  intro l hl
  have hfar := h l hl
  have hsub : b + ofNat 64 l - (a + ofNat 64 j) =
      b + ofNat 64 l - a - ofNat 64 j := sub_add_eq_sub_sub _ _ _
  have hlt := (b + ofNat 64 l - a).isLt
  rw [hsub, BitVec.toNat_sub, toNat_ofNat]
  omega

/-! ## Words -/

@[simp] theorem wordOf_wordBytes (x : U64) : wordOf (wordBytes x) = x := by
  have hbytes : (wordBytes x).map BitVec.toNat =
      (List.range 8).map fun i => x.toNat / 256 ^ i % 256 := by
    unfold wordBytes
    rw [List.map_map]
    refine List.map_congr_left ?_
    intro i _
    exact toNat_ofNat _ _
  apply BitVec.eq_of_toNat_eq
  unfold wordOf
  rw [hbytes, ofDigits_range, toNat_ofNat, Nat.mod_eq_of_lt (b := 256 ^ 8) x.isLt,
    Nat.mod_eq_of_lt x.isLt]

theorem loadWord_storeWord (x : U64) : (m.storeWord a x).loadWord a = x := by
  unfold loadWord storeWord
  rw [show (8 : ℕ) = (wordBytes x).length from rfl, load_store (by simp), wordOf_wordBytes]

theorem load_storeWord_of_apart {x : U64} (h : Apart b n a 8) :
    (m.storeWord a x).load b n = m.load b n := load_store_of_apart h

theorem loadWord_storeWord_of_apart {x : U64} (h : Apart b 8 a 8) :
    (m.storeWord a x).loadWord b = m.loadWord b := by
  unfold loadWord storeWord
  rw [load_store_of_apart h]

theorem loadWord_storeWords_of_apart {words : List (ℕ × U64)}
    (h : ∀ w ∈ words, Apart b 8 (base + ofNat 64 w.1) 8) :
    (m.storeWords base words).loadWord b = m.loadWord b := by
  induction words generalizing m with
  | nil => rfl
  | cons w words ih =>
    show ((m.storeWord _ w.2).storeWords base words).loadWord b = _
    rw [ih (fun v hv => h v (List.mem_cons_of_mem _ hv)),
      loadWord_storeWord_of_apart (h w List.mem_cons_self)]

/-- Words at different places of a record, read back. -/
theorem loadWord_storeWords {words : List (ℕ × U64)} {w : ℕ × U64} (hw : w ∈ words)
    (hrange : ∀ v ∈ words, v.1 + 8 ≤ 2 ^ 64)
    (hplaces : words.Pairwise fun v w => v.1 + 8 ≤ w.1 ∨ w.1 + 8 ≤ v.1) :
    (m.storeWords base words).loadWord (base + ofNat 64 w.1) = w.2 := by
  induction words generalizing m with
  | nil => cases hw
  | cons v words ih =>
    have hrest := List.pairwise_cons.mp hplaces
    show ((m.storeWord _ v.2).storeWords base words).loadWord _ = _
    rcases List.mem_cons.mp hw with rfl | hw
    · rw [loadWord_storeWords_of_apart, loadWord_storeWord]
      intro u hu
      exact apart_of_offsets (hrange w List.mem_cons_self) (hrange u (List.mem_cons_of_mem _ hu))
        (hrest.1 u hu)
    · exact ih hw (fun u hu => hrange u (List.mem_cons_of_mem _ hu)) hrest.2

/-! ## Parts -/

/-- The bytes of several parts, one behind the other. -/
def gather (m : ByteMemory) (parts : List (U64 × ℕ)) : List (BitVec 8) :=
  parts.flatMap fun p => m.load p.1 p.2

/-- Bytes are distributed to parts, to each as many as it takes. -/
def scatter (m : ByteMemory) : List (U64 × ℕ) → List (BitVec 8) → ByteMemory
  | [], _ => m
  | p :: parts, bytes => (m.store p.1 (bytes.take p.2)).scatter parts (bytes.drop p.2)

variable {p : U64 × ℕ} {parts : List (U64 × ℕ)}

@[simp] theorem store_nil : m.store a [] = m := rfl

@[simp] theorem scatter_nil (m : ByteMemory) (parts : List (U64 × ℕ)) : m.scatter parts [] = m := by
  induction parts generalizing m with
  | nil => rfl
  | cons p parts ih => simp [scatter, ih]

@[simp] theorem length_gather : (m.gather parts).length = (parts.map Prod.snd).sum := by
  simp [gather, List.length_flatMap]

/-- Fewer bytes are stored than are loaded. -/
theorem load_store_prefix (hlen : bytes.length ≤ n) (hn : n ≤ 2 ^ 64) :
    (m.store a bytes).load a n = bytes ++ (m.load a n).drop bytes.length := by
  refine List.ext_getElem (by simp; omega) ?_
  intro i hi hi'
  rw [length_load] at hi
  rw [getElem_load]
  by_cases hin : i < bytes.length
  · rw [store_at hin (by omega), List.getElem_append_left hin]
  · rw [List.getElem_append_right (by omega), List.getElem_drop, getElem_load]
    unfold store
    rw [add_sub_toNat (by omega), if_neg hin, Nat.add_sub_cancel' (by omega)]

theorem Apart.mono (h : Apart b n a k) (hj : j ≤ k) : Apart b n a j := fun i hi => hj.trans (h i hi)

theorem load_scatter_of_apart (h : ∀ p ∈ parts, Apart b n p.1 p.2) :
    (m.scatter parts bytes).load b n = m.load b n := by
  induction parts generalizing m bytes with
  | nil => rfl
  | cons p parts ih =>
    show ((m.store p.1 _).scatter parts _).load b n = _
    rw [ih (fun q hq => h q (List.mem_cons_of_mem _ hq)), load_store_of_apart]
    exact (h p List.mem_cons_self).mono (by simp)

/-- The bytes stand in the parts, and behind them is what was there. -/
theorem gather_scatter (hlen : bytes.length ≤ (parts.map Prod.snd).sum)
    (hparts : ∀ p ∈ parts, p.2 ≤ 2 ^ 64)
    (hapart : parts.Pairwise fun p q => Apart p.1 p.2 q.1 q.2) :
    (m.scatter parts bytes).gather parts = bytes ++ (m.gather parts).drop bytes.length := by
  induction parts generalizing m bytes with
  | nil =>
    have hnil : bytes = [] := List.length_eq_zero_iff.mp (Nat.le_zero.mp hlen)
    subst hnil
    rfl
  | cons p parts ih =>
    have hrest := List.pairwise_cons.mp hapart
    have hp := hparts p List.mem_cons_self
    have hlen' : bytes.length ≤ p.2 + (parts.map Prod.snd).sum := by simpa using hlen
    have hkept : (m.store p.1 (bytes.take p.2)).gather parts = m.gather parts := by
      refine List.flatMap_congr ?_
      intro q hq
      refine load_store_of_apart (((hrest.1 q hq).symm ?_).mono (by simp))
      exact hparts q (List.mem_cons_of_mem _ hq)
    show ((m.store p.1 (bytes.take p.2)).scatter parts (bytes.drop p.2)).load p.1 p.2 ++
      ((m.store p.1 (bytes.take p.2)).scatter parts (bytes.drop p.2)).gather parts =
        bytes ++ (m.load p.1 p.2 ++ m.gather parts).drop bytes.length
    rw [load_scatter_of_apart hrest.1, ih (by simp; omega)
      (fun q hq => hparts q (List.mem_cons_of_mem _ hq)) hrest.2, hkept,
      load_store_prefix (by simp) hp, List.drop_append, length_load]
    by_cases hshort : bytes.length ≤ p.2
    · rw [List.take_of_length_le hshort, List.drop_eq_nil_of_le hshort,
        Nat.sub_eq_zero_of_le hshort]
      simp
    · have hlong : p.2 ≤ bytes.length := by omega
      have hnone : ∀ l, p.2 ≤ l → (m.load p.1 p.2).drop l = [] := fun l hl =>
        List.drop_eq_nil_of_le (by simpa using hl)
      rw [List.length_take, Nat.min_eq_left hlong, hnone _ (Nat.le_refl _), hnone _ hlong,
        List.length_drop, List.append_nil, List.nil_append, ← List.append_assoc,
        List.take_append_drop]

end ByteMemory

end Fishix
