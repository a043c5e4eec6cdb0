import Fishix.Common.Word

/-!
# `klib::HashTable`

Model of `klib/hashtable.hpp` lines 7-85: a list of entries for each bucket, new entries in front.
The keys are of a type that `operator []` compares with `==`, as `remove` does: for `const char *`
it uses `strcmp` instead (lines 46-52).

* `find_emplace`, `find_remove`: the table is a map, as long as no key is added twice.
* `finds_last`: in every sequence of calls, a key that is added again hides what it had before.
-/

namespace Fishix

/-- `klib::HashTable<K, V>`. -/
structure HashTable (κ ν : Type) where
  table : List (List (κ × ν))

namespace HashTable

variable {κ ν : Type} {hash : κ → U64} {t : HashTable κ ν} {key : κ} {value : ν}

/-- The constructor (klib/hashtable.hpp:29-33). -/
def create (tableSize : ℕ) : HashTable κ ν := ⟨List.replicate tableSize []⟩

/-- The number of `get_hash_bucket` (klib/hashtable.hpp:22-24). -/
def bucketIndex (hash : κ → U64) (t : HashTable κ ν) (key : κ) : ℕ :=
  (hash key).toNat % t.table.length

section Find

variable [DecidableEq κ]

/-- `operator []` (klib/hashtable.hpp:42-55). -/
def find (hash : κ → U64) (t : HashTable κ ν) (key : κ) : Option ν :=
  ((t.table.getD (t.bucketIndex hash key) []).find? (·.1 = key)).map Prod.snd

/-- `emplace` (klib/hashtable.hpp:57-64). -/
def emplace (hash : κ → U64) (t : HashTable κ ν) (key : κ) (value : ν) : HashTable κ ν :=
  ⟨t.table.modify (t.bucketIndex hash key) ((key, value) :: ·)⟩

/-- `remove` (klib/hashtable.hpp:66-77). -/
def remove (hash : κ → U64) (t : HashTable κ ν) (key : κ) : HashTable κ ν :=
  ⟨t.table.modify (t.bucketIndex hash key) (·.eraseP (·.1 = key))⟩

end Find

/-- There are buckets, and no key stands twice in one. -/
structure Valid (t : HashTable κ ν) : Prop where
  pos : 0 < t.table.length
  nodup : ∀ b ∈ t.table, (b.map Prod.fst).Nodup

theorem valid_create {tableSize : ℕ} (h : 0 < tableSize) :
    (create tableSize : HashTable κ ν).Valid := by
  refine ⟨by simpa [create] using h, ?_⟩
  intro b hb
  rw [List.eq_of_mem_replicate hb]
  simp

@[simp] theorem find_create [DecidableEq κ] (tableSize : ℕ) :
    (create tableSize : HashTable κ ν).find hash key = none := by
  unfold find create bucketIndex
  simp [List.getD_eq_getElem?_getD, List.getElem?_replicate]
  split <;> simp

theorem bucketIndex_lt (h : 0 < t.table.length) : t.bucketIndex hash key < t.table.length :=
  Nat.mod_lt _ h

/-- A bucket after one has been modified. -/
theorem getD_modify {b i : ℕ} {f : List (κ × ν) → List (κ × ν)} (h : i < t.table.length) :
    (t.table.modify i f).getD b [] = if b = i then f (t.table.getD b []) else t.table.getD b [] := by
  rw [List.getD_eq_getElem?_getD, List.getElem?_modify, List.getD_eq_getElem?_getD]
  by_cases hb : b = i
  · subst hb
    simp [h]
  · simp [hb, Ne.symm hb]

/-- A bucket is changed: all others are as they were. -/
theorem Valid.modify (h : t.Valid) {i : ℕ} {f : List (κ × ν) → List (κ × ν)}
    (hf : ∀ b ∈ t.table[i]?, ((f b).map Prod.fst).Nodup) :
    (⟨t.table.modify i f⟩ : HashTable κ ν).Valid := by
  refine ⟨by simpa using h.pos, ?_⟩
  intro b hb
  obtain ⟨j, hj⟩ := List.mem_iff_getElem?.mp hb
  rw [List.getElem?_modify] at hj
  obtain ⟨b0, hb0, hfb⟩ := Option.map_eq_some_iff.mp hj
  by_cases hij : i = j
  · subst hij
    rw [if_pos rfl] at hfb
    rw [← hfb]
    exact hf b0 hb0
  · rw [if_neg hij] at hfb
    rw [← hfb]
    exact h.nodup b0 (List.mem_of_getElem? hb0)

/-! ## One call -/

section Find

variable [DecidableEq κ]

/-- A call that changes a table. -/
inductive TableCall (κ ν : Type)
  | emplace (key : κ) (value : ν)
  | remove (key : κ)

def call (hash : κ → U64) (t : HashTable κ ν) : TableCall κ ν → HashTable κ ν
  | .emplace key value => t.emplace hash key value
  | .remove key => t.remove hash key

/-- What is left of the values of every key, the last one in front. -/
def stack (s : κ → List ν) : TableCall κ ν → κ → List ν
  | .emplace key value => Function.update s key (value :: s key)
  | .remove key => Function.update s key (s key).tail

/-- The values in the entries of a key. -/
def values (hash : κ → U64) (t : HashTable κ ν) (key : κ) : List ν :=
  ((t.table.getD (t.bucketIndex hash key) []).filter (·.1 = key)).map Prod.snd

theorem find_eq_head? (key : κ) : t.find hash key = (t.values hash key).head? := by
  unfold find values
  rw [List.head?_map, List.head?_filter]

theorem filter_eraseP (b : List (κ × ν)) (key key' : κ) :
    (b.eraseP (·.1 = key)).filter (·.1 = key') =
      if key' = key then (b.filter (·.1 = key')).tail else b.filter (·.1 = key') := by
  induction b with
  | nil => simp
  | cons x b ih =>
    by_cases hx : x.1 = key
    · rw [List.eraseP_cons_of_pos (by simpa using hx), List.filter_cons]
      by_cases hkey : key' = key
      · simp [hx, hkey]
      · simp [hx, hkey, Ne.symm hkey]
    · rw [List.eraseP_cons_of_neg (by simpa using hx), List.filter_cons, ih, List.filter_cons]
      by_cases hkey : key' = key
      · simp [hx, hkey]
      · simp [hkey]

theorem values_call (h : 0 < t.table.length) (c : TableCall κ ν) :
    (t.call hash c).values hash = stack (t.values hash) c := by
  funext key'
  cases c with
  | emplace key value =>
    have hindex : (t.emplace hash key value).bucketIndex hash key' = t.bucketIndex hash key' := by
      simp [bucketIndex, emplace]
    show (((t.table.modify _ _).getD ((t.emplace hash key value).bucketIndex hash key') []).filter
      _).map Prod.snd = _
    rw [hindex, getD_modify (bucketIndex_lt h), stack]
    by_cases hkey : key' = key
    · simp [hkey, values]
    · split_ifs <;> simp [hkey, Ne.symm hkey, values]
  | remove key =>
    have hindex : (t.remove hash key).bucketIndex hash key' = t.bucketIndex hash key' := by
      simp [bucketIndex, remove]
    show (((t.table.modify _ _).getD ((t.remove hash key).bucketIndex hash key') []).filter
      _).map Prod.snd = _
    rw [hindex, getD_modify (bucketIndex_lt h), stack]
    by_cases hkey : key' = key
    · simp [hkey, values, filter_eraseP]
    · split_ifs <;> simp [hkey, values, filter_eraseP]

theorem find_emplace (h : 0 < t.table.length) (key' : κ) :
    (t.emplace hash key value).find hash key' =
      if key' = key then some value else t.find hash key' := by
  rw [find_eq_head?, find_eq_head?, show (t.emplace hash key value).values hash = _ from
    values_call h (.emplace key value), stack]
  by_cases hkey : key' = key
  · simp [hkey]
  · simp [hkey]

theorem find_remove (h : t.Valid) (key' : κ) :
    (t.remove hash key).find hash key' = if key' = key then none else t.find hash key' := by
  rw [find_eq_head?, find_eq_head?, show (t.remove hash key).values hash = _ from
    values_call h.pos (.remove key), stack]
  by_cases hkey : key' = key
  · subst hkey
    rw [Function.update_self, if_pos rfl, List.head?_eq_none_iff, ← List.length_eq_zero_iff,
      List.length_tail]
    have hlt : t.bucketIndex hash key' < t.table.length := bucketIndex_lt h.pos
    have hone := List.nodup_iff_count_le_one.mp (h.nodup _ (List.getElem_mem hlt)) key'
    rw [List.count_eq_countP, List.countP_map, List.countP_eq_length_filter] at hone
    unfold values
    rw [List.getD_eq_getElem _ _ hlt, List.length_map]
    exact Nat.sub_eq_zero_of_le (by simpa [Function.comp_def, beq_eq_decide] using hone)
  · simp [hkey]

theorem Valid.emplace (h : t.Valid) (hkey : t.find hash key = none) :
    (t.emplace hash key value).Valid := by
  apply h.modify
  intro b hb
  have hb' : b ∈ t.table := List.mem_of_getElem? hb
  rw [List.map_cons, List.nodup_cons]
  refine ⟨?_, h.nodup b hb'⟩
  intro hmem
  obtain ⟨x, hx, hxkey⟩ := List.mem_map.mp hmem
  unfold find at hkey
  rw [List.getD_eq_getElem?_getD, hb, Option.map_eq_none_iff, Option.getD_some,
    List.find?_eq_none] at hkey
  exact hkey x hx (by simpa using hxkey)

theorem Valid.remove (h : t.Valid) : (t.remove hash key).Valid := by
  apply h.modify
  intro b hb
  exact (h.nodup b (List.mem_of_getElem? hb)).sublist ((List.eraseP_sublist).map Prod.fst)

/-! ## Sequences of calls -/

/-- **Main theorem.** After every sequence of calls, whatever the hash function, a key is found
    with the last value added that has not been removed. -/
theorem finds_last {tableSize : ℕ} (hsize : 0 < tableSize) (hash : κ → U64)
    (calls : List (TableCall κ ν)) (key : κ) :
    (calls.foldl (call hash) (create tableSize)).find hash key =
      (calls.foldl stack (fun _ => []) key).head? := by
  have hrun : ∀ t : HashTable κ ν, 0 < t.table.length →
      (calls.foldl (call hash) t).values hash = calls.foldl stack (t.values hash) := by
    induction calls with
    | nil => exact fun _ _ => rfl
    | cons c calls ih =>
      intro t h
      rw [List.foldl_cons, ih _ (by cases c <;> simpa [call, emplace, remove] using h),
        values_call h, List.foldl_cons]
  have hstart : (create tableSize : HashTable κ ν).values hash = fun _ => [] := by
    funext key
    simp [values, create, bucketIndex, List.getD_eq_getElem?_getD, Nat.mod_lt _ hsize]
  rw [find_eq_head?, hrun _ (by simpa [create] using hsize), hstart]

/-- A key that is added twice and removed once. -/
theorem finds_last_twice : ([.emplace 1 2, .emplace 1 3, .remove 1].foldl (call fun _ : ℕ => 0)
    (create 1)).find (fun _ => 0) 1 =
      ([.emplace 1 2, .emplace 1 3, .remove 1].foldl stack (fun _ => []) 1).head? :=
  finds_last Nat.one_pos _ _ _

end Find

end HashTable

end Fishix
