import Fishix.Dev.UsbKeyboard

/-!
# The values of the fields of a report

`Device::event` takes the value of a field from the byte that the field begins in
(dev/input/usbhid.cpp:234-256). The mask of a single bit is shifted by the offset in the report and
not by the one in the byte, so that it meets the byte for one byte out of four.

* `Report.fieldValue`: what a field of a report is.
* `value_one`, `value_eight`, `value_sixteen`, `value_unaligned`: what `event` takes it for.
* `getElem?_fields`: the fields that `event` comes to.
* `valuesRight_iff`: all lists of fields, and all reports that contain them.
-/

namespace Fishix.Dev.Usbhid

open BitVec (ofNat toNat_ofNat)

/-! ## The bits of a report -/

/-- The value of the field of `size` bits at `offset`: a single bit, or a two's complement. -/
def Report.fieldValue (r : Report) (offset size : ℕ) : ℤ :=
  if size = 1 then (r.bit offset).toNat else (r.bits offset size).toInt

/-- The length of some fields. -/
def bitLength (items : List InputItem) : ℕ := (items.map (·.sizeBits.toNat)).sum

/-- A variable field of a size that has a value. -/
def IsVariable (item : InputItem) : Prop :=
  ¬item.isArray ∧ ¬item.isConstant ∧
    (item.sizeBits = 1#32 ∨ item.sizeBits = 8#32 ∨ item.sizeBits = 16#32)

instance (item : InputItem) : Decidable (IsVariable item) :=
  inferInstanceAs (Decidable (_ ∧ _ ∧ _))

/-- `event` comes to every variable field, and takes it for what it is. -/
def ValuesRight (r : Report) (items : List InputItem) : Prop :=
  ∀ before item behind, items = before ++ item :: behind → IsVariable item →
    ∃ value, (r.fields items 0#32)[before.length]? = some (item, value) ∧
      value.toInt = r.fieldValue (bitLength before) item.sizeBits.toNat

/-! ## What `event` takes a field for -/

section Value

variable {r : Report} {bitOffset sizeBits : U32}

namespace Report

theorem getLsbD_bits (r : Report) (offset size j : ℕ) :
    (r.bits offset size).getLsbD j = (decide (j < size) && r.bit (offset + j)) := by
  rw [bits, BitVec.getLsbD_ofFnLE]
  split_ifs with h
  · simp [h]
  · simp [h]

/-- The byte at an aligned offset. -/
theorem bits_eight {offset : ℕ} (haligned : offset % 8 = 0) :
    r.bits offset 8 = r.data (offset / 8) := by
  apply BitVec.eq_of_getLsbD_eq
  intro j hj
  rw [getLsbD_bits, bit, show (offset + j) / 8 = offset / 8 by omega,
    show (offset + j) % 8 = j by omega]
  simp [hj]

/-- The two bytes at an aligned offset. -/
theorem bits_sixteen {offset : ℕ} (haligned : offset % 8 = 0) :
    r.bits offset 16 = r.data (offset / 8 + 1) ++ r.data (offset / 8) := by
  apply BitVec.eq_of_getLsbD_eq
  intro j hj
  rw [getLsbD_bits, bit, BitVec.getLsbD_append]
  split_ifs with hlow
  · rw [show (offset + j) / 8 = offset / 8 by omega, show (offset + j) % 8 = j by omega]
    simp [hj]
  · rw [show (offset + j) / 8 = offset / 8 + 1 by omega, show (offset + j) % 8 = j - 8 by omega]
    simp [hj]

end Report

/-- A single bit is found where the offset is one in the first byte of a double word. -/
theorem value_one (h : bitOffset / 8#32 < r.length) :
    r.value bitOffset 1#32 =
      .ok (some (if bitOffset.toNat % 32 < 8 ∧ r.bit bitOffset.toNat then 1#32 else 0#32)) := by
  have hbit : (BitVec.setWidth 32 (r.data (bitOffset / 8#32).toNat) &&&
      1#32 <<< (bitOffset % 32#32) ≠ 0#32) ↔
      bitOffset.toNat % 32 < 8 ∧ r.bit bitOffset.toNat = true := by
    rw [BitVec.shiftLeft_eq', ← BitVec.twoPow_eq, BitVec.and_twoPow, BitVec.getLsbD_setWidth,
      Report.bit, BitVec.toNat_umod, BitVec.toNat_udiv]
    simp only [toNat_ofNat, Nat.reducePow, Nat.reduceMod]
    by_cases hlow : bitOffset.toNat % 32 < 8
    · rw [show bitOffset.toNat % 8 = bitOffset.toNat % 32 by omega]
      have hmask : BitVec.twoPow 32 (bitOffset.toNat % 32) ≠ 0#32 := by
        intro hzero
        have hset := congrArg (BitVec.getLsbD · (bitOffset.toNat % 32)) hzero
        simp only [BitVec.getLsbD_twoPow, BitVec.getLsbD_zero] at hset
        simp at hset
        omega
      have hlt : bitOffset.toNat % 32 < 32 := Nat.mod_lt _ (by decide)
      cases (r.data (bitOffset.toNat / 8)).getLsbD (bitOffset.toNat % 32) with
      | false => simp
      | true => simp [hlow, hlt, hmask]
    · have hhigh := BitVec.getLsbD_of_ge (r.data (bitOffset.toNat / 8)) (bitOffset.toNat % 32)
        (Nat.le_of_not_lt hlow)
      simp [hlow, hhigh]
  unfold Report.value
  simp only [ge_iff_le, if_neg (BitVec.not_le.mpr h), if_true, r.read_of_lt h, ok_bind, hbit]
  rfl

/-- A field that does not begin a byte and is not a single bit. -/
theorem value_unaligned (h : bitOffset / 8#32 < r.length) (hone : sizeBits ≠ 1#32)
    (hunaligned : bitOffset % 8#32 ≠ 0#32) : r.value bitOffset sizeBits = .ok (some 0#32) := by
  unfold Report.value
  simp only [ge_iff_le, if_neg (BitVec.not_le.mpr h), if_neg hone, if_neg hunaligned]
  rfl

theorem value_eight (h : bitOffset / 8#32 < r.length) (haligned : bitOffset % 8#32 = 0#32) :
    r.value bitOffset 8#32 = .ok (some ((r.bits bitOffset.toNat 8).signExtend 32)) := by
  have hoffset : bitOffset.toNat % 8 = 0 := congrArg BitVec.toNat haligned
  rw [Report.bits_eight hoffset]
  unfold Report.value
  simp only [ge_iff_le, if_neg (BitVec.not_le.mpr h), if_pos haligned, if_true, r.read_of_lt h,
    ok_bind]
  rfl

theorem value_sixteen (h : bitOffset / 8#32 + 1#32 < r.length) (h' : bitOffset / 8#32 < r.length)
    (haligned : bitOffset % 8#32 = 0#32) :
    r.value bitOffset 16#32 = .ok (some ((r.bits bitOffset.toNat 16).signExtend 32)) := by
  have hoffset : bitOffset.toNat % 8 = 0 := congrArg BitVec.toNat haligned
  have hnext : (bitOffset / 8#32 + 1#32).toNat = bitOffset.toNat / 8 + 1 := by
    have := bitOffset.isLt
    simp only [BitVec.toNat_add, BitVec.toNat_udiv, toNat_ofNat, Nat.reducePow,
      Nat.reduceMod]
    omega
  rw [Report.bits_sixteen hoffset, ← hnext]
  unfold Report.value
  simp only [ge_iff_le, if_neg (BitVec.not_le.mpr h), if_neg (BitVec.not_le.mpr h'),
    if_pos haligned, if_true, r.read_of_lt h, r.read_of_lt h', ok_bind]
  rfl

end Value

/-! ## The fields of a report that contains them -/

section Fits

variable {r : Report} {offset : ℕ} {sizeBits : U32}

theorem mod_eight_iff (offset : ℕ) : ofNat 32 offset % 8#32 = 0#32 ↔ offset % 8 = 0 := by
  rw [← BitVec.toNat_inj, BitVec.toNat_umod]
  simp only [toNat_ofNat, Nat.reducePow, Nat.reduceMod]
  omega

/-- A place in the report is one at its offset of 32 bits, too. -/
theorem byte_lt (h : offset < 8 * r.length.toNat) : ofNat 32 offset / 8#32 < r.length := by
  rw [BitVec.lt_def, BitVec.toNat_udiv]
  simp only [toNat_ofNat, Nat.reducePow, Nat.reduceMod]
  omega

theorem next_byte_lt (h : offset + 16 ≤ 8 * r.length.toNat) :
    ofNat 32 offset / 8#32 + 1#32 < r.length := by
  have := r.length.isLt
  rw [BitVec.lt_def, BitVec.toNat_add, BitVec.toNat_udiv]
  simp only [toNat_ofNat, Nat.reducePow, Nat.reduceMod]
  omega

/-- `event` goes on behind a field that it can read. -/
theorem value_some_iff (h : offset + sizeBits.toNat ≤ 8 * r.length.toNat)
    (hlt : offset < 8 * r.length.toNat) :
    (∃ value, r.value (ofNat 32 offset) sizeBits = .ok (some value)) ↔
      Readable (ofNat 32 offset) sizeBits := by
  have hbyte := byte_lt hlt
  rcases r.value_cases (ofNat 32 offset) sizeBits with
    ⟨hle, -⟩ | ⟨hread, hsome | ⟨-, hnone⟩⟩ | ⟨-, hnot, herror⟩
  · exact absurd hbyte (BitVec.not_lt.mpr hle)
  · exact ⟨fun _ => hread, fun _ => hsome⟩
  · refine ⟨fun _ => hread, fun _ => ?_⟩
    by_cases haligned : ofNat 32 offset % 8#32 = 0#32
    · rcases hread haligned with rfl | rfl | rfl
      · exact ⟨_, value_one hbyte⟩
      · exact ⟨_, value_eight hbyte haligned⟩
      · exact ⟨_, value_sixteen (next_byte_lt h) hbyte haligned⟩
    · by_cases hone : sizeBits = 1#32
      · subst hone
        exact ⟨_, value_one hbyte⟩
      · exact ⟨_, value_unaligned hbyte hone haligned⟩
  · constructor
    · rintro ⟨value, hvalue⟩
      rw [herror] at hvalue
      cases hvalue
    · exact fun hread => absurd hread hnot

/-- The field is in the report where `event` looks for it: a single bit that is set is at an offset
    whose remainder by 32 is below 8, and any other field begins a byte or is zero. The offset of 32
    bits is another one only for a report of `2 ^ 29` bytes or more. -/
def FieldRight (r : Report) (offset size : ℕ) : Prop :=
  if size = 1 then r.bit offset = true ↔ offset % 32 < 8 ∧ r.bit (offset % 2 ^ 32) = true
  else if offset % 8 = 0 then r.bits (offset % 2 ^ 32) size = r.bits offset size
  else r.bits offset size = 0

theorem exists_value_iff {x : Except Stop (Option U32)} {v : U32} {P : U32 → Prop}
    (h : x = .ok (some v)) : (∃ value, x = .ok (some value) ∧ P value) ↔ P v := by
  constructor
  · rintro ⟨value, hvalue, hP⟩
    cases h.symm.trans hvalue
    exact hP
  · exact fun hP => ⟨v, h, hP⟩

/-- A two's complement is that of the bits. -/
theorem toInt_signExtend_inj {size : ℕ} (hsize : size ≤ 32) {x y : BitVec size} :
    (x.signExtend 32).toInt = y.toInt ↔ x = y := by
  rw [BitVec.toInt_signExtend_of_le hsize, BitVec.toInt_inj]

theorem value_right_iff (h : offset + sizeBits.toNat ≤ 8 * r.length.toNat)
    (hsize : sizeBits = 1#32 ∨ sizeBits = 8#32 ∨ sizeBits = 16#32) :
    (∃ value, r.value (ofNat 32 offset) sizeBits = .ok (some value) ∧
      value.toInt = r.fieldValue offset sizeBits.toNat) ↔ FieldRight r offset sizeBits.toNat := by
  have hlt : offset < 8 * r.length.toNat := by
    rcases hsize with rfl | rfl | rfl
    all_goals
      simp only [toNat_ofNat, Nat.reducePow, Nat.reduceMod] at h
      omega
  have hbyte := byte_lt hlt
  have hwrapped : (ofNat 32 offset).toNat = offset % 2 ^ 32 := toNat_ofNat _ _
  have halign := mod_eight_iff offset
  unfold FieldRight Report.fieldValue
  rcases hsize with rfl | hsize
  · rw [exists_value_iff (value_one hbyte), hwrapped,
      show offset % 2 ^ 32 % 32 = offset % 32 by omega]
    simp only [toNat_ofNat, Nat.reducePow, Nat.reduceMod, if_true]
    cases r.bit offset with
    | false => split_ifs with hset <;> simp [hset]
    | true => split_ifs with hset <;> simp [hset]
  -- a field of one byte or two: its bits, if it begins a byte, and zero otherwise
  by_cases haligned : offset % 8 = 0
  · rcases hsize with rfl | rfl
    · rw [exists_value_iff (value_eight hbyte (halign.mpr haligned)), hwrapped]
      simp only [toNat_ofNat, Nat.reducePow, Nat.reduceMod, haligned, if_true,
        OfNat.ofNat_ne_one, if_false]
      exact toInt_signExtend_inj (by decide)
    · rw [exists_value_iff (value_sixteen (next_byte_lt h) hbyte (halign.mpr haligned)), hwrapped]
      simp only [toNat_ofNat, Nat.reducePow, Nat.reduceMod, haligned, if_true,
        OfNat.ofNat_ne_one, if_false]
      exact toInt_signExtend_inj (by decide)
  · have hone : sizeBits ≠ 1#32 := by
      rcases hsize with rfl | rfl <;> decide
    have hone' : sizeBits.toNat ≠ 1 := fun hsize => hone (BitVec.eq_of_toNat_eq hsize)
    have hzero : (0 : BitVec sizeBits.toNat).toInt = 0 := BitVec.toInt_zero
    rw [exists_value_iff (value_unaligned hbyte hone (mt halign.mp haligned)), if_neg hone',
      if_neg hone', if_neg haligned, ← BitVec.toInt_inj, BitVec.toInt_zero, hzero]
    exact eq_comm

end Fits

section Fields

variable {r : Report} {item : InputItem} {before behind items : List InputItem} {value : U32}

/-- `event` goes on behind all of these fields. -/
def Passes (r : Report) : List InputItem → (bitOffset : U32) → Prop
  | [], _ => True
  | item :: rest, bitOffset =>
    (∃ value, r.value bitOffset item.sizeBits = .ok (some value)) ∧
      Passes r rest (bitOffset + item.sizeBits)

theorem ofNat_add_sizeBits (offset : ℕ) (first : InputItem) :
    ofNat 32 offset + first.sizeBits =
      ofNat 32 (offset + first.sizeBits.toNat) := by
  rw [BitVec.ofNat_add, BitVec.ofNat_toNat, BitVec.setWidth_eq]

theorem add_bitLength_cons (offset : ℕ) (first : InputItem) (rest : List InputItem) :
    offset + bitLength (first :: rest) = offset + first.sizeBits.toNat + bitLength rest :=
  (Nat.add_assoc _ _ _).symm

/-- The field behind some others has a value if `event` goes on to it. -/
theorem getElem?_fields (offset : ℕ) :
    (r.fields (before ++ item :: behind) (ofNat 32 offset))[before.length]? =
        some (item, value) ↔
      Passes r before (ofNat 32 offset) ∧
        r.value (ofNat 32 (offset + bitLength before)) item.sizeBits =
          .ok (some value) := by
  induction before generalizing offset with
  | nil =>
    unfold Passes
    rw [true_and]
    show (r.fields (item :: behind) _)[0]? = _ ↔ r.value (ofNat 32 (offset + 0)) _ = _
    rw [Report.fields, Nat.add_zero]
    cases r.value (ofNat 32 offset) item.sizeBits with
    | error e => simp
    | ok v =>
      cases v with
      | none => simp
      | some v => simp
  | cons first rest ih =>
    have hnext := ofNat_add_sizeBits offset first
    have hlength := add_bitLength_cons offset first rest
    have ih := ih (offset + first.sizeBits.toNat)
    rw [List.cons_append, Report.fields, List.length_cons, Passes, hlength]
    cases r.value (ofNat 32 offset) first.sizeBits with
    | error e => simp
    | ok v =>
      cases v with
      | none => simp
      | some v =>
        simp only [List.getElem?_cons_succ, hnext, ih]
        simp

/-- It goes on to a field in the report if it can read the ones in front. -/
theorem passes_iff {offset : ℕ} (h : offset + bitLength before < 8 * r.length.toNat) :
    Passes r before (ofNat 32 offset) ↔
      ByteFields (before.map (·.sizeBits)) (ofNat 32 offset) := by
  induction before generalizing offset with
  | nil => exact Iff.rfl
  | cons first rest ih =>
    have hnext := ofNat_add_sizeBits offset first
    have hlength := add_bitLength_cons offset first rest
    rw [List.map_cons, Passes, ByteFields, hnext, ih (by omega),
      value_some_iff (by omega) (by omega)]

theorem bitLength_append (before behind : List InputItem) :
    bitLength (before ++ behind) = bitLength before + bitLength behind := by
  rw [bitLength, List.map_append, List.sum_append]
  rfl

/-- **Variable fields.** `event` takes every variable field of a report for what it is iff it can
    read the fields in front of it, and a single bit that is set is in one of the bytes that its
    mask meets. -/
theorem valuesRight_iff (h : bitLength items ≤ 8 * r.length.toNat) :
    ValuesRight r items ↔ ∀ before item behind, items = before ++ item :: behind →
      IsVariable item → ByteFields (before.map (·.sizeBits)) 0#32 ∧
        FieldRight r (bitLength before) item.sizeBits.toNat := by
  unfold ValuesRight
  refine forall_congr' fun before => forall_congr' fun item => forall_congr' fun behind =>
    forall_congr' fun hitems => forall_congr' fun hvariable => ?_
  have hsize := hvariable.2.2
  have hfits : bitLength before + item.sizeBits.toNat ≤ 8 * r.length.toNat := by
    rw [hitems, bitLength_append, bitLength, bitLength, List.map_cons, List.sum_cons] at h
    unfold bitLength
    omega
  have hpositive : 0 < item.sizeBits.toNat := by
    rcases hsize with hsize | hsize | hsize <;> rw [hsize] <;> decide
  have hpasses := @passes_iff r before 0 (by omega)
  have hright := value_right_iff hfits hsize
  have hfield := fun value => @getElem?_fields r item before behind value 0
  rw [Nat.zero_add] at hfield
  rw [hitems]
  constructor
  · rintro ⟨value, hget, hvalue⟩
    obtain ⟨hbefore, hitem⟩ := (hfield value).mp hget
    exact ⟨hpasses.mp hbefore, hright.mp ⟨value, hitem, hvalue⟩⟩
  · rintro ⟨hbytes, hbits⟩
    obtain ⟨value, hitem, hvalue⟩ := hright.mpr hbits
    exact ⟨value, (hfield value).mpr ⟨hpasses.mpr hbytes, hitem⟩, hvalue⟩

/-- A movement of a byte. -/
theorem valuesRight_movement :
    ValuesRight { data := fun _ => 0x85#8, length := 1#32 }
      [{ sizeBits := 8#32, type := EV_REL, code := REL_X }] := by
  refine (valuesRight_iff (by decide)).mpr ?_
  intro before item behind hitems _
  obtain ⟨rfl, hitem⟩ | ⟨-, hnil⟩ := List.append_eq_singleton_iff.mp hitems.symm
  · obtain ⟨rfl, rfl⟩ := List.cons.inj hitem
    exact ⟨trivial, rfl⟩
  · cases hnil

end Fields

deriving instance DecidableEq for InputItem

/-- The descriptor of two coordinates, and one button behind them. -/
def buttonDescriptor (i : ℕ) : U8 :=
  [0x05#8, 0x01#8, 0x09#8, 0x30#8, 0x09#8, 0x31#8, 0x75#8, 0x08#8, 0x95#8, 0x02#8, 0x81#8, 0x06#8,
   0x05#8, 0x09#8, 0x09#8, 0x01#8, 0x75#8, 0x01#8, 0x95#8, 0x01#8, 0x81#8, 0x02#8].getD i 0#8

/-- The button is never seen: its bit is at an offset of 16. -/
theorem button_unseen : ¬ ∀ (m : ℕ → U8) (length : U16) (fuel : ℕ) (d : Device),
    ({} : Device).parseReportDescriptor m length fuel = some d → d.reportProtocolUsable = true →
    ∀ r : Report, bitLength d.inputItems ≤ 8 * r.length.toNat → ValuesRight r d.inputItems := by
  intro hall
  have hparse : (({} : Device).parseReportDescriptor buttonDescriptor 22#16 23).map
      (fun d => (d.reportProtocolUsable, d.inputItems)) =
      some (true, [{ sizeBits := 8#32, type := EV_REL, code := REL_X },
        { sizeBits := 8#32, type := EV_REL, code := REL_Y },
        { sizeBits := 1#32, type := EV_KEY, code := BTN_LEFT }]) := by decide +kernel
  obtain ⟨d, h, hd⟩ := Option.map_eq_some_iff.mp hparse
  obtain ⟨husable, hitems⟩ := Prod.mk.inj hd
  have hright := hall _ _ _ _ h husable { data := fun _ => 1#8, length := 3#32 }
    (by rw [hitems]; decide)
  obtain ⟨value, hget, hvalue⟩ := hright [_, _] _ [] hitems (by decide)
  have hunseen : (Report.fields { data := fun _ => 1#8, length := 3#32 } d.inputItems 0#32)[2]?.map
      (·.2) = some 0#32 := by
    rw [hitems]
    decide +kernel
  rw [show List.length [_, _] = 2 from rfl] at hget
  rw [hget] at hunseen
  cases hunseen
  exact absurd hvalue (by decide)

end Fishix.Dev.Usbhid
