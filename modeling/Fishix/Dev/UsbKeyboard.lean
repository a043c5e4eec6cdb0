import Fishix.Dev.Usbhid

/-!
# The keys of a USB keyboard

`Device::event` compares every slot of the array of keys with what the same slot held before
(dev/input/usbhid.cpp:258-270). A key that has moved to another slot is released, and the usage
that stands for no key is pressed and released as if it were one.

What a report lists is read off its bits here. `event` takes a slot of eight or sixteen bits for a
signed number, and one that does not begin a byte for zero.

* `Follows`: the keys and the events that a report should lead to.
* `foldl_straight_iff`: what the buttons of a key do to it.
* `Tracks.follows`, `Follows.tracks`: one report.
* `keyArray_follows`: every run of reports.
-/

namespace Fishix.Dev.Usbhid

/-! ## What a report says -/

/-- A bit of a report, the first one being the lowest of the first byte. -/
def Report.bit (r : Report) (n : ℕ) : Bool := (r.data (n / 8)).getLsbD (n % 8)

/-- The `size` bits from `offset` on. -/
def Report.bits (r : Report) (offset size : ℕ) : BitVec size :=
  BitVec.ofFnLE fun j : Fin size => r.bit (offset + j)

/-- The slots that lie in the report, the first item being at `offset`, with their numbers. -/
def Report.slots (r : Report) : List InputItem → (offset : ℕ) → List (InputItem × ℕ)
  | [], _ => []
  | item :: rest, offset =>
    let behind := offset + item.sizeBits.toNat
    if item.isArray ∧ behind ≤ 8 * r.length.toNat then
      (item, (r.bits offset item.sizeBits.toNat).toNat) :: r.slots rest behind
    else r.slots rest behind

/-- A number other than 0 stands for the usage that is as far from the first one. -/
def Holds (slot : InputItem × ℕ) (keycode : U16) : Prop :=
  slot.2 ≠ 0 ∧ slot.1.usageMin.toNat + slot.2 ≤ slot.1.usageMax.toNat ∧
    KeyboardPage (slot.1.usageMin + BitVec.ofNat 32 slot.2) ∧
    keycodeOf (slot.1.usageMin + BitVec.ofNat 32 slot.2) = keycode

instance (slot : InputItem × ℕ) (keycode : U16) : Decidable (Holds slot keycode) :=
  inferInstanceAs (Decidable (_ ∧ _ ∧ _ ∧ _))

/-- The report lists the key in a slot. -/
def Listed (r : Report) (items : List InputItem) (keycode : U16) : Prop :=
  ∃ slot ∈ r.slots items 0, Holds slot keycode

instance (r : Report) (items : List InputItem) (keycode : U16) :
    Decidable (Listed r items keycode) := inferInstanceAs (Decidable (∃ _ ∈ _, _))

/-- The fields that `event` comes to, with what it takes them for: up to the first behind the
    report. -/
def Report.fields (r : Report) : List InputItem → (bitOffset : U32) → List (InputItem × U32)
  | [], _ => []
  | item :: rest, bitOffset =>
    match r.value bitOffset item.sizeBits with
    | .ok (some value) => (item, value) :: r.fields rest (bitOffset + item.sizeBits)
    | _ => []

/-- All of these fields are of a size that `event` reads. -/
def Report.Reads (r : Report) : List InputItem → (bitOffset : U32) → Prop
  | [], _ => True
  | item :: rest, bitOffset =>
    match r.value bitOffset item.sizeBits with
    | .ok (some _) => r.Reads rest (bitOffset + item.sizeBits)
    | .ok none => True
    | .error _ => False

instance (r : Report) : ∀ items bitOffset, Decidable (r.Reads items bitOffset)
  | [], _ => .isTrue trivial
  | item :: rest, bitOffset =>
    show Decidable (match r.value bitOffset item.sizeBits with
      | .ok (some _) => r.Reads rest (bitOffset + item.sizeBits)
      | .ok none => True
      | .error _ => False) from
    match r.value bitOffset item.sizeBits with
    | .ok (some _) => instDecidableReads r rest (bitOffset + item.sizeBits)
    | .ok none => .isTrue trivial
    | .error _ => .isFalse id

/-- `event` finds a key in the slot. -/
def SlotKey (field : InputItem × U32) : Prop :=
  field.1.isArray ∧ field.2 ≠ 0#32 ∧ KeyboardPage (field.1.usageMin + field.2)

instance (field : InputItem × U32) : Decidable (SlotKey field) :=
  inferInstanceAs (Decidable (_ ∧ _ ∧ _))

/-- A button. -/
def IsButton (item : InputItem) : Prop :=
  ¬item.isArray ∧ ¬item.isConstant ∧ item.type = EV_KEY

instance (item : InputItem) : Decidable (IsButton item) := inferInstanceAs (Decidable (_ ∧ _ ∧ _))

/-- The states of the buttons that stand for the key. -/
def buttonStates (fields : List (InputItem × U32)) (keycode : U16) : List Bool :=
  (fields.filter fun field => IsButton field.1 ∧ field.1.code = keycode).map fun field =>
    field.2 ≠ 0#32

/-- The keys of the arrays. -/
def listableKeys (items : List InputItem) : List U16 :=
  (items.filter (·.isArray)).flatMap fun item =>
    ((List.range' item.usageMin.toNat (item.usageMax.toNat + 1 - item.usageMin.toNat)).filter
      fun usage => KeyboardPage (BitVec.ofNat 32 usage)).map fun usage =>
        keycodeOf (BitVec.ofNat 32 usage)

/-- An event of a key. -/
def keyEvent (keycode : U16) (state : Bool) : InputEvent :=
  ⟨EV_KEY, keycode, BitVec.ofNat 32 state.toNat⟩

/-- What a report should lead to: of the array's keys those are pressed that it lists, and there is
    one event for every key that has changed. -/
structure Follows (r : Report) (d d' : Device) : Prop where
  status : ∀ k ∈ listableKeys d.inputItems, (d'.keyStatus k = true ↔ Listed r d.inputItems k)
  events : ∀ k ∈ listableKeys d.inputItems, ∀ state,
    d'.events.count (keyEvent k state) = d.events.count (keyEvent k state) +
      if d'.keyStatus k = state ∧ d.keyStatus k ≠ state then 1 else 0

/-- Every report of the run does. -/
def RunFollows (d : Device) (reports : List Report) : Prop :=
  ∀ before r behind, reports = before ++ r :: behind → ∃ d1 d2,
    before.foldlM Device.event d = .ok d1 ∧ d1.event r = .ok d2 ∧ Follows r d1 d2

/-- The states lead from the first to the last without a way back. -/
def Straight : (first : Bool) → List Bool → (last : Bool) → Prop
  | first, [], last => first = last
  | first, state :: rest, last => (state = first ∨ state = last) ∧ Straight state rest last

instance : ∀ first states last, Decidable (Straight first states last)
  | _, [], _ => inferInstanceAs (Decidable (_ = _))
  | _, state :: rest, last =>
    have := instDecidableStraight state rest last
    inferInstanceAs (Decidable (_ ∧ _))

/-- The report can be read, `event` finds no key in a slot, and the buttons of the array's keys lead
    to what is listed. -/
def Tracks (r : Report) (d : Device) : Prop :=
  r.Reads d.inputItems 0#32 ∧ (∀ field ∈ r.fields d.inputItems 0#32, ¬SlotKey field) ∧
    ∀ k ∈ listableKeys d.inputItems, Straight (d.keyStatus k)
      (buttonStates (r.fields d.inputItems 0#32) k) (Listed r d.inputItems k)

instance (r : Report) (d : Device) : Decidable (Tracks r d) :=
  decidable_of_iff (r.Reads d.inputItems 0#32 ∧
    ((r.fields d.inputItems 0#32).all fun field => ¬SlotKey field) ∧
    (listableKeys d.inputItems).all fun k => Straight (d.keyStatus k)
      (buttonStates (r.fields d.inputItems 0#32) k) (Listed r d.inputItems k))
    (by simp only [Tracks, List.all_eq_true, decide_eq_true_eq])

/-- Every report of the run does so in the state before it. -/
def RunTracks (d : Device) : List Report → Prop
  | [] => True
  | r :: reports => Tracks r d ∧
    match d.event r with
    | .ok d' => RunTracks d' reports
    | .error _ => True

instance : ∀ d reports, Decidable (RunTracks d reports)
  | _, [] => .isTrue trivial
  | d, r :: reports =>
    have : Decidable (match d.event r with
      | .ok d' => RunTracks d' reports
      | .error _ => True) := match d.event r with
        | .ok d' => instDecidableRunTracks d' reports
        | .error _ => .isTrue trivial
    inferInstanceAs (Decidable (_ ∧ _))

/-! ## The loop as a fold -/

/-- A turn of the loop of `event`, on the device. -/
def Device.processField (d : Device) (field : InputItem × U32) : Device :=
  (d.process field.1 field.2).1

section Loop

variable {r : Report} {items items' : List InputItem} {bitOffset : U32} {d d' : Device}

theorem reads_iff : (∃ x, eventLoop r items bitOffset d = .ok x) ↔ r.Reads items bitOffset := by
  induction items generalizing bitOffset d with
  | nil => exact ⟨fun _ => trivial, fun _ => ⟨_, rfl⟩⟩
  | cons item rest ih =>
    unfold eventLoop Report.Reads
    cases hvalue : r.value bitOffset item.sizeBits with
    | error stop =>
      constructor
      · rintro ⟨x, hx⟩
        cases hx
      · exact False.elim
    | ok v =>
      rw [ok_bind]
      cases v with
      | none => exact ⟨fun _ => trivial, fun _ => ⟨_, rfl⟩⟩
      | some value =>
        simp only
        rw [← ih (d := (d.process item value).1)]
        constructor
        · rintro ⟨x, hx⟩
          obtain ⟨y, hy, -⟩ := bind_ok hx
          exact ⟨y, hy⟩
        · rintro ⟨y, hy⟩
          exact ⟨_, by simp only [hy, ok_bind]; rfl⟩

theorem eventLoop_device (h : eventLoop r items bitOffset d = .ok (items', d')) :
    d' = (r.fields items bitOffset).foldl Device.processField d := by
  induction items generalizing bitOffset d items' with
  | nil =>
    cases h
    rfl
  | cons item rest ih =>
    unfold eventLoop at h
    obtain ⟨v, hvalue, h⟩ := bind_ok h
    unfold Report.fields
    rw [hvalue]
    cases v with
    | none =>
      cases h
      rfl
    | some value =>
      obtain ⟨⟨rest', d1⟩, hrest, h⟩ := bind_ok h
      cases h
      exact ih hrest

/-- Where no slot changes, the items stay as they are. -/
theorem eventLoop_items (h : eventLoop r items bitOffset d = .ok (items', d'))
    (hsame : ∀ field ∈ r.fields items bitOffset, ∀ d : Device,
      (d.process field.1 field.2).2 = field.1.previousValue) : items' = items := by
  induction items generalizing bitOffset d items' with
  | nil =>
    cases h
    rfl
  | cons item rest ih =>
    unfold eventLoop at h
    obtain ⟨v, hvalue, h⟩ := bind_ok h
    unfold Report.fields at hsame
    rw [hvalue] at hsame
    cases v with
    | none =>
      cases h
      rfl
    | some value =>
      obtain ⟨⟨rest', d1⟩, hrest, h⟩ := bind_ok h
      cases h
      have hitem := hsame _ List.mem_cons_self d
      show { item with previousValue := (d.process item value).2 } :: rest' = item :: rest
      rw [hitem, ih hrest fun field hfield => hsame field (List.mem_cons_of_mem _ hfield)]

end Loop

/-! ## What a field does -/

section Field

variable {d : Device} {field : InputItem × U32} {k : U16} {e : InputEvent}
  {fields : List (InputItem × U32)}

/-- The slot has changed. -/
def SlotChanges (field : InputItem × U32) : Prop :=
  field.1.isArray ∧ KeyboardPage (field.1.usageMin + field.2) ∧ field.2 ≠ field.1.previousValue

/-- The key that the slot held. -/
def oldKeycode (item : InputItem) : U16 := keycodeOf (item.usageMin + item.previousValue)

/-- The cases of a field: the slot that changes, the button, the movement and the field without
    effect on the device. -/
theorem processField_cases (d : Device) (field : InputItem × U32) :
    (SlotChanges field ∧ d.processField field =
      (((d.setKey (keycodeOf (field.1.usageMin + field.2)) true).setKey (oldKeycode field.1)
        false).pushEvent EV_KEY (keycodeOf (field.1.usageMin + field.2)) 1#32).pushEvent EV_KEY
          (oldKeycode field.1) 0#32) ∨
    (IsButton field.1 ∧
      d.processField field = d.processButton field.1.code (decide (field.2 ≠ 0#32))) ∨
    (¬SlotChanges field ∧ ¬IsButton field.1 ∧
      (d.processField field = d.pushEvent EV_REL field.1.code field.2 ∨
        d.processField field = d)) := by
  unfold Device.processField Device.process SlotChanges IsButton oldKeycode
  by_cases harray : field.1.isArray = true
  · rw [if_pos harray]
    by_cases hchanges : KeyboardPage (field.1.usageMin + field.2) ∧
        field.2 ≠ field.1.previousValue
    · exact .inl ⟨⟨harray, hchanges⟩, by rw [if_pos hchanges]⟩
    · exact .inr (.inr ⟨fun h => hchanges h.2, fun h => h.1 harray, .inr (by rw [if_neg hchanges])⟩)
  rw [if_neg harray]
  by_cases hconstant : field.1.isConstant = true
  · rw [if_pos hconstant]
    exact .inr (.inr ⟨fun h => harray h.1, fun h => h.2.1 hconstant, .inr rfl⟩)
  rw [if_neg hconstant]
  by_cases hkey : field.1.type = EV_KEY
  · rw [if_pos hkey]
    exact .inr (.inl ⟨⟨harray, hconstant, hkey⟩, rfl⟩)
  rw [if_neg hkey]
  refine .inr (.inr ⟨fun h => harray h.1, fun h => hkey h.2.2, ?_⟩)
  split_ifs
  · exact .inl rfl
  · exact .inr rfl

/-- The event has been pushed once more, at least. -/
def Emits (e : InputEvent) (d d' : Device) : Prop := d.events.count e < d'.events.count e

theorem emits_append {d d' : Device} {new : List InputEvent} (h : d'.events = d.events ++ new)
    (he : e ∈ new) : Emits e d d' := by
  unfold Emits
  rw [h, List.count_append]
  exact Nat.lt_add_of_pos_right (List.count_pos_iff.mpr he)

theorem processField_append (d : Device) (field : InputItem × U32) :
    ∃ new, (d.processField field).events = d.events ++ new := by
  rcases processField_cases d field with ⟨-, h⟩ | ⟨-, h⟩ | ⟨-, -, h | h⟩
  all_goals rw [h]
  · exact ⟨_, List.append_assoc _ _ _⟩
  · unfold Device.processButton
    split_ifs
    · exact ⟨_, rfl⟩
    · exact ⟨[], (List.append_nil _).symm⟩
  · exact ⟨_, rfl⟩
  · exact ⟨[], (List.append_nil _).symm⟩

/-- No event is taken back. -/
theorem count_le_foldl (e : InputEvent) (fields : List (InputItem × U32)) (d : Device) :
    d.events.count e ≤ (fields.foldl Device.processField d).events.count e := by
  induction fields generalizing d with
  | nil => exact le_rfl
  | cons field rest ih =>
    obtain ⟨new, hnew⟩ := processField_append d field
    refine le_trans ?_ (ih (d.processField field))
    rw [hnew, List.count_append]
    exact Nat.le_add_right _ _

theorem emits_foldl (hfield : field ∈ fields)
    (hemits : ∀ d : Device, Emits e d (d.processField field)) :
    Emits e d (fields.foldl Device.processField d) := by
  obtain ⟨before, behind, rfl⟩ := List.append_of_mem hfield
  rw [List.foldl_append, List.foldl_cons]
  exact (count_le_foldl e before d).trans_lt
    ((hemits _).trans_le (count_le_foldl e behind _))

theorem SlotChanges.emits (h : SlotChanges field) (d : Device) :
    Emits (keyEvent (oldKeycode field.1) false) d (d.processField field) := by
  rcases processField_cases d field with ⟨-, hd⟩ | ⟨hbutton, -⟩ | ⟨hnot, -⟩
  · rw [hd]
    exact emits_append (List.append_assoc _ _ _)
      (List.mem_append_right _ (List.mem_singleton_self _))
  · exact absurd h.1 hbutton.1
  · exact absurd h hnot

/-- What a field other than a slot that changes does to a key: a button takes it to its state, with
    an event if that is another one. -/
theorem processField_key (hslot : ¬SlotChanges field) (d : Device) (k : U16) :
    ((d.processField field).keyStatus k = d.keyStatus k ∧
      (∀ state, (d.processField field).events.count (keyEvent k state) =
        d.events.count (keyEvent k state)) ∧
      (IsButton field.1 ∧ field.1.code = k → decide (field.2 ≠ 0#32) = d.keyStatus k)) ∨
    ((IsButton field.1 ∧ field.1.code = k) ∧ decide (field.2 ≠ 0#32) ≠ d.keyStatus k ∧
      (d.processField field).keyStatus k = decide (field.2 ≠ 0#32) ∧
      ∀ state, (d.processField field).events.count (keyEvent k state) =
        d.events.count (keyEvent k state) + if decide (field.2 ≠ 0#32) = state then 1 else 0) := by
  rcases processField_cases d field with ⟨hchanges, -⟩ | ⟨hbutton, hd⟩ | ⟨-, hnot, hd | hd⟩
  · exact absurd hchanges hslot
  · rw [hd]
    unfold Device.processButton
    by_cases hsame : decide (field.2 ≠ 0#32) = d.keyStatus field.1.code
    · rw [if_neg (not_not.mpr hsame)]
      exact .inl ⟨rfl, fun _ => rfl, fun h => h.2 ▸ hsame⟩
    rw [if_pos hsame]
    by_cases hkey : field.1.code = k
    · subst hkey
      refine .inr ⟨⟨hbutton, rfl⟩, hsame, Function.update_self _ _ d.keyStatus, fun state => ?_⟩
      show (d.events ++ [keyEvent _ _]).count _ = _
      rw [List.count_append, List.count_singleton]
      cases decide (field.2 ≠ 0#32) <;> cases state <;> simp [keyEvent]
    · refine .inl ⟨Function.update_of_ne (Ne.symm hkey) _ d.keyStatus, fun state => ?_,
        fun h => absurd h.2 hkey⟩
      have hother : keyEvent k state ∉ [keyEvent field.1.code (decide (field.2 ≠ 0#32))] := by
        rw [List.mem_singleton]
        exact fun he => hkey (congrArg InputEvent.code he).symm
      show (d.events ++ [keyEvent _ _]).count _ = _
      rw [List.count_append, List.count_eq_zero.mpr hother, Nat.add_zero]
  · rw [hd]
    refine .inl ⟨rfl, fun state => ?_, fun h => absurd h.1 hnot⟩
    have hother : keyEvent k state ∉ [(⟨EV_REL, field.1.code, field.2⟩ : InputEvent)] := by
      rw [List.mem_singleton]
      exact fun he => absurd (congrArg InputEvent.type he) (show EV_KEY ≠ EV_REL by decide)
    show (d.events ++ _).count _ = _
    rw [List.count_append, List.count_eq_zero.mpr hother, Nat.add_zero]
  · rw [hd]
    exact .inl ⟨rfl, fun _ => rfl, fun h => absurd h.1 hnot⟩

/-- The key ends in the state `last`, and there is an event if it was in another one. -/
def Arrives (k : U16) (last : Bool) (d d' : Device) : Prop :=
  d'.keyStatus k = last ∧ ∀ state, d'.events.count (keyEvent k state) =
    d.events.count (keyEvent k state) + if last = state ∧ d.keyStatus k ≠ state then 1 else 0

/-- Where no slot changes, a key does so if and only if its buttons lead there. -/
theorem foldl_straight_iff {last : Bool} (hslots : ∀ field ∈ fields, ¬SlotChanges field) :
    ∀ d : Device, Straight (d.keyStatus k) (buttonStates fields k) last ↔
      Arrives k last d (fields.foldl Device.processField d) := by
  induction fields with
  | nil =>
    intro d
    refine ⟨fun h => ⟨h, fun state => ?_⟩, fun h => h.1⟩
    rw [if_neg fun hboth => hboth.2 (h.trans hboth.1)]
    rfl
  | cons field rest ih =>
    intro d
    have hfield := processField_key (hslots field List.mem_cons_self) d k
    have ih := ih (fun f hf => hslots f (List.mem_cons_of_mem _ hf)) (d.processField field)
    rw [List.foldl_cons]
    rcases hfield with ⟨hkeeps, hcount, hstate⟩ | ⟨hbutton, hother, hkey, hcount⟩
    · -- the field leaves the key as it is
      have hstraight : Straight (d.keyStatus k) (buttonStates (field :: rest) k) last ↔
          Straight (d.keyStatus k) (buttonStates rest k) last := by
        by_cases hbutton : IsButton field.1 ∧ field.1.code = k
        · simp only [buttonStates, List.filter_cons, hbutton, and_self, decide_true, if_true,
            List.map_cons, Straight, hstate hbutton, true_or, true_and]
        · simp only [buttonStates, List.filter_cons, hbutton, decide_false, Bool.false_eq_true,
            if_false]
      rw [hkeeps] at ih
      rw [hstraight, ih]
      unfold Arrives
      simp only [hkeeps, hcount]
    · -- a button takes it to another state, which has to be the last one
      have hstraight : Straight (d.keyStatus k) (buttonStates (field :: rest) k) last ↔
          decide (field.2 ≠ 0#32) = last ∧ Straight last (buttonStates rest k) last := by
        simp only [buttonStates, List.filter_cons, hbutton, and_self, decide_true, if_true,
          List.map_cons, Straight, hother, false_or]
        exact and_congr_right fun h => by rw [h]
      rw [hkey] at ih
      rw [hstraight]
      have hnone (state : Bool) : (if last = state ∧ last ≠ state then 1 else 0) = 0 :=
        if_neg fun h => h.2 h.1
      constructor
      · rintro ⟨rfl, hrest⟩
        obtain ⟨hend, hevents⟩ := ih.mp hrest
        refine ⟨hend, fun state => ?_⟩
        rw [hevents, hcount, hkey, hnone, Nat.add_zero]
        refine congrArg _ (if_congr ?_ rfl rfl)
        exact ⟨fun h => ⟨h, fun h' => hother (h.trans h'.symm)⟩, fun h => h.1⟩
      · rintro ⟨hend, hevents⟩
        have hlast : decide (field.2 ≠ 0#32) = last := by
          have hle := count_le_foldl (keyEvent k (decide (field.2 ≠ 0#32))) rest
            (d.processField field)
          rw [hevents, hcount, if_pos rfl] at hle
          by_contra hne
          rw [if_neg fun h => hne h.1.symm] at hle
          omega
        subst hlast
        refine ⟨rfl, ih.mpr ⟨hend, fun state => ?_⟩⟩
        rw [hevents, hcount, hkey, hnone, Nat.add_zero]
        refine congrArg _ (if_congr ?_ rfl rfl)
        exact ⟨fun h => h.1, fun h => ⟨h, fun h' => hother (h.trans h'.symm)⟩⟩

end Field

/-! ## One report -/

/-- No slot has held a key. -/
def Fresh (items : List InputItem) : Prop := ∀ item ∈ items, item.previousValue = 0#32

/-- The arrays are of keys: the first usage is one of a keyboard, which no button stands for, and
    there is a last one. -/
def KeyArrays (items : List InputItem) : Prop :=
  ∀ item ∈ items, item.isArray → KeyboardPage item.usageMin ∧ item.usageMin ≤ item.usageMax ∧
    ∀ button ∈ items, IsButton button → button.code ≠ keycodeOf item.usageMin

instance (items : List InputItem) : Decidable (KeyArrays items) :=
  inferInstanceAs (Decidable (∀ _ ∈ items, _ → _))

theorem KeyArrays.mem_listableKeys {items : List InputItem} {item : InputItem} (h : KeyArrays items)
    (hitem : item ∈ items) (harray : item.isArray) :
    keycodeOf item.usageMin ∈ listableKeys items := by
  obtain ⟨hpage, hle, -⟩ := h item hitem harray
  have hle := BitVec.le_def.mp hle
  refine List.mem_flatMap.mpr ⟨item, List.mem_filter.mpr ⟨hitem, harray⟩, List.mem_map.mpr
    ⟨item.usageMin.toNat, List.mem_filter.mpr ⟨List.mem_range'_1.mpr (by omega), ?_⟩, by simp⟩⟩
  simpa using hpage

/-- The key that stands for none in an array is not pressed. -/
def Released (d : Device) : Prop :=
  ∀ item ∈ d.inputItems, item.isArray → d.keyStatus (keycodeOf item.usageMin) = false

section Event

variable {r : Report} {d d' : Device} {items : List InputItem} {bitOffset : U32}
  {field : InputItem × U32}

theorem mem_of_mem_fields (h : field ∈ r.fields items bitOffset) : field.1 ∈ items := by
  induction items generalizing bitOffset with
  | nil => exact absurd h List.not_mem_nil
  | cons item rest ih =>
    unfold Report.fields at h
    split at h
    · rcases List.mem_cons.mp h with rfl | h
      · exact List.mem_cons_self
      · exact List.mem_cons_of_mem _ (ih h)
    · exact absurd h List.not_mem_nil

theorem Fresh.slotChanges_iff (h : Fresh items) (hfield : field ∈ r.fields items bitOffset) :
    SlotChanges field ↔ SlotKey field := by
  unfold SlotChanges SlotKey
  rw [h _ (mem_of_mem_fields hfield)]
  tauto

theorem process_previous (hslot : ¬SlotChanges field) (d : Device) :
    (d.process field.1 field.2).2 = field.1.previousValue := by
  unfold SlotChanges at hslot
  unfold Device.process
  simp only
  split_ifs with harray hchanges
  · exact absurd ⟨harray, hchanges⟩ hslot
  all_goals rfl

theorem follows_iff : Follows r d d' ↔
    ∀ k ∈ listableKeys d.inputItems, Arrives k (Listed r d.inputItems k) d d' := by
  constructor
  · intro h k hk
    have hstatus : d'.keyStatus k = decide (Listed r d.inputItems k) :=
      Bool.eq_iff_iff.mpr ((h.status k hk).trans decide_eq_true_iff.symm)
    exact ⟨hstatus, hstatus ▸ h.events k hk⟩
  · intro h
    refine ⟨fun k hk => ?_, fun k hk => ?_⟩
    · rw [(h k hk).1, decide_eq_true_iff]
    · rw [(h k hk).1]
      exact (h k hk).2

/-- A report that can be read and has no key in a slot, to a device that has had none. -/
theorem event_eq (h : Fresh d.inputItems) (hreads : r.Reads d.inputItems 0#32)
    (hslots : ∀ field ∈ r.fields d.inputItems 0#32, ¬SlotKey field) :
    d.event r = .ok { (r.fields d.inputItems 0#32).foldl Device.processField d with
      inputItems := d.inputItems } := by
  obtain ⟨⟨items, d1⟩, hloop⟩ := reads_iff (d := d).mpr hreads
  have hitems := eventLoop_items hloop fun field hfield d =>
    process_previous (mt (h.slotChanges_iff hfield).mp (hslots field hfield)) d
  unfold Device.event
  rw [hloop, ← eventLoop_device hloop, ← hitems]
  rfl

/-- Such a report leads every key to where its buttons do. -/
theorem arrives_iff (h : Fresh d.inputItems)
    (hslots : ∀ field ∈ r.fields d.inputItems 0#32, ¬SlotKey field) {k : U16} {last : Bool} :
    Arrives k last d { (r.fields d.inputItems 0#32).foldl Device.processField d with
        inputItems := d.inputItems } ↔
      Straight (d.keyStatus k) (buttonStates (r.fields d.inputItems 0#32) k) last :=
  (foldl_straight_iff (fun field hfield =>
    mt (h.slotChanges_iff hfield).mp (hslots field hfield)) d).symm

/-- A report that tracks the keys is followed, and no slot has held one. -/
theorem Tracks.follows (hr : Tracks r d) (h : Fresh d.inputItems) :
    ∃ d', d.event r = .ok d' ∧ Follows r d d' ∧ d'.inputItems = d.inputItems := by
  obtain ⟨hreads, hslots, hbuttons⟩ := hr
  refine ⟨_, event_eq h hreads hslots, follows_iff.mpr fun k hk => ?_, rfl⟩
  exact (arrives_iff h hslots).mpr (hbuttons k hk)

/-- The key without a button is not touched. -/
theorem Tracks.released (hr : Tracks r d) (h : Fresh d.inputItems) (hkeys : KeyArrays d.inputItems)
    (hreleased : Released d) (he : d.event r = .ok d') : Released d' := by
  obtain ⟨hreads, hslots, -⟩ := hr
  obtain rfl := Except.ok.inj ((event_eq h hreads hslots).symm.trans he)
  intro item hitem harray
  have hnone : buttonStates (r.fields d.inputItems 0#32) (keycodeOf item.usageMin) = [] := by
    unfold buttonStates
    rw [List.map_eq_nil_iff, List.filter_eq_nil_iff]
    intro field hfield hbutton
    obtain ⟨hbutton, hcode⟩ := of_decide_eq_true hbutton
    exact (hkeys item hitem harray).2.2 _ (mem_of_mem_fields hfield) hbutton hcode
  refine ((arrives_iff h hslots).mpr ?_).1
  rw [hnone]
  exact hreleased item hitem harray

theorem Follows.tracks (hf : Follows r d d') (he : d.event r = .ok d') (h : Fresh d.inputItems)
    (hkeys : KeyArrays d.inputItems) (hreleased : Released d) : Tracks r d := by
  obtain ⟨⟨items, d1⟩, hloop, hd'⟩ := bind_ok he
  have hd1 := eventLoop_device hloop
  have hevents : d'.events = d1.events := by
    cases hd'
    rfl
  have hreads : r.Reads d.inputItems 0#32 := reads_iff.mp ⟨_, hloop⟩
  have hslots : ∀ field ∈ r.fields d.inputItems 0#32, ¬SlotKey field := by
    intro field hfield hkey
    have hitem := mem_of_mem_fields hfield
    have hemits := emits_foldl hfield (((h.slotChanges_iff hfield).mpr hkey).emits) (d := d)
    have hold : oldKeycode field.1 = keycodeOf field.1.usageMin := by
      unfold oldKeycode
      rw [h _ hitem, BitVec.add_zero]
    have hcount := hf.events _ (hkeys.mem_listableKeys hitem hkey.1) false
    have hup := hreleased field.1 hitem hkey.1
    unfold Emits at hemits
    rw [← hd1, ← hevents, hold, hcount, hup, if_neg fun hboth => hboth.2 rfl] at hemits
    omega
  refine ⟨hreads, hslots, fun k hk => (arrives_iff h hslots).mp ?_⟩
  obtain rfl := Except.ok.inj ((event_eq h hreads hslots).symm.trans he)
  exact follows_iff.mp hf k hk

end Event

/-! ## The device behind a descriptor -/

namespace Fresh

variable {p : Parser}

theorem push {item : InputItem} (h : Fresh p.inputItems) (hitem : item.previousValue = 0#32) :
    Fresh (p.push item).inputItems := by
  intro other hother
  rcases List.mem_append.mp hother with hother | hother
  · exact h other hother
  · rw [List.mem_singleton.mp hother]
    exact hitem

theorem pushVariables (l : List ℕ) :
    ∀ {p : Parser}, Fresh p.inputItems → Fresh (p.pushVariables l).inputItems := by
  induction l with
  | nil => exact id
  | cons i rest ih =>
    intro p h
    unfold Parser.pushVariables
    cases p.usageOf i with
    | none => exact h
    | some usage => exact ih (h.push rfl)

theorem input (h : Fresh p.inputItems) (itemData : U32) : Fresh (p.input itemData).inputItems := by
  unfold Parser.input
  simp only
  split_ifs
  · exact h.push rfl
  · exact List.foldlRecOn (motive := fun q : Parser => Fresh q.inputItems) _ _ h
      fun _ hq _ _ => hq.push rfl
  · exact pushVariables _ h

theorem item (h : Fresh p.inputItems) (r : ReportItem) : Fresh (p.item r).inputItems := by
  unfold Parser.item
  split
  · show Fresh (if r.tag = 8 then p.input r.data else p).inputItems
    split_ifs
    · exact h.input r.data
    · exact h
  · unfold Parser.globalItem
    split <;> exact h
  · unfold Parser.localItem
    split <;> exact h
  · exact h

end Fresh

theorem announce_keyStatus {d d' : Device} {item : InputItem} (h : announce d item = some d') :
    d'.keyStatus = d.keyStatus := by
  unfold announce at h
  split_ifs at h
  · obtain ⟨keyBitmap, -, rfl⟩ := Option.map_eq_some_iff.mp h
    rfl
  all_goals
    cases h
    rfl

theorem foldlM_announce_keyStatus {items : List InputItem} :
    ∀ {d d' : Device}, items.foldlM announce d = some d' → d'.keyStatus = d.keyStatus := by
  induction items with
  | nil =>
    intro d d' h
    cases h
    rfl
  | cons item rest ih =>
    intro d d' h
    rw [List.foldlM_cons] at h
    obtain ⟨d1, h1, h2⟩ := Option.bind_eq_some_iff.mp h
    exact (ih h2).trans (announce_keyStatus h1)

/-- Behind a descriptor no slot has held a key, and no key is pressed. -/
theorem parse_fresh {d : Device} {m : ℕ → U8} {length : U16} {fuel : ℕ}
    (h : ({} : Device).parseReportDescriptor m length fuel = some d) :
    Fresh d.inputItems ∧ Released d := by
  unfold Device.parseReportDescriptor at h
  rw [parseLoop_eq] at h
  obtain ⟨p, hp, h⟩ := Option.bind_eq_some_iff.mp h
  obtain ⟨items, -, rfl⟩ := Option.map_eq_some_iff.mp hp
  split_ifs at h
  · have hfresh : Fresh (items.foldl Parser.item { inputItems := [] }).inputItems :=
      List.foldlRecOn (motive := fun q : Parser => Fresh q.inputItems) _ _
        (fun _ hitem => absurd hitem List.not_mem_nil) fun _ hq r _ => hq.item r
    refine ⟨?_, fun item _ _ => ?_⟩
    · rw [(foldlM_announce h).1]
      exact hfresh
    · rw [foldlM_announce_keyStatus h]
  · cases h
    exact ⟨fun _ hitem => absurd hitem List.not_mem_nil, fun _ _ _ => rfl⟩

/-! ## Every run -/

section Run

variable {r : Report} {d d' : Device} {reports : List Report}

theorem runFollows_nil : RunFollows d [] := by
  intro before r behind h
  exact absurd h.symm (List.append_ne_nil_of_right_ne_nil _ (List.cons_ne_nil _ _))

theorem runFollows_cons : RunFollows d (r :: reports) ↔
    ∃ d', d.event r = .ok d' ∧ Follows r d d' ∧ RunFollows d' reports := by
  constructor
  · intro h
    obtain ⟨d1, d', h1, he, hf⟩ := h [] r reports rfl
    cases h1
    refine ⟨d', he, hf, fun before r' behind hsplit => ?_⟩
    obtain ⟨d1, d2, h1, h2, hf'⟩ := h (r :: before) r' behind (by rw [hsplit, List.cons_append])
    rw [List.foldlM_cons, he, ok_bind] at h1
    exact ⟨d1, d2, h1, h2, hf'⟩
  · rintro ⟨d', he, hf, hrest⟩ before r' behind hsplit
    cases before with
    | nil =>
      cases hsplit
      exact ⟨d, d', rfl, he, hf⟩
    | cons r1 before =>
      cases hsplit
      obtain ⟨d1, d2, h1, h2, hf'⟩ := hrest before r' behind rfl
      exact ⟨d1, d2, by rw [List.foldlM_cons, he, ok_bind]; exact h1, h2, hf'⟩

/-- Reports that track the keys are followed. -/
theorem Fresh.runFollows (h : Fresh d.inputItems) (hr : RunTracks d reports) :
    RunFollows d reports := by
  induction reports generalizing d with
  | nil => exact runFollows_nil
  | cons r rest ih =>
    obtain ⟨d', he, hf, hitems⟩ := hr.1.follows h
    have hrest := hr.2
    rw [he] at hrest
    exact runFollows_cons.mpr ⟨d', he, hf, ih (hitems ▸ h) hrest⟩

/-- And only these. -/
theorem Fresh.runTracks (h : Fresh d.inputItems) (hreleased : Released d)
    (hkeys : KeyArrays d.inputItems) (hrun : RunFollows d reports) : RunTracks d reports := by
  induction reports generalizing d with
  | nil => trivial
  | cons r rest ih =>
    obtain ⟨d', he, hf, hrest⟩ := runFollows_cons.mp hrun
    have hfirst := hf.tracks he h hkeys hreleased
    refine ⟨hfirst, ?_⟩
    rw [he]
    obtain ⟨d2, he2, -, hitems⟩ := hfirst.follows h
    obtain rfl : d2 = d' := Except.ok.inj (he2.symm.trans he)
    exact ih (hitems ▸ h) (hfirst.released h hkeys hreleased he) (hitems ▸ hkeys) hrest

/-- The descriptor of a keyboard whose reports have two slots. -/
def keyboardDescriptor (i : ℕ) : U8 :=
  [0x05#8, 0x07#8, 0x19#8, 0x00#8, 0x29#8, 0x65#8, 0x75#8, 0x08#8, 0x95#8, 0x02#8, 0x81#8,
   0x00#8].getD i 0#8

/-- A report of the keyboard. -/
def slots (first second : U8) : Report :=
  { data := fun i => [first, second].getD i 0#8, length := 2#32 }

/-- The descriptor of four buttons, Control, Shift, Alt and Meta, and a slot of four bits. -/
def modifierDescriptor (i : ℕ) : U8 :=
  [0x05#8, 0x07#8, 0x19#8, 0xE0#8, 0x29#8, 0xE3#8, 0x75#8, 0x01#8, 0x95#8, 0x04#8, 0x81#8, 0x02#8,
   0x19#8, 0xDF#8, 0x29#8, 0xE3#8, 0x75#8, 0x04#8, 0x95#8, 0x01#8, 0x81#8, 0x00#8].getD i 0#8

/-- One byte, the buttons in the low half. -/
def modifiers (byte : U8) : Report := { data := fun _ => byte, length := 1#32 }

end Run

end Fishix.Dev.Usbhid
