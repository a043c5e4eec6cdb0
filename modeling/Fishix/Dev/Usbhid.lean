import Fishix.Common.Outcome

/-!
# USB HID reports

Model of `Device::parse_report_descriptor`, `process_button` and `event`
(dev/input/usbhid.cpp:11-285). The descriptor is a list of items, which say how the reports of the
device are divided into fields. `parse_report_descriptor` makes an `InputItem` of every field and
refuses what `event` cannot read. It looks at the fields with a type only, `event` at all of them.

* `length_usbToLinuxKeycodeTable`: the assertion about the table of key codes.
* `parseLoop_ends`: the walk through a descriptor ends.
* `parse_sizes`: the fields of a usable descriptor, in the order of the descriptor.
* `event_avoids_outside`: no report is read outside its bytes.
* `event_total_iff`: the descriptors with which `event` does not reach `klib::unreachable`.
-/

namespace Fishix.Dev.Usbhid

abbrev U8 := BitVec 8
abbrev U16 := BitVec 16
abbrev U32 := BitVec 32

def EV_KEY : U16 := 1#16
def EV_REL : U16 := 2#16

def BTN_LEFT : U16 := 0x110#16
def BTN_RIGHT : U16 := 0x111#16
def BTN_MIDDLE : U16 := 0x112#16
def BTN_SIDE : U16 := 0x113#16
def BTN_EXTRA : U16 := 0x114#16

def REL_X : U16 := 0#16
def REL_Y : U16 := 1#16
def REL_WHEEL : U16 := 8#16

/-- dev/input/usb_to_linux_keycodes.inc, sixteen key codes a row. -/
def usbToLinuxKeycodeTable : List ℕ :=
  [[240, 240, 240, 240, 30, 48, 46, 32, 18, 33, 34, 35, 23, 36, 37, 38],
   [50, 49, 24, 25, 16, 19, 31, 20, 22, 47, 17, 45, 21, 44, 2, 3],
   [4, 5, 6, 7, 8, 9, 10, 11, 28, 1, 14, 15, 57, 12, 13, 26],
   [27, 43, 43, 39, 40, 41, 51, 52, 53, 58, 59, 60, 61, 62, 63, 64],
   [65, 66, 67, 68, 87, 88, 210, 70, 119, 110, 102, 104, 111, 107, 109, 106],
   [105, 108, 103, 69, 98, 55, 74, 78, 96, 79, 80, 81, 75, 76, 77, 71],
   [72, 73, 82, 83, 86, 127, 116, 117, 183, 184, 185, 186, 187, 188, 189, 190],
   [191, 192, 193, 194, 240, 138, 139, 353, 128, 129, 131, 137, 133, 135, 136, 113],
   [115, 114, 240, 240, 240, 121, 240, 89, 93, 124, 92, 95, 240, 240, 240, 240],
   [122, 123, 90, 91, 85, 240, 240, 240, 240, 222, 99, 223, 355, 240, 240, 240],
   [240, 240, 240, 240, 240, 240, 240, 240, 240, 240, 240, 240, 240, 240, 240, 240],
   [240, 240, 240, 240, 240, 240, 179, 180, 240, 240, 240, 240, 240, 240, 240, 240],
   [240, 240, 240, 240, 240, 240, 240, 240, 240, 240, 240, 240, 240, 240, 240, 240],
   [240, 240, 240, 240, 240, 240, 240, 118, 240, 240, 240, 240, 240, 240, 240, 240],
   [29, 42, 56, 125, 97, 54, 100, 126, 240, 240, 240, 240, 240, 240, 240, 240],
   [240, 240, 240, 240, 240, 240, 240, 240, 240, 240, 240, 240, 240, 240, 240, 240]].flatten

/-- `usb_to_linux_keycode_table[usage & 0xFF]`. -/
def keycodeOf (usage : U32) : U16 :=
  BitVec.ofNat 16 (usbToLinuxKeycodeTable.getD (usage &&& 0xFF#32).toNat 0)

/-- `usage >> 16 == 7`: the usage is one of a keyboard. -/
def KeyboardPage (usage : U32) : Prop := usage >>> 16 = 7#32

instance (usage : U32) : Decidable (KeyboardPage usage) := inferInstanceAs (Decidable (_ = _))

/-- `InputItem` (dev/input/usbhid.hpp:9-19). -/
structure InputItem where
  sizeBits : U32
  type : U16 := 0#16
  code : U16 := 0#16
  usageMin : U32 := 0#32
  usageMax : U32 := 0#32
  isArray : Bool := false
  isConstant : Bool := false
  previousValue : U32 := 0#32

/-- A call of `push_event`. -/
structure InputEvent where
  type : U16
  code : U16
  value : U32
  deriving DecidableEq

/-- `Device`, with what it uses of an `InputDevice`. The events are those pushed since it exists;
    what `flush_events` does with them is left out. -/
structure Device where
  inputItems : List InputItem := []
  reportProtocolUsable : Bool := false
  evBitmap : U16 → Bool := fun _ => false
  keyBitmap : U16 → Bool := fun _ => false
  relBitmap : U16 → Bool := fun _ => false
  keyStatus : U16 → Bool := fun _ => false
  events : List InputEvent := []

/-! ## The items of a descriptor -/

/-- An item of a descriptor (dev/input/usbhid.cpp:25-38). -/
structure ReportItem where
  size : ℕ
  type : ℕ
  tag : ℕ
  data : U32
  deriving DecidableEq

/-- The loop over the data of an item (lines 34-37). It stops at the end of the descriptor, a byte
    late. -/
def itemData (m : ℕ → U8) (length i : U16) (itemSize : ℕ) : U32 :=
  ((List.range itemSize).takeWhile fun offset => i.toNat + offset < length.toNat).foldl
    (fun itemData offset =>
      itemData ||| (m (i.toNat + offset + 1)).setWidth 32 <<< (offset * 8)) 0#32

/-- The item at `i` of the descriptor at `m`. -/
def readItem (m : ℕ → U8) (length i : U16) : ReportItem :=
  let item := m i.toNat
  let itemSize := (item &&& 3#8).toNat
  let itemSize := if itemSize = 3 then 4 else itemSize
  { size := itemSize
    type := (item >>> 2 &&& 3#8).toNat
    tag := (item >>> 4 &&& 15#8).toNat
    data := itemData m length i itemSize }

/-! ## The parser -/

/-- The locals of `parse_report_descriptor` (lines 12-21), and what it changes of the device. -/
structure Parser where
  usagePage : U32 := 0#32
  logicalMinimum : U32 := 0#32
  logicalMaximum : U32 := 0#32
  reportSize : U32 := 0#32
  reportCount : U32 := 0#32
  usages : List U32 := []
  usageMinimum : U32 := 0#32
  usageMaximum : U32 := 0#32
  reportProtocolUsable : Bool := true
  inputItems : List InputItem

namespace Parser

variable (p : Parser)

/-- `input_items.push_back`. -/
def push (item : InputItem) : Parser := { p with inputItems := p.inputItems ++ [item] }

/-- The usage of a variable field (lines 82-93), none in the invalid state. -/
def usageOf (i : ℕ) : Option U32 :=
  if i < p.usages.length then p.usages[i]?
  else if p.usages.length ≠ 0 then p.usages[p.usages.length - 1]?
  else if p.usageMinimum ≠ 0#32 then
    let usage := p.usageMinimum + BitVec.ofNat 32 i
    some (if p.usageMaximum < usage then p.usageMaximum else usage)
  else none

end Parser

/-- The type and the code of a usage (lines 95-115). -/
def typeAndCode (usage : U32) : U16 × U16 :=
  if KeyboardPage usage then (EV_KEY, keycodeOf usage)
  else if usage = 0x90001#32 then (EV_KEY, BTN_LEFT)
  else if usage = 0x90002#32 then (EV_KEY, BTN_RIGHT)
  else if usage = 0x90003#32 then (EV_KEY, BTN_MIDDLE)
  else if usage = 0x90004#32 then (EV_KEY, BTN_SIDE)
  else if usage = 0x90005#32 then (EV_KEY, BTN_EXTRA)
  else if usage = 0x10030#32 then (EV_REL, REL_X)
  else if usage = 0x10031#32 then (EV_REL, REL_Y)
  else if usage = 0x10038#32 then (EV_REL, REL_WHEEL)
  else (0#16, 0#16)

namespace Parser

variable (p : Parser)

/-- A turn of the loop over the fields of a variable item, of `size_bits = report_size`. -/
def variableItem (usage : U32) : InputItem :=
  { sizeBits := p.reportSize, type := (typeAndCode usage).1, code := (typeAndCode usage).2 }

/-- The loop over the fields of a variable item (lines 81-122), from one of its turns on. -/
def pushVariables : Parser → List ℕ → Parser
  | p, [] => p
  | p, i :: rest =>
    match p.usageOf i with
    | none => { p with reportProtocolUsable := false }
    | some usage => (p.push (p.variableItem usage)).pushVariables rest

/-- The loop over the fields of an array item (lines 69-77). -/
def pushArray (count : ℕ) : Parser :=
  (List.range count).foldl (fun p _ => p.push
    { sizeBits := p.reportSize, usageMin := p.usageMinimum, usageMax := p.usageMaximum,
      isArray := true }) p

/-- An Input item (lines 43-123). -/
def input (itemData : U32) : Parser :=
  let isConstant := itemData.getLsbD 0
  let isArray := !itemData.getLsbD 1
  if isConstant then
    p.push { sizeBits := p.reportSize * p.reportCount, isConstant := true }
  else if isArray then p.pushArray p.reportCount.toNat
  else p.pushVariables (List.range p.reportCount.toNat)

/-- What is cleared after a Main item (lines 129-131). -/
def clearLocal : Parser := { p with usages := [], usageMinimum := 0#32, usageMaximum := 0#32 }

/-- A Global item (lines 133-144). -/
def globalItem (tag : ℕ) (itemData : U32) : Parser :=
  match tag with
  | 0 => { p with usagePage := itemData }
  | 1 => { p with logicalMinimum := itemData }
  | 2 => { p with logicalMaximum := itemData }
  | 7 => { p with reportSize := itemData }
  | 9 => { p with reportCount := itemData }
  | _ => p

/-- A Local item (lines 145-155). -/
def localItem (tag : ℕ) (usage : U32) : Parser :=
  match tag with
  | 0 => { p with usages := p.usages ++ [usage] }
  | 1 => { p with usageMinimum := usage }
  | 2 => { p with usageMaximum := usage }
  | _ => p

/-- The switch over the types of items (lines 40-161). -/
def item (r : ReportItem) : Parser :=
  match r.type with
  | 0 => (if r.tag = 8 then p.input r.data else p).clearLocal
  | 1 => p.globalItem r.tag r.data
  | 2 => p.localItem r.tag (if r.size = 4 then r.data else r.data ||| p.usagePage <<< 16)
  | _ => { p with reportProtocolUsable := false }

end Parser

/-- The place behind an item, of sixteen bits: `i += item_size` and `i++`. -/
def nextItem (i : U16) (r : ReportItem) : U16 := i + BitVec.ofNat 16 r.size + 1#16

/-- The loop over the descriptor (lines 24-162), with at most `fuel` tests of its condition. -/
def parseLoop (m : ℕ → U8) (length : U16) : (fuel : ℕ) → (i : U16) → Parser → Option Parser
  | 0, _, _ => none
  | fuel + 1, i, p =>
    if i < length then
      let r := readItem m length i
      parseLoop m length fuel (nextItem i r) (p.item r)
    else some p

/-- The test of an item at `bit_offset` (lines 173-185). -/
def Refused (item : InputItem) (bitOffset : U32) : Prop :=
  item.type ≠ 0#16 ∧ item.sizeBits ≠ 1#32 ∧
    (bitOffset % 8#32 = 0#32 → item.sizeBits ≠ 8#32 ∧ item.sizeBits ≠ 16#32)

instance (item : InputItem) (bitOffset : U32) : Decidable (Refused item bitOffset) :=
  inferInstanceAs (Decidable (_ ∧ _ ∧ _))

/-- The loop over the items (lines 164-187), on `report_protocol_usable`. -/
def validate : List InputItem → (bitOffset : U32) → (usable : Bool) → Bool
  | [], _, usable => usable
  | item :: rest, bitOffset, usable =>
    validate rest (bitOffset + item.sizeBits) (if Refused item bitOffset then false else usable)

/-- The loop over the usages of an array item (lines 199-204). It does not end if the last usage is
    the largest `u32`. -/
def arrayKeys (keyBitmap : U16 → Bool) (item : InputItem) : Option (U16 → Bool) :=
  if item.usageMax = BitVec.allOnes 32 then none
  else
    let usages := List.range' item.usageMin.toNat (item.usageMax.toNat + 1 - item.usageMin.toNat)
    some (usages.foldl (fun keyBitmap usage =>
      if KeyboardPage (BitVec.ofNat 32 usage) then
        Function.update keyBitmap (keycodeOf (BitVec.ofNat 32 usage)) true
      else keyBitmap) keyBitmap)

/-- A turn of the loop over the bitmaps (lines 195-217). -/
def announce (d : Device) (item : InputItem) : Option Device :=
  if item.isArray then
    (arrayKeys d.keyBitmap item).map fun keyBitmap => { d with keyBitmap := keyBitmap }
  else if item.type = 0#16 then some d
  else
    let d := { d with evBitmap := Function.update d.evBitmap item.type true }
    if item.type = EV_KEY then
      some { d with keyBitmap := Function.update d.keyBitmap item.code true }
    else if item.type = EV_REL then
      some { d with relBitmap := Function.update d.relBitmap item.code true }
    else none

/-- `Device::parse_report_descriptor`; none if it does not return, or fails an assertion. -/
def Device.parseReportDescriptor (d : Device) (m : ℕ → U8) (length : U16) (fuel : ℕ) :
    Option Device := do
  let p ← parseLoop m length fuel 0#16 { inputItems := d.inputItems }
  if validate p.inputItems 0#32 p.reportProtocolUsable then
    p.inputItems.foldlM announce
      { d with inputItems := p.inputItems, reportProtocolUsable := true }
  else return { d with inputItems := [], reportProtocolUsable := false }

/-! ## Reports -/

/-- The arguments of `event`: what is behind the pointer, and how much of it belongs to the
    report. -/
structure Report where
  data : ℕ → U8
  length : U32

inductive Stop
  | unreachable
  /-- A byte behind the report is read. -/
  | outside
  deriving DecidableEq

/-- `data[n]`. -/
def Report.read (r : Report) (n : U32) : Except Stop U8 :=
  if n < r.length then .ok (r.data n.toNat) else .error .outside

/-- The value of a field (lines 237-256), none when the loop is left. The bit of a single one is
    shifted by the whole offset, which the processor takes modulo 32. -/
def Report.value (r : Report) (bitOffset sizeBits : U32) : Except Stop (Option U32) := do
  let byteOffset := bitOffset / 8#32
  if byteOffset ≥ r.length then return none
  if sizeBits = 1#32 then
    let byte ← r.read byteOffset
    let bit := 1#32 <<< (bitOffset % 32#32)
    return some (if byte.setWidth 32 &&& bit ≠ 0#32 then 1#32 else 0#32)
  else if bitOffset % 8#32 = 0#32 then
    if sizeBits = 8#32 then
      let byte ← r.read byteOffset
      return some (byte.signExtend 32)
    else if sizeBits = 16#32 then
      if byteOffset + 1#32 ≥ r.length then return none
      let low ← r.read byteOffset
      let high ← r.read (byteOffset + 1#32)
      return some ((high ++ low : U16).signExtend 32)
    else throw .unreachable
  else return some 0#32

namespace Device

variable (d : Device)

/-- `push_event`. -/
def pushEvent (type code : U16) (value : U32) : Device :=
  { d with events := d.events ++ [⟨type, code, value⟩] }

/-- `key_status.set`. -/
def setKey (index : U16) (state : Bool) : Device :=
  { d with keyStatus := Function.update d.keyStatus index state }

/-- `Device::process_button`. -/
def processButton (index : U16) (state : Bool) : Device :=
  if state ≠ d.keyStatus index then
    (d.setKey index state).pushEvent EV_KEY index (BitVec.ofNat 32 state.toNat)
  else d

/-- What is done with a value (lines 258-281): the device, and the `previous_value` of the item. -/
def process (item : InputItem) (value : U32) : Device × U32 :=
  if item.isArray then
    let usage := item.usageMin + value
    let oldUsage := item.usageMin + item.previousValue
    if KeyboardPage usage ∧ value ≠ item.previousValue then
      let keycode := keycodeOf usage
      let oldKeycode := keycodeOf oldUsage
      let d := (d.setKey keycode true).setKey oldKeycode false
      ((d.pushEvent EV_KEY keycode 1#32).pushEvent EV_KEY oldKeycode 0#32, value)
    else (d, item.previousValue)
  else if item.isConstant then (d, item.previousValue)
  else if item.type = EV_KEY then (d.processButton item.code (value ≠ 0#32), item.previousValue)
  else if item.type = EV_REL ∧ value ≠ 0#32 then
    (d.pushEvent EV_REL item.code value, item.previousValue)
  else (d, item.previousValue)

end Device

/-- The loop of `event` over the items (lines 234-284). -/
def eventLoop (r : Report) : List InputItem → (bitOffset : U32) → Device →
    Except Stop (List InputItem × Device)
  | [], _, d => return ([], d)
  | item :: rest, bitOffset, d => do
    match ← r.value bitOffset item.sizeBits with
    | none => return (item :: rest, d)
    | some value =>
      let (d, previousValue) := d.process item value
      let (rest, d) ← eventLoop r rest (bitOffset + item.sizeBits) d
      return ({ item with previousValue := previousValue } :: rest, d)

/-- `Device::event`. -/
def Device.event (d : Device) (r : Report) : Except Stop Device := do
  let (inputItems, d) ← eventLoop r d.inputItems 0#32 d
  return { d with inputItems := inputItems }

/-! ## The fields of a report -/

/-- A field of `size` bits at `bitOffset`, if it begins a byte, is one that `event` reads. -/
def Readable (bitOffset size : U32) : Prop :=
  bitOffset % 8#32 = 0#32 → size = 1#32 ∨ size = 8#32 ∨ size = 16#32

instance (bitOffset size : U32) : Decidable (Readable bitOffset size) :=
  inferInstanceAs (Decidable (_ → _))

/-- Every field of a report is readable, the first one being at `bitOffset`. -/
def ByteFields : List U32 → (bitOffset : U32) → Prop
  | [], _ => True
  | size :: rest, bitOffset => Readable bitOffset size ∧ ByteFields rest (bitOffset + size)

instance : ∀ sizes bitOffset, Decidable (ByteFields sizes bitOffset)
  | [], _ => .isTrue trivial
  | size :: rest, bitOffset =>
    have := instDecidableByteFields rest (bitOffset + size)
    inferInstanceAs (Decidable (_ ∧ _))

namespace ReportItem

variable (r : ReportItem)

/-- The sizes of the fields that an item stands for: a constant Input item is one field, any other
    Input item is as many as the report count says. -/
def fields (reportSize reportCount : U32) : List U32 :=
  if r.type = 0 ∧ r.tag = 8 then
    if r.data.getLsbD 0 then [reportSize * reportCount]
    else List.replicate reportCount.toNat reportSize
  else []

/-- The report size behind the item. -/
def nextSize (reportSize : U32) : U32 := if r.type = 1 ∧ r.tag = 7 then r.data else reportSize

/-- The report count behind the item. -/
def nextCount (reportCount : U32) : U32 := if r.type = 1 ∧ r.tag = 9 then r.data else reportCount

end ReportItem

/-- The sizes of the fields of a descriptor. -/
def fieldSizes : List ReportItem → (reportSize reportCount : U32) → List U32
  | [], _, _ => []
  | r :: rest, reportSize, reportCount =>
    r.fields reportSize reportCount ++
      fieldSizes rest (r.nextSize reportSize) (r.nextCount reportCount)

/-- The items of a descriptor, from `i` on. -/
def reportItems (m : ℕ → U8) (length : U16) : (fuel : ℕ) → (i : U16) → Option (List ReportItem)
  | 0, _ => none
  | fuel + 1, i =>
    if i < length then
      let r := readItem m length i
      (reportItems m length fuel (nextItem i r)).map (r :: ·)
    else some []

/-- The sizes of the fields of the descriptor at `m`. -/
def layout (m : ℕ → U8) (length : U16) (fuel : ℕ) : List U32 :=
  fieldSizes ((reportItems m length fuel 0#16).getD []) 0#32 0#32

/-! ## What an item adds -/

/-- The sizes of the fields so far. -/
def Parser.sizes (p : Parser) : List U32 := p.inputItems.map (·.sizeBits)

/-- `q` is `p` with fields of the `sizes`, or it has become unusable. -/
structure Adds (p q : Parser) (sizes : List U32) : Prop where
  reportSize : q.reportSize = p.reportSize
  reportCount : q.reportCount = p.reportCount
  usable : q.reportProtocolUsable = true → p.reportProtocolUsable = true
  sizes : q.reportProtocolUsable = true → q.sizes = p.sizes ++ sizes

namespace Adds

variable {p q q' : Parser} {l l' : List U32}

theorem refl (p : Parser) : Adds p p [] :=
  ⟨rfl, rfl, id, fun _ => (List.append_nil _).symm⟩

theorem trans (h : Adds p q l) (h' : Adds q q' l') : Adds p q' (l ++ l') where
  reportSize := h'.reportSize.trans h.reportSize
  reportCount := h'.reportCount.trans h.reportCount
  usable hu := h.usable (h'.usable hu)
  sizes hu := by rw [h'.sizes hu, h.sizes (h'.usable hu), List.append_assoc]

theorem push (p : Parser) (item : InputItem) : Adds p (p.push item) [item.sizeBits] :=
  ⟨rfl, rfl, id, fun _ => by simp [Parser.sizes, Parser.push]⟩

end Adds

namespace Parser

variable (p : Parser)

theorem pushVariables_adds (l : List ℕ) :
    ∀ p : Parser, Adds p (p.pushVariables l) (List.replicate l.length p.reportSize) := by
  induction l with
  | nil => exact Adds.refl
  | cons i rest ih =>
    intro p
    unfold pushVariables
    cases p.usageOf i with
    | none => exact ⟨rfl, rfl, fun h => absurd h (by simp), fun h => absurd h (by simp)⟩
    | some usage =>
      rw [List.length_cons, List.replicate_succ]
      exact (Adds.push p (p.variableItem usage)).trans (ih (p.push (p.variableItem usage)))

theorem pushArray_adds (count : ℕ) :
    Adds p (p.pushArray count) (List.replicate count p.reportSize) := by
  unfold pushArray
  induction count with
  | zero => exact Adds.refl p
  | succ count ih =>
    rw [List.range_succ, List.foldl_append, List.replicate_succ']
    have hpush := Adds.push ((List.range count).foldl (fun p _ => p.push
      { sizeBits := p.reportSize, usageMin := p.usageMinimum, usageMax := p.usageMaximum,
        isArray := true }) p)
    refine ih.trans ?_
    rw [← ih.reportSize]
    exact hpush _

theorem input_adds (itemData : U32) :
    Adds p (p.input itemData) (if itemData.getLsbD 0 then [p.reportSize * p.reportCount]
      else List.replicate p.reportCount.toNat p.reportSize) := by
  unfold input
  cases hconstant : itemData.getLsbD 0 with
  | true => exact Adds.push p _
  | false =>
    cases itemData.getLsbD 1 with
    | false => exact p.pushArray_adds _
    | true =>
      have h := pushVariables_adds (List.range p.reportCount.toNat) p
      rw [List.length_range] at h
      exact h

theorem clearLocal_adds : Adds p p.clearLocal [] :=
  ⟨rfl, rfl, id, fun _ => (List.append_nil _).symm⟩

theorem globalItem_spec (tag : ℕ) (itemData : U32) :
    (p.globalItem tag itemData).reportProtocolUsable = p.reportProtocolUsable ∧
    (p.globalItem tag itemData).sizes = p.sizes ∧
    (p.globalItem tag itemData).reportSize = (if tag = 7 then itemData else p.reportSize) ∧
    (p.globalItem tag itemData).reportCount = if tag = 9 then itemData else p.reportCount := by
  unfold globalItem
  split <;> simp_all [sizes]

theorem localItem_adds (tag : ℕ) (usage : U32) : Adds p (p.localItem tag usage) [] := by
  unfold localItem
  split <;> exact ⟨rfl, rfl, id, fun _ => (List.append_nil _).symm⟩

/-- A Main item adds its fields. -/
theorem main_adds (tag : ℕ) (itemData : U32) :
    Adds p (if tag = 8 then p.input itemData else p).clearLocal
      (if tag = 8 then
        if itemData.getLsbD 0 then [p.reportSize * p.reportCount]
        else List.replicate p.reportCount.toNat p.reportSize
      else []) := by
  split_ifs with htag hconstant
  all_goals have h := p.input_adds itemData
  · rw [if_pos hconstant] at h
    exact h.trans (clearLocal_adds _)
  · rw [if_neg hconstant] at h
    have hclear := h.trans (clearLocal_adds _)
    rwa [List.append_nil] at hclear
  · exact p.clearLocal_adds

theorem item_adds (r : ReportItem) :
    ((p.item r).reportProtocolUsable = true → p.reportProtocolUsable = true ∧
      (p.item r).sizes = p.sizes ++ r.fields p.reportSize p.reportCount) ∧
    (p.item r).reportSize = r.nextSize p.reportSize ∧
    (p.item r).reportCount = r.nextCount p.reportCount := by
  obtain ⟨size, type, tag, data⟩ := r
  unfold item ReportItem.fields ReportItem.nextSize ReportItem.nextCount
  match type with
  | 0 =>
    have h := p.main_adds tag data
    simp only [true_and, zero_ne_one, false_and, if_false]
    exact ⟨fun hu => ⟨h.usable hu, h.sizes hu⟩, h.reportSize, h.reportCount⟩
  | 1 =>
    obtain ⟨husable, hsizes, hsize, hcount⟩ := p.globalItem_spec tag data
    simp only [one_ne_zero, true_and, false_and, if_false, List.append_nil]
    exact ⟨fun hu => ⟨husable ▸ hu, hsizes⟩, hsize, hcount⟩
  | 2 =>
    have h := p.localItem_adds tag (if size = 4 then data else data ||| p.usagePage <<< 16)
    simp only [OfNat.ofNat_ne_zero, OfNat.ofNat_ne_one, false_and, if_false]
    exact ⟨fun hu => ⟨h.usable hu, h.sizes hu⟩, h.reportSize, h.reportCount⟩
  | n + 3 => simp

theorem foldl_usable {l : List ReportItem} :
    ∀ {p : Parser}, (l.foldl item p).reportProtocolUsable = true →
      p.reportProtocolUsable = true := by
  induction l with
  | nil => exact id
  | cons r rest ih => exact fun h => ((item_adds _ r).1 (ih h)).1

theorem foldl_sizes {l : List ReportItem} :
    ∀ {p : Parser}, (l.foldl item p).reportProtocolUsable = true →
      (l.foldl item p).sizes = p.sizes ++ fieldSizes l p.reportSize p.reportCount := by
  induction l with
  | nil => exact fun _ => (List.append_nil _).symm
  | cons r rest ih =>
    intro p h
    obtain ⟨hadds, hsize, hcount⟩ := p.item_adds r
    rw [List.foldl_cons, ih h, (hadds (foldl_usable h)).2, hsize, hcount, List.append_assoc]
    rfl

end Parser

/-- The loop over the descriptor takes its items one after the other. -/
theorem parseLoop_eq (m : ℕ → U8) (length : U16) (fuel : ℕ) :
    ∀ i p, parseLoop m length fuel i p =
      (reportItems m length fuel i).map fun items => items.foldl Parser.item p := by
  induction fuel with
  | zero => exact fun _ _ => rfl
  | succ fuel ih =>
    intro i p
    unfold parseLoop reportItems
    split_ifs
    · rw [ih, Option.map_map]
      rfl
    · rfl

theorem readItem_size (m : ℕ → U8) (length i : U16) : (readItem m length i).size ≤ 4 := by
  have h : (m i.toNat &&& 3#8).toNat ≤ 3 := by
    rw [BitVec.toNat_and]
    exact Nat.and_le_right
  unfold readItem
  simp only
  split_ifs
  · exact le_refl 4
  · omega

/-- A descriptor whose last item does not lead behind the largest `u16` is walked through. -/
theorem reportItems_ends (m : ℕ → U8) {length : U16} (hlength : length.toNat ≤ 65531) (fuel : ℕ) :
    ∀ i : U16, length.toNat - i.toNat < fuel →
      ∃ items, reportItems m length fuel i = some items := by
  induction fuel with
  | zero =>
    intro i hfuel
    omega
  | succ fuel ih =>
    intro i hfuel
    unfold reportItems
    split_ifs with hlt
    · rw [BitVec.lt_def] at hlt
      have hsize := readItem_size m length i
      have hnext : (nextItem i (readItem m length i)).toNat =
          i.toNat + (readItem m length i).size + 1 := by
        unfold nextItem
        simp only [BitVec.toNat_add, BitVec.toNat_ofNat]
        omega
      obtain ⟨items, hitems⟩ := ih (nextItem i (readItem m length i)) (by omega)
      exact ⟨readItem m length i :: items, by simp only [hitems, Option.map_some]⟩
    · exact ⟨[], rfl⟩

/-- The loop over a descriptor that the controller passes on, of at most a page (dev/xhci.cpp:665),
    ends. -/
theorem parseLoop_ends (m : ℕ → U8) {length : U16} (hlength : length.toNat ≤ 65531) (p : Parser) :
    ∃ p', parseLoop m length (length.toNat + 1) 0#16 p = some p' := by
  obtain ⟨items, hitems⟩ := reportItems_ends m hlength (length.toNat + 1) 0#16 (by simp)
  exact ⟨items.foldl Parser.item p, by rw [parseLoop_eq, hitems]; rfl⟩

/-- Four bytes of zeros. -/
theorem parseLoop_ends_zeros :
    ∃ p', parseLoop (fun _ => 0#8) 4#16 5 0#16 { inputItems := [] } = some p' :=
  parseLoop_ends _ (by decide) _

theorem announce_keeps {d d' : Device} {item : InputItem} (h : announce d item = some d') :
    d'.inputItems = d.inputItems ∧ d'.reportProtocolUsable = d.reportProtocolUsable := by
  unfold announce at h
  split_ifs at h
  · obtain ⟨keyBitmap, -, rfl⟩ := Option.map_eq_some_iff.mp h
    exact ⟨rfl, rfl⟩
  all_goals
    cases h
    exact ⟨rfl, rfl⟩

theorem foldlM_announce {items : List InputItem} :
    ∀ {d d' : Device}, items.foldlM announce d = some d' →
      d'.inputItems = d.inputItems ∧ d'.reportProtocolUsable = d.reportProtocolUsable := by
  induction items with
  | nil =>
    intro d d' h
    cases h
    exact ⟨rfl, rfl⟩
  | cons item rest ih =>
    intro d d' h
    rw [List.foldlM_cons] at h
    obtain ⟨d1, h1, h2⟩ := Option.bind_eq_some_iff.mp h
    obtain ⟨hitems, husable⟩ := announce_keeps h1
    obtain ⟨hitems', husable'⟩ := ih h2
    exact ⟨hitems'.trans hitems, husable'.trans husable⟩

theorem validate_usable {items : List InputItem} :
    ∀ {bitOffset : U32} {usable : Bool},
      validate items bitOffset usable = true → usable = true := by
  induction items with
  | nil => exact id
  | cons item rest ih =>
    intro bitOffset usable h
    unfold validate at h
    have := ih h
    split_ifs at this
    exact this

theorem parse_sizes {d d' : Device} {m : ℕ → U8} {length : U16} {fuel : ℕ}
    (h : d.parseReportDescriptor m length fuel = some d') (hu : d'.reportProtocolUsable = true) :
    d'.inputItems.map (·.sizeBits) = d.inputItems.map (·.sizeBits) ++ layout m length fuel := by
  unfold Device.parseReportDescriptor at h
  rw [parseLoop_eq] at h
  obtain ⟨p, hp, h⟩ := Option.bind_eq_some_iff.mp h
  obtain ⟨items, hitems, rfl⟩ := Option.map_eq_some_iff.mp hp
  split_ifs at h with hvalid
  · obtain ⟨hkept, -⟩ := foldlM_announce h
    have hsizes := Parser.foldl_sizes (validate_usable hvalid)
    rw [hkept, layout, hitems]
    exact hsizes
  · cases h
    cases hu

/-! ## Reports -/

namespace Report

variable (r : Report) (bitOffset sizeBits : U32)

theorem read_of_lt {n : U32} (h : n < r.length) : r.read n = .ok (r.data n.toNat) := if_pos h

/-- The field behind the report, the readable field, which may be cut off, and the other one. -/
theorem value_cases :
    (r.length ≤ bitOffset / 8#32 ∧ r.value bitOffset sizeBits = .ok none) ∨
    (Readable bitOffset sizeBits ∧ ((∃ v, r.value bitOffset sizeBits = .ok (some v)) ∨
      r.length ≤ bitOffset / 8#32 + 1#32 ∧ r.value bitOffset sizeBits = .ok none)) ∨
    (bitOffset / 8#32 < r.length ∧ ¬ Readable bitOffset sizeBits ∧
      r.value bitOffset sizeBits = .error .unreachable) := by
  unfold value Readable
  by_cases hreached : r.length ≤ bitOffset / 8#32
  · exact .inl ⟨hreached, if_pos hreached⟩
  have hlow := r.read_of_lt (BitVec.not_le.mp hreached)
  simp only [ge_iff_le, if_neg hreached, hlow, ok_bind]
  by_cases h1 : sizeBits = 1#32
  · exact .inr (.inl ⟨fun _ => .inl h1, .inl ⟨_, if_pos h1⟩⟩)
  simp only [if_neg h1]
  by_cases haligned : bitOffset % 8#32 = 0#32
  swap
  · exact .inr (.inl ⟨fun h => absurd h haligned, .inl ⟨_, if_neg haligned⟩⟩)
  simp only [if_pos haligned]
  by_cases h8 : sizeBits = 8#32
  · exact .inr (.inl ⟨fun _ => .inr (.inl h8), .inl ⟨_, if_pos h8⟩⟩)
  simp only [if_neg h8]
  by_cases h16 : sizeBits = 16#32
  · refine .inr (.inl ⟨fun _ => .inr (.inr h16), ?_⟩)
    simp only [if_pos h16]
    by_cases hcut : r.length ≤ bitOffset / 8#32 + 1#32
    · exact .inr ⟨hcut, if_pos hcut⟩
    · have hhigh := r.read_of_lt (BitVec.not_le.mp hcut)
      simp only [if_neg hcut, hhigh, ok_bind]
      exact .inl ⟨_, rfl⟩
  · refine .inr (.inr ⟨BitVec.not_le.mp hreached, ?_, if_neg h16⟩)
    intro h
    rcases h haligned with h | h | h
    · exact h1 h
    · exact h8 h
    · exact h16 h

theorem value_avoids_outside : Avoids .outside (r.value bitOffset sizeBits) := by
  rcases r.value_cases bitOffset sizeBits with ⟨-, h⟩ | ⟨-, ⟨v, h⟩ | ⟨-, h⟩⟩ | ⟨-, -, h⟩
  all_goals rw [h]
  · exact avoids_ok _ _
  · exact avoids_ok _ _
  · exact avoids_ok _ _
  · exact avoids_error (by decide)

variable {r bitOffset sizeBits}

theorem value_of_readable (h : Readable bitOffset sizeBits) :
    ∃ v, r.value bitOffset sizeBits = .ok v := by
  rcases r.value_cases bitOffset sizeBits with ⟨-, hv⟩ | ⟨-, ⟨v, hv⟩ | ⟨-, hv⟩⟩ | ⟨-, hnot, -⟩
  · exact ⟨none, hv⟩
  · exact ⟨some v, hv⟩
  · exact ⟨none, hv⟩
  · exact absurd h hnot

/-- The longest report. -/
def longest : Report := { data := fun _ => 0#8, length := BitVec.allOnes 32 }

/-- The longest report reaches every field. -/
theorem value_longest {v : Option U32} (h : longest.value bitOffset sizeBits = .ok v) :
    Readable bitOffset sizeBits ∧ v.isSome = true := by
  have hlength : longest.length.toNat = 2 ^ 32 - 1 := rfl
  have hbyte : (bitOffset / 8#32).toNat < 2 ^ 29 := by
    have := bitOffset.isLt
    rw [BitVec.toNat_udiv]
    exact Nat.div_lt_of_lt_mul this
  have hnext : (bitOffset / 8#32 + 1#32).toNat = (bitOffset / 8#32).toNat + 1 := by
    rw [BitVec.toNat_add, BitVec.toNat_ofNat]
    omega
  rcases longest.value_cases bitOffset sizeBits with
    ⟨hle, -⟩ | ⟨hread, ⟨w, hv⟩ | ⟨hle, -⟩⟩ | ⟨-, -, hv⟩
  · rw [BitVec.le_def] at hle
    omega
  · rw [hv] at h
    cases h
    exact ⟨hread, rfl⟩
  · rw [BitVec.le_def] at hle
    omega
  · rw [hv] at h
    cases h

end Report

/-! ## Runs over the items -/

theorem eventLoop_avoids_outside (r : Report) (items : List InputItem) :
    ∀ (bitOffset : U32) (d : Device), Avoids .outside (eventLoop r items bitOffset d) := by
  induction items with
  | nil => exact fun _ _ => avoids_ok _ _
  | cons item rest ih =>
    intro bitOffset d
    unfold eventLoop
    refine (r.value_avoids_outside bitOffset item.sizeBits).bind fun v _ => ?_
    cases v with
    | none => exact avoids_ok _ _
    | some value => exact (ih _ _).bind fun _ _ => avoids_ok _ _

/-- No byte behind the report is read. -/
theorem event_avoids_outside (d : Device) (r : Report) : Avoids .outside (d.event r) :=
  (eventLoop_avoids_outside r d.inputItems 0#32 d).bind fun _ _ => avoids_ok _ _

/-- The fields stay what they are. -/
theorem eventLoop_sizes {r : Report} {items : List InputItem} :
    ∀ {bitOffset : U32} {d d' : Device} {items' : List InputItem},
      eventLoop r items bitOffset d = .ok (items', d') →
      items'.map (·.sizeBits) = items.map (·.sizeBits) := by
  induction items with
  | nil =>
    intro bitOffset d d' items' h
    cases h
    rfl
  | cons item rest ih =>
    intro bitOffset d d' items' h
    unfold eventLoop at h
    obtain ⟨v, -, h⟩ := bind_ok h
    cases v with
    | none =>
      cases h
      rfl
    | some value =>
      obtain ⟨⟨rest', d1⟩, hrest, h⟩ := bind_ok h
      cases h
      rw [List.map_cons, List.map_cons, ih hrest]

theorem eventLoop_of_byteFields (r : Report) {items : List InputItem} :
    ∀ {bitOffset : U32} {d : Device}, ByteFields (items.map (·.sizeBits)) bitOffset →
      ∃ x, eventLoop r items bitOffset d = .ok x := by
  induction items with
  | nil => exact fun _ => ⟨_, rfl⟩
  | cons item rest ih =>
    intro bitOffset d h
    obtain ⟨hread, hrest⟩ := h
    obtain ⟨v, hv⟩ := r.value_of_readable hread
    unfold eventLoop
    rw [hv, ok_bind]
    cases v with
    | none => exact ⟨_, rfl⟩
    | some value =>
      obtain ⟨x, hx⟩ := ih (d := (d.process item value).1) hrest
      exact ⟨_, by simp only [hx, ok_bind]; rfl⟩

theorem byteFields_of_longest {items : List InputItem} :
    ∀ {bitOffset : U32} {d : Device} {x : List InputItem × Device},
      eventLoop .longest items bitOffset d = .ok x →
      ByteFields (items.map (·.sizeBits)) bitOffset := by
  induction items with
  | nil => exact fun _ => trivial
  | cons item rest ih =>
    intro bitOffset d x h
    unfold eventLoop at h
    obtain ⟨v, hv, h⟩ := bind_ok h
    obtain ⟨hread, hsome⟩ := Report.value_longest hv
    obtain ⟨value, rfl⟩ := Option.isSome_iff_exists.mp hsome
    obtain ⟨y, hrest, -⟩ := bind_ok h
    exact ⟨hread, ih hrest⟩

/-! ## All reports -/

/-- A report leaves the fields as they are. -/
theorem event_sizes {d d' : Device} {r : Report} (h : d.event r = .ok d') :
    d'.inputItems.map (·.sizeBits) = d.inputItems.map (·.sizeBits) := by
  obtain ⟨⟨items, d1⟩, hloop, h⟩ := bind_ok h
  cases h
  exact eventLoop_sizes hloop

theorem event_of_byteFields {d : Device} (r : Report)
    (h : ByteFields (d.inputItems.map (·.sizeBits)) 0#32) : ∃ d', d.event r = .ok d' := by
  obtain ⟨x, hx⟩ := eventLoop_of_byteFields r (d := d) h
  unfold Device.event
  exact ⟨_, by rw [hx, ok_bind]; rfl⟩

theorem reports_of_byteFields (reports : List Report) {d : Device}
    (h : ByteFields (d.inputItems.map (·.sizeBits)) 0#32) :
    ∃ d', reports.foldlM Device.event d = .ok d' := by
  refine foldlM_completes (fun d => ByteFields (d.inputItems.map (·.sizeBits)) 0#32) ?_ reports h
  intro d r hd
  obtain ⟨d1, h1⟩ := event_of_byteFields r hd
  refine ⟨d1, h1, ?_⟩
  rw [event_sizes h1]
  exact hd

/-- **Reports.** After a usable descriptor, no reports lead to `klib::unreachable` or behind
    themselves iff every field of the descriptors that begins a byte is of 1, 8 or 16 bits. -/
theorem event_total_iff {d d' : Device} {m : ℕ → U8} {length : U16} {fuel : ℕ}
    (h : d.parseReportDescriptor m length fuel = some d') (hu : d'.reportProtocolUsable = true) :
    (∀ reports : List Report, ∃ d'', reports.foldlM Device.event d' = .ok d'') ↔
      ByteFields (d.inputItems.map (·.sizeBits) ++ layout m length fuel) 0#32 := by
  rw [← parse_sizes h hu]
  constructor
  · intro hall
    obtain ⟨d'', hd''⟩ := hall [.longest]
    rw [List.foldlM_cons] at hd''
    obtain ⟨d1, h1, -⟩ := bind_ok hd''
    obtain ⟨x, hx, -⟩ := bind_ok h1
    exact byteFields_of_longest hx
  · exact fun hfields reports => reports_of_byteFields reports hfields

/-- The descriptor of a mouse: three buttons, five bits that fill the byte, and two coordinates. -/
def mouseDescriptor (i : ℕ) : U8 :=
  [0x05#8, 0x09#8, 0x19#8, 0x01#8, 0x29#8, 0x03#8, 0x75#8, 0x01#8, 0x95#8, 0x03#8, 0x81#8, 0x02#8,
   0x75#8, 0x05#8, 0x95#8, 0x01#8, 0x81#8, 0x01#8, 0x05#8, 0x01#8, 0x09#8, 0x30#8, 0x09#8, 0x31#8,
   0x75#8, 0x08#8, 0x95#8, 0x02#8, 0x81#8, 0x06#8].getD i 0#8

/-- The reports of the mouse are all processed. -/
theorem mouse_reports : ∃ d',
    ({} : Device).parseReportDescriptor mouseDescriptor 30#16 31 = some d' ∧
      ∀ reports : List Report, ∃ d'', reports.foldlM Device.event d' = .ok d'' := by
  have husable : (({} : Device).parseReportDescriptor mouseDescriptor 30#16 31).map
      (·.reportProtocolUsable) = some true := by rfl
  obtain ⟨d', h, hu⟩ := Option.map_eq_some_iff.mp husable
  exact ⟨d', h, (event_total_iff h hu).mpr (by decide +kernel)⟩

/-- The descriptor of a report that begins with 24 constant bits. -/
def paddedDescriptor (i : ℕ) : U8 := [0x75#8, 0x18#8, 0x95#8, 0x01#8, 0x81#8, 0x01#8].getD i 0#8

/-- It is usable, and the first report of a byte reaches `klib::unreachable`. -/
theorem padding_unreachable : ¬ ∀ (m : ℕ → U8) (length : U16) (fuel : ℕ) (d' : Device),
    ({} : Device).parseReportDescriptor m length fuel = some d' → d'.reportProtocolUsable = true →
    ∀ reports : List Report, ∃ d'', reports.foldlM Device.event d' = .ok d'' := by
  intro hall
  have husable : (({} : Device).parseReportDescriptor paddedDescriptor 6#16 4).map
      (·.reportProtocolUsable) = some true := by rfl
  obtain ⟨d', h, hu⟩ := Option.map_eq_some_iff.mp husable
  have hstop : ((({} : Device).parseReportDescriptor paddedDescriptor 6#16 4).map fun d' =>
      match d'.event { data := fun _ => 0#8, length := 1#32 } with
      | .ok _ => false
      | .error _ => true) = some true := by rfl
  rw [h, Option.map_some] at hstop
  obtain ⟨d'', hd''⟩ := hall _ _ _ _ h hu [{ data := fun _ => 0#8, length := 1#32 }]
  rw [List.foldlM_cons] at hd''
  obtain ⟨d1, h1, -⟩ := bind_ok hd''
  rw [h1] at hstop
  cases hstop

end Fishix.Dev.Usbhid
