import Fishix.Common.Observed
import Fishix.Dev.Usbhid

/-!
# What the descriptor parser reads

`Device::parse_report_descriptor` (dev/input/usbhid.cpp:11-218) with the bytes that it reads. The
loop over the data of an item stops a byte late, so that an item that is cut off is read one byte
behind the descriptor, and the loop over the usages of an array does not end where the last one is
the largest `u32`.

* `loadLoop_inside_iff`: the items of a descriptor that is read within its bytes end with it.
* `parse_bounded_iff`: all descriptors.
-/

namespace Fishix.Dev.Usbhid

open Observed (get)
open BitVec (ofNat lt_def)

/-! ## The parser with its reads -/

/-- The loop over the data of an item (lines 34-37), from one of its turns on. -/
def loadItemData (m : ℕ → U8) (length i : U16) : (turns offset : ℕ) → U32 → Observed U32
  | 0, _, itemData => pure itemData
  | turns + 1, offset, itemData =>
    if i.toNat + offset < length.toNat then do
      let byte ← get m (i.toNat + offset + 1)
      loadItemData m length i turns (offset + 1) (itemData ||| byte.setWidth 32 <<< (offset * 8))
    else pure itemData

/-- The item at `i` (lines 25-38). -/
def loadItem (m : ℕ → U8) (length i : U16) : Observed ReportItem := do
  let item ← get m i.toNat
  let itemSize := (item &&& 3#8).toNat
  let itemSize := if itemSize = 3 then 4 else itemSize
  let itemData ← loadItemData m length i itemSize 0 0#32
  return { size := itemSize
           type := (item >>> 2 &&& 3#8).toNat
           tag := (item >>> 4 &&& 15#8).toNat
           data := itemData }

/-- The loop over the descriptor (lines 24-162). -/
def loadLoop (m : ℕ → U8) (length : U16) :
    (fuel : ℕ) → (i : U16) → Parser → Observed (Option Parser)
  | 0, _, _ => pure none
  | fuel + 1, i, p =>
    if i < length then do
      let r ← loadItem m length i
      loadLoop m length fuel (nextItem i r) (p.item r)
    else pure (some p)

/-- What is behind the loop (lines 164-217). It does not look at the descriptor. -/
def Device.finishParse (d : Device) (p : Parser) : Option Device :=
  if validate p.inputItems 0#32 p.reportProtocolUsable then
    p.inputItems.foldlM announce
      { d with inputItems := p.inputItems, reportProtocolUsable := true }
  else some { d with inputItems := [], reportProtocolUsable := false }

/-- `Device::parse_report_descriptor` with its reads. -/
def Device.loadReportDescriptor (d : Device) (m : ℕ → U8) (length : U16) (fuel : ℕ) :
    Observed (Option Device) := do
  let p ← loadLoop m length fuel 0#16 { inputItems := d.inputItems }
  return p.bind d.finishParse

section Values

variable {m : ℕ → U8} {length i : U16}

theorem value_loadItemData (turns offset : ℕ) (itemData : U32) :
    (loadItemData m length i turns offset itemData).value =
      ((List.range' offset turns).takeWhile fun offset =>
        i.toNat + offset < length.toNat).foldl (fun itemData offset =>
          itemData ||| (m (i.toNat + offset + 1)).setWidth 32 <<< (offset * 8)) itemData := by
  induction turns generalizing offset itemData with
  | zero => rfl
  | succ turns ih =>
    rw [loadItemData, List.range'_succ, List.takeWhile_cons]
    by_cases hinside : i.toNat + offset < length.toNat
    · rw [if_pos hinside, if_pos (decide_eq_true hinside), Observed.value_bind, ih]
      rfl
    · rw [if_neg hinside, if_neg (by simpa using hinside)]
      rfl

theorem value_loadItem : (loadItem m length i).value = readItem m length i := by
  unfold loadItem readItem itemData
  simp only [Observed.value_bind, Observed.value_pure, value_loadItemData, List.range_eq_range']
  rfl

theorem value_loadLoop (fuel : ℕ) (i : U16) (p : Parser) :
    (loadLoop m length fuel i p).value = parseLoop m length fuel i p := by
  induction fuel generalizing i p with
  | zero => rfl
  | succ fuel ih =>
    unfold loadLoop parseLoop
    split_ifs
    · rw [Observed.value_bind, value_loadItem, ih]
    · rfl

/-- It computes what the parser does. -/
theorem value_loadReportDescriptor (d : Device) (fuel : ℕ) :
    (d.loadReportDescriptor m length fuel).value = d.parseReportDescriptor m length fuel := by
  unfold Device.loadReportDescriptor
  rw [Observed.value_bind, value_loadLoop]
  rfl

end Values

/-! ## Items that end with the descriptor -/

/-- The bytes belong to the descriptor. -/
def Inside (length : U16) (a : Access) : Prop := a.stop ≤ length.toNat

/-- The items of the descriptor at `m`. -/
def itemsOf (m : ℕ → U8) (length : U16) : List ReportItem :=
  (reportItems m length (length.toNat + 1) 0#16).getD []

/-- The bytes of some items. -/
def itemBytes (items : List ReportItem) : ℕ := (items.map (·.size + 1)).sum

section Inside

variable {m : ℕ → U8} {length i : U16}

theorem loadItemData_inside_iff {turns offset : ℕ} {itemData : U32}
    (h : i.toNat + offset < length.toNat) :
    (loadItemData m length i turns offset itemData).Reads (Inside length) ↔
      i.toNat + offset + turns < length.toNat := by
  induction turns generalizing offset itemData with
  | zero => simpa [loadItemData] using h
  | succ turns ih =>
    rw [loadItemData, if_pos h, Observed.reads_bind, Observed.reads_get]
    show i.toNat + offset + 1 + 1 ≤ length.toNat ∧ _ ↔ _
    by_cases hnext : i.toNat + (offset + 1) < length.toNat
    · rw [ih hnext]
      omega
    · omega

/-- An item that is cut off is read behind the descriptor. -/
theorem loadItem_inside_iff (h : i < length) : (loadItem m length i).Reads (Inside length) ↔
    i.toNat + (readItem m length i).size < length.toNat := by
  rw [lt_def] at h
  unfold loadItem readItem
  simp only [Observed.reads_bind, Observed.reads_get, Observed.reads_pure, and_true]
  rw [@loadItemData_inside_iff m length i _ 0 0#32 h]
  exact and_iff_right h

theorem toNat_nextItem (h : i < length) (hlength : length.toNat ≤ 65531) :
    (nextItem i (readItem m length i)).toNat = i.toNat + (readItem m length i).size + 1 := by
  have hsize := readItem_size m length i
  rw [lt_def] at h
  unfold nextItem
  simp only [BitVec.toNat_add, BitVec.toNat_ofNat]
  omega

/-- Nothing behind a descriptor is read iff its items end with it. -/
theorem loadLoop_inside_iff (hlength : length.toNat ≤ 65531) {fuel : ℕ} {items : List ReportItem}
    (hitems : reportItems m length fuel i = some items) (p : Parser) (h : i < length) :
    (loadLoop m length fuel i p).Reads (Inside length) ↔
      i.toNat + itemBytes items = length.toNat := by
  induction fuel generalizing i p items with
  | zero => cases hitems
  | succ fuel ih =>
    rw [reportItems, if_pos h] at hitems
    obtain ⟨rest, hrest, rfl⟩ := Option.map_eq_some_iff.mp hitems
    have hnext := toNat_nextItem (m := m) h hlength
    rw [loadLoop, if_pos h, Observed.reads_bind, loadItem_inside_iff h, value_loadItem, itemBytes,
      List.map_cons, List.sum_cons]
    by_cases hgoes : nextItem i (readItem m length i) < length
    · rw [ih hrest _ hgoes, itemBytes, hnext]
      omega
    -- the last item
    · have hstop : (loadLoop m length fuel (nextItem i (readItem m length i))
          (p.item (readItem m length i))).Reads (Inside length) ∧ rest = [] := by
        cases fuel with
        | zero => cases hrest
        | succ fuel =>
          rw [reportItems, if_neg hgoes] at hrest
          rw [loadLoop, if_neg hgoes]
          exact ⟨Observed.reads_pure _, (Option.some.inj hrest).symm⟩
      obtain ⟨hreads, rfl⟩ := hstop
      rw [lt_def] at h hgoes
      simp only [hreads, and_true, List.map_nil, List.sum_nil]
      omega

end Inside

/-! ## Usable descriptors -/

/-- What the items in front say about the fields of an Input item. -/
structure Scan where
  usagePage : U32 := 0#32
  reportSize : U32 := 0#32
  reportCount : U32 := 0#32
  usages : List U32 := []
  usageMinimum : U32 := 0#32
  usageMaximum : U32 := 0#32

namespace Scan

/-- The usage that a Local item of at most two bytes gives is one of the usage page. -/
def localUsage (s : Scan) (r : ReportItem) : U32 :=
  if r.size = 4 then r.data else r.data ||| s.usagePage <<< 16

/-- A Global item counts for all items behind it, a Local item up to the next Main item. -/
def next (s : Scan) (r : ReportItem) : Scan where
  usagePage := if r.type = 1 ∧ r.tag = 0 then r.data else s.usagePage
  reportSize := r.nextSize s.reportSize
  reportCount := r.nextCount s.reportCount
  usages := if r.type = 0 then [] else
    if r.type = 2 ∧ r.tag = 0 then s.usages ++ [s.localUsage r] else s.usages
  usageMinimum := if r.type = 0 then 0#32 else
    if r.type = 2 ∧ r.tag = 1 then s.localUsage r else s.usageMinimum
  usageMaximum := if r.type = 0 then 0#32 else
    if r.type = 2 ∧ r.tag = 2 then s.localUsage r else s.usageMaximum

/-- The usage of the `i`th field of an item: the usage of that number or the last one, or else one
    of the range. -/
def usage (s : Scan) (i : ℕ) : U32 :=
  if s.usages ≠ [] then s.usages.getD (min i (s.usages.length - 1)) 0#32
  else if s.usageMaximum < s.usageMinimum + ofNat 32 i then s.usageMaximum
  else s.usageMinimum + ofNat 32 i

/-- There is a usage for every field. -/
def HasUsages (s : Scan) : Prop := s.usages ≠ [] ∨ s.usageMinimum ≠ 0#32

/-- A field of a usage that is supported is a single bit, or begins a byte and is one or two. -/
def FieldAllowed (s : Scan) (i : ℕ) (bitOffset : U32) : Prop :=
  (typeAndCode (s.usage i)).1 ≠ 0#16 → s.reportSize = 1#32 ∨
    bitOffset % 8#32 = 0#32 ∧ (s.reportSize = 8#32 ∨ s.reportSize = 16#32)

/-- The length of the fields of an item. -/
def bits (s : Scan) (r : ReportItem) : U32 := (r.fields s.reportSize s.reportCount).sum

end Scan

/-- An Input item of variable fields. -/
def ReportItem.IsVariable (r : ReportItem) : Prop :=
  r.type = 0 ∧ r.tag = 8 ∧ ¬r.data.getLsbD 0 ∧ r.data.getLsbD 1

/-- An Input item of an array. -/
def ReportItem.IsArray (r : ReportItem) : Prop :=
  r.type = 0 ∧ r.tag = 8 ∧ ¬r.data.getLsbD 0 ∧ ¬r.data.getLsbD 1

instance (r : ReportItem) : Decidable r.IsArray := inferInstanceAs (Decidable (_ ∧ _ ∧ _ ∧ _))

/-- The item, with the first of its fields at `bitOffset`, leaves the descriptor usable. -/
structure Scan.Allows (s : Scan) (r : ReportItem) (bitOffset : U32) : Prop where
  known : r.type < 3
  usages : r.IsVariable → s.reportCount ≠ 0#32 → s.HasUsages
  fields : r.IsVariable → ∀ i < s.reportCount.toNat,
    s.FieldAllowed i (bitOffset + ofNat 32 i * s.reportSize)

/-- Every item of the descriptor does. -/
def Usable : List ReportItem → Scan → (bitOffset : U32) → Prop
  | [], _, _ => True
  | r :: rest, s, bitOffset =>
    s.Allows r bitOffset ∧ Usable rest (s.next r) (bitOffset + s.bits r)

/-- There is an array with fields whose last usage is the largest `u32`. -/
def OpenArray : List ReportItem → Scan → Prop
  | [], _ => False
  | r :: rest, s =>
    (r.IsArray ∧ s.reportCount ≠ 0#32 ∧ s.usageMaximum = BitVec.allOnes 32) ∨
      OpenArray rest (s.next r)

instance : ∀ items s, Decidable (OpenArray items s)
  | [], _ => .isFalse id
  | r :: rest, s =>
    have := instDecidableOpenArray rest (s.next r)
    inferInstanceAs (Decidable (_ ∨ _))

/-! ## The fields that the parser makes -/

/-- The loop over the usages of the field does not end. -/
def Endless (item : InputItem) : Prop := item.isArray ∧ item.usageMax = BitVec.allOnes 32

/-- The type is one of those that the bitmaps are for. -/
def Typed (item : InputItem) : Prop :=
  item.type = 0#16 ∨ item.type = EV_KEY ∨ item.type = EV_REL

/-- None of the fields is refused, the first one being at `bitOffset`. -/
def Passed : List InputItem → (bitOffset : U32) → Prop
  | [], _ => True
  | item :: rest, bitOffset => ¬Refused item bitOffset ∧ Passed rest (bitOffset + item.sizeBits)

section Fields

variable {items items' : List InputItem} {bitOffset : U32} {usable : Bool} {d : Device}

theorem validate_iff :
    validate items bitOffset usable = true ↔ usable = true ∧ Passed items bitOffset := by
  induction items generalizing bitOffset usable with
  | nil => exact (and_iff_left trivial).symm
  | cons item rest ih =>
    rw [validate, ih, Passed]
    split_ifs with hrefused
    · simp [hrefused]
    · simp [hrefused]

theorem passed_append : Passed (items ++ items') bitOffset ↔
    Passed items bitOffset ∧ Passed items' (bitOffset + (items.map (·.sizeBits)).sum) := by
  induction items generalizing bitOffset with
  | nil =>
    rw [List.map_nil, List.sum_nil]
    simp [Passed]
  | cons item rest ih =>
    rw [List.cons_append, Passed, Passed, ih, List.map_cons, List.sum_cons, and_assoc, add_assoc]

/-- A field without a type is never refused. -/
theorem passed_of_type (h : ∀ item ∈ items, item.type = 0#16) : Passed items bitOffset := by
  induction items generalizing bitOffset with
  | nil => trivial
  | cons item rest ih =>
    exact ⟨fun hrefused => hrefused.1 (h item List.mem_cons_self),
      ih fun item hitem => h item (List.mem_cons_of_mem _ hitem)⟩

/-- The bitmaps are filled for fields of known types, unless there is an endless one. -/
theorem announce_ends_iff {item : InputItem} (h : Typed item) :
    (∃ d', announce d item = some d') ↔ ¬Endless item := by
  unfold announce Endless
  by_cases harray : item.isArray = true
  · rw [if_pos harray, arrayKeys]
    by_cases hlast : item.usageMax = BitVec.allOnes 32
    · simp [harray, hlast]
    · rw [if_neg hlast]
      exact iff_of_true ⟨_, rfl⟩ fun hendless => hlast hendless.2
  · refine iff_of_true ?_ fun hendless => harray hendless.1
    rw [if_neg harray]
    rcases h with h | h | h
    · exact ⟨_, if_pos h⟩
    · rw [h]
      exact ⟨_, rfl⟩
    · rw [h]
      exact ⟨_, rfl⟩

theorem foldlM_announce_ends_iff (h : ∀ item ∈ items, Typed item) :
    (∃ d', items.foldlM announce d = some d') ↔ ∀ item ∈ items, ¬Endless item := by
  induction items generalizing d with
  | nil => simp
  | cons item rest ih =>
    have hitem := announce_ends_iff (d := d) (h item List.mem_cons_self)
    rw [List.foldlM_cons, List.forall_mem_cons, ← hitem]
    have hrest := fun d => ih (d := d) fun item hitem => h item (List.mem_cons_of_mem _ hitem)
    constructor
    · rintro ⟨d', hd'⟩
      obtain ⟨d1, h1, h2⟩ := Option.bind_eq_some_iff.mp hd'
      exact ⟨⟨d1, h1⟩, (hrest d1).mp ⟨d', h2⟩⟩
    · rintro ⟨⟨d1, h1⟩, hnone⟩
      obtain ⟨d', h2⟩ := (hrest d1).mpr hnone
      exact ⟨d', Option.bind_eq_some_iff.mpr ⟨d1, h1, h2⟩⟩

end Fields

/-! ## What an item makes -/

/-- The parser has seen what the items say. -/
structure Agrees (p : Parser) (s : Scan) : Prop where
  usagePage : p.usagePage = s.usagePage
  reportSize : p.reportSize = s.reportSize
  reportCount : p.reportCount = s.reportCount
  usages : p.usages = s.usages
  usageMinimum : p.usageMinimum = s.usageMinimum
  usageMaximum : p.usageMaximum = s.usageMaximum

/-- From `p` to `q` the fields `new` have been made, the first one being at `bitOffset`: they are
    all usable iff they are `allowed`, and one of them is endless iff there is an `endless` one. -/
structure Makes (p q : Parser) (bitOffset : U32) (allowed endless : Prop)
    (new : List InputItem) : Prop where
  items : q.inputItems = p.inputItems ++ new
  usable : q.reportProtocolUsable = true ∧ Passed new bitOffset ↔
    p.reportProtocolUsable = true ∧ allowed
  endless : q.reportProtocolUsable = true → ((∃ item ∈ new, Endless item) ↔ endless)
  typed : ∀ item ∈ new, Typed item

section Item

variable {p : Parser} {s : Scan} {bitOffset : U32}

/-- The usage of a field, where there are usages. -/
theorem Agrees.usageOf (h : Agrees p s) (i : ℕ) :
    (s.HasUsages → p.usageOf i = some (s.usage i)) ∧ (¬s.HasUsages → p.usageOf i = none) := by
  unfold Parser.usageOf Scan.usage Scan.HasUsages
  rw [h.usages, h.usageMinimum, h.usageMaximum]
  by_cases hnone : s.usages = []
  · by_cases hmin : s.usageMinimum = 0#32
    · simp [hnone, hmin]
    · simp [hnone, hmin]
  · have hlength : 0 < s.usages.length := List.length_pos_iff.mpr hnone
    refine ⟨fun _ => ?_, fun h => absurd (.inl hnone) h⟩
    rw [if_pos hnone]
    by_cases hi : i < s.usages.length
    · rw [if_pos hi, min_eq_left (by omega), List.getElem?_eq_getElem hi,
        List.getD_eq_getElem _ _ hi]
    · rw [if_neg hi, if_pos (by omega), min_eq_right (by omega),
        List.getElem?_eq_getElem (by omega), List.getD_eq_getElem _ _ (by omega)]

theorem typeAndCode_typed (usage : U32) : (typeAndCode usage).1 = 0#16 ∨
    (typeAndCode usage).1 = EV_KEY ∨ (typeAndCode usage).1 = EV_REL := by
  unfold typeAndCode
  split_ifs <;> simp

theorem refused_variable_iff (h : Agrees p s) (i : ℕ) :
    ¬Refused (p.variableItem (s.usage i)) bitOffset ↔ s.FieldAllowed i bitOffset := by
  unfold Refused Scan.FieldAllowed Parser.variableItem
  rw [h.reportSize]
  dsimp only
  tauto

theorem Agrees.push (h : Agrees p s) (item : InputItem) : Agrees (p.push item) s := { h with }

/-- Nothing is made where nothing is allowed or asked for. -/
theorem makes_nil {q : Parser} {allowed : Prop} (hitems : q.inputItems = p.inputItems)
    (husable : q.reportProtocolUsable = true ↔ p.reportProtocolUsable = true ∧ allowed) :
    Makes p q bitOffset allowed False [] :=
  ⟨by rw [hitems, List.append_nil], by rw [← husable]; exact and_iff_left trivial, by simp, by simp⟩

theorem pushVariables_makes (h : Agrees p s) (bitOffset : U32) (k n : ℕ) :
    Agrees (p.pushVariables (List.range' k n)) s ∧
    ∃ new, Makes p (p.pushVariables (List.range' k n))
      (bitOffset + ofNat 32 k * s.reportSize)
      ((n ≠ 0 → s.HasUsages) ∧ ∀ i, k ≤ i → i < k + n →
        s.FieldAllowed i (bitOffset + ofNat 32 i * s.reportSize)) False new := by
  induction n generalizing p k with
  | zero =>
    refine ⟨h, [], makes_nil rfl ⟨fun hu => ⟨hu, fun h => absurd rfl h, ?_⟩, And.left⟩⟩
    intro i hle hlt
    omega
  | succ n ih =>
    rw [List.range'_succ, Parser.pushVariables]
    by_cases husages : s.HasUsages
    swap
    · rw [(h.usageOf k).2 husages]
      refine ⟨{ h with }, [], makes_nil rfl ⟨fun hu => absurd hu (by simp), ?_⟩⟩
      exact fun hu => absurd (hu.2.1 (Nat.succ_ne_zero n)) husages
    rw [(h.usageOf k).1 husages]
    dsimp only
    obtain ⟨hagrees, new, hnew⟩ := ih (h.push (p.variableItem (s.usage k))) (k + 1)
    have hoffset : bitOffset + ofNat 32 (k + 1) * s.reportSize =
        bitOffset + ofNat 32 k * s.reportSize +
          (p.variableItem (s.usage k)).sizeBits := by
      rw [BitVec.ofNat_add, add_mul, BitVec.one_mul, ← add_assoc, Parser.variableItem, h.reportSize]
    refine ⟨hagrees, p.variableItem (s.usage k) :: new, ?_, ?_, ?_, ?_⟩
    · rw [hnew.items, Parser.push, List.append_assoc]
      rfl
    · rw [Passed, refused_variable_iff h, and_left_comm, ← hoffset, hnew.usable]
      constructor
      · rintro ⟨hfield, hu, -, hrest⟩
        refine ⟨hu, fun _ => husages, fun i hle hlt => ?_⟩
        rcases Nat.eq_or_lt_of_le hle with rfl | hlater
        · exact hfield
        · exact hrest i hlater (by omega)
      · rintro ⟨hu, -, hall⟩
        exact ⟨hall k le_rfl (by omega), hu, fun _ => husages,
          fun i hle hlt => hall i (by omega) (by omega)⟩
    · intro hu
      have hrest := hnew.endless hu
      simp only [iff_false] at hrest ⊢
      rintro ⟨item, hitem, hendless⟩
      rcases List.mem_cons.mp hitem with rfl | hitem
      · exact absurd hendless.1 (by simp [Parser.variableItem])
      · exact hrest ⟨item, hitem, hendless⟩
    · intro item hitem
      rcases List.mem_cons.mp hitem with rfl | hitem
      · exact typeAndCode_typed _
      · exact hnew.typed item hitem

/-- A field of an array item. -/
def Parser.arrayItem (p : Parser) : InputItem :=
  { sizeBits := p.reportSize, usageMin := p.usageMinimum, usageMax := p.usageMaximum,
    isArray := true }

theorem pushArray_eq (p : Parser) (count : ℕ) : p.pushArray count =
    { p with inputItems := p.inputItems ++ List.replicate count p.arrayItem } := by
  unfold Parser.pushArray
  induction count with
  | zero =>
    rw [List.replicate_zero, List.append_nil]
    rfl
  | succ count ih =>
    rw [List.range_succ, List.foldl_append, ih, List.replicate_succ', ← List.append_assoc]
    rfl

/-- Fields without a type are always usable. -/
theorem makes_untyped {q : Parser} {new : List InputItem} {allowed endless : Prop}
    (hitems : q.inputItems = p.inputItems ++ new)
    (husable : q.reportProtocolUsable = p.reportProtocolUsable)
    (htype : ∀ item ∈ new, item.type = 0#16) (hallowed : allowed)
    (hendless : (∃ item ∈ new, Endless item) ↔ endless) : Makes p q bitOffset allowed endless new :=
  ⟨hitems, by
      rw [husable]
      exact and_congr_right fun _ => iff_of_true (passed_of_type htype) hallowed,
    fun _ => hendless, fun item hitem => .inl (htype item hitem)⟩

theorem Makes.congr {q : Parser} {allowed allowed' endless endless' : Prop} {new : List InputItem}
    (h : Makes p q bitOffset allowed endless new) (hallowed : allowed ↔ allowed')
    (hendless : endless ↔ endless') : Makes p q bitOffset allowed' endless' new :=
  ⟨h.items, by rw [h.usable, hallowed], fun hu => (h.endless hu).trans hendless, h.typed⟩

theorem input_makes (h : Agrees p s) (r : ReportItem) (hr : r.type = 0 ∧ r.tag = 8)
    (bitOffset : U32) : Agrees (p.input r.data) s ∧
    ∃ new, Makes p (p.input r.data) bitOffset (s.Allows r bitOffset)
      (r.IsArray ∧ s.reportCount ≠ 0#32 ∧ s.usageMaximum = BitVec.allOnes 32) new := by
  have hknown : r.type < 3 := by omega
  unfold Parser.input
  by_cases hconstant : r.data.getLsbD 0 = true
  · rw [if_pos hconstant]
    refine ⟨h.push _, _, makes_untyped rfl rfl ?_ ?_ ?_⟩
    · simp
    · exact ⟨hknown, fun hvariable => absurd hconstant hvariable.2.2.1,
        fun hvariable => absurd hconstant hvariable.2.2.1⟩
    · refine iff_of_false ?_ fun hendless => hendless.1.2.2.1 hconstant
      simp [Endless]
  rw [if_neg hconstant]
  by_cases hvariable : r.data.getLsbD 1 = true
  · have hisVariable : r.IsVariable := ⟨hr.1, hr.2, hconstant, hvariable⟩
    obtain ⟨hagrees, new, hnew⟩ := pushVariables_makes h bitOffset 0 s.reportCount.toNat
    rw [← List.range_eq_range', ← h.reportCount] at hagrees hnew
    have hzero : bitOffset + ofNat 32 0 * s.reportSize = bitOffset := by
      rw [BitVec.zero_mul, BitVec.add_zero]
    have hcount : s.reportCount.toNat ≠ 0 ↔ s.reportCount ≠ 0#32 := by
      rw [ne_eq, ne_eq, ← BitVec.toNat_inj]
      exact Iff.rfl
    rw [hzero, h.reportCount] at hnew
    rw [if_neg (by rw [hvariable]; decide)]
    refine ⟨hagrees, new, ?_⟩
    rw [h.reportCount]
    refine hnew.congr ⟨fun hall => ⟨hknown, fun _ hne => hall.1 (hcount.mpr hne),
      fun _ i hi => hall.2 i (Nat.zero_le i) (by omega)⟩, fun hallows =>
        ⟨fun hne => hallows.usages hisVariable (hcount.mp hne),
          fun i _ hi => hallows.fields hisVariable i (by omega)⟩⟩
      (iff_of_false id fun hendless => hendless.1.2.2.2 hvariable)
  · have hisArray : r.IsArray := ⟨hr.1, hr.2, hconstant, hvariable⟩
    rw [if_pos (by rw [Bool.eq_false_iff.mpr hvariable]; rfl), pushArray_eq]
    refine ⟨{ h with }, _, makes_untyped rfl rfl ?_ ?_ ?_⟩
    · intro item hitem
      rw [List.eq_of_mem_replicate hitem]
      rfl
    · exact ⟨hknown, fun hv => absurd hv.2.2.2 hvariable, fun hv => absurd hv.2.2.2 hvariable⟩
    · have hcount : s.reportCount.toNat ≠ 0 ↔ s.reportCount ≠ 0#32 := by
        rw [ne_eq, ne_eq, ← BitVec.toNat_inj]
        exact Iff.rfl
      simp only [List.mem_replicate, Endless, Parser.arrayItem]
      rw [h.reportCount, h.usageMaximum, ← hcount, and_iff_right hisArray]
      constructor
      · rintro ⟨item, ⟨hne, rfl⟩, -, hlast⟩
        exact ⟨hne, hlast⟩
      · rintro ⟨hne, hlast⟩
        exact ⟨_, ⟨hne, rfl⟩, rfl, hlast⟩

theorem allows_of_other {r : ReportItem} (h : ¬(r.type = 0 ∧ r.tag = 8)) :
    (s.Allows r bitOffset ↔ r.type < 3) ∧ ¬(r.IsArray ∧ s.reportCount ≠ 0#32 ∧
      s.usageMaximum = BitVec.allOnes 32) := by
  refine ⟨⟨fun hallows => hallows.known, fun hknown => ⟨hknown, ?_, ?_⟩⟩, ?_⟩
  · exact fun hvariable => absurd ⟨hvariable.1, hvariable.2.1⟩ h
  · exact fun hvariable => absurd ⟨hvariable.1, hvariable.2.1⟩ h
  · exact fun harray => h ⟨harray.1.1, harray.1.2.1⟩

theorem makes_other {q : Parser} {r : ReportItem} (h : ¬(r.type = 0 ∧ r.tag = 8))
    (hitems : q.inputItems = p.inputItems)
    (husable : q.reportProtocolUsable = true ↔ p.reportProtocolUsable = true ∧ r.type < 3) :
    Makes p q bitOffset (s.Allows r bitOffset)
      (r.IsArray ∧ s.reportCount ≠ 0#32 ∧ s.usageMaximum = BitVec.allOnes 32) [] := by
  obtain ⟨hallows, hendless⟩ := @allows_of_other s bitOffset r h
  rw [← hallows] at husable
  exact (makes_nil hitems husable).congr Iff.rfl (iff_of_false id hendless)

theorem agrees_global (h : Agrees p s) (size tag : ℕ) (data : U32) :
    Agrees (p.globalItem tag data) (s.next ⟨size, 1, tag, data⟩) ∧
      (p.globalItem tag data).inputItems = p.inputItems ∧
      (p.globalItem tag data).reportProtocolUsable = p.reportProtocolUsable := by
  obtain ⟨h1, h2, h3, h4, h5, h6⟩ := h
  unfold Parser.globalItem
  split
  all_goals
    refine ⟨⟨?_, ?_, ?_, ?_, ?_, ?_⟩, rfl, rfl⟩ <;>
      simp_all [Scan.next, ReportItem.nextSize, ReportItem.nextCount]

theorem agrees_local (h : Agrees p s) (size tag : ℕ) (data : U32) :
    Agrees (p.localItem tag (s.localUsage ⟨size, 2, tag, data⟩)) (s.next ⟨size, 2, tag, data⟩) ∧
      (p.localItem tag (s.localUsage ⟨size, 2, tag, data⟩)).inputItems = p.inputItems ∧
      (p.localItem tag (s.localUsage ⟨size, 2, tag, data⟩)).reportProtocolUsable =
        p.reportProtocolUsable := by
  obtain ⟨h1, h2, h3, h4, h5, h6⟩ := h
  unfold Parser.localItem
  split
  all_goals
    refine ⟨⟨?_, ?_, ?_, ?_, ?_, ?_⟩, rfl, rfl⟩ <;>
      simp_all [Scan.next, ReportItem.nextSize, ReportItem.nextCount]

theorem item_makes (h : Agrees p s) (r : ReportItem) (bitOffset : U32) :
    Agrees (p.item r) (s.next r) ∧
    ∃ new, Makes p (p.item r) bitOffset (s.Allows r bitOffset)
      (r.IsArray ∧ s.reportCount ≠ 0#32 ∧ s.usageMaximum = BitVec.allOnes 32) new := by
  obtain ⟨size, type, tag, data⟩ := r
  match type with
  | 0 =>
    have hclear : ∀ q : Parser, Agrees q s → Agrees q.clearLocal (s.next ⟨size, 0, tag, data⟩) :=
      fun q hq => ⟨hq.1, hq.2, hq.3, rfl, rfl, rfl⟩
    unfold Parser.item
    by_cases htag : tag = 8
    · obtain ⟨hagrees, new, hnew⟩ := input_makes h ⟨size, 0, tag, data⟩ ⟨rfl, htag⟩ bitOffset
      simp only [if_pos htag]
      exact ⟨hclear _ hagrees, new, hnew.items, hnew.usable, hnew.endless, hnew.typed⟩
    · simp only [if_neg htag]
      exact ⟨hclear p h, [], makes_other (fun hr => htag hr.2) rfl
        (and_iff_left (show 0 < 3 by decide)).symm⟩
  | 1 =>
    obtain ⟨hagrees, hitems, husable⟩ := agrees_global h size tag data
    refine ⟨hagrees, [], makes_other (fun hr => absurd hr.1 one_ne_zero) hitems ?_⟩
    show (p.globalItem tag data).reportProtocolUsable = true ↔ _
    rw [husable]
    exact (and_iff_left (show 1 < 3 by decide)).symm
  | 2 =>
    have husage : p.item ⟨size, 2, tag, data⟩ =
        p.localItem tag (s.localUsage ⟨size, 2, tag, data⟩) := by
      unfold Parser.item Scan.localUsage
      rw [h.usagePage]
      rfl
    obtain ⟨hagrees, hitems, husable⟩ := agrees_local h size tag data
    rw [husage]
    refine ⟨hagrees, [], makes_other (fun hr => absurd hr.1 two_ne_zero) hitems ?_⟩
    rw [husable]
    exact (and_iff_left (show 2 < 3 by decide)).symm
  | n + 3 =>
    refine ⟨?_, [], makes_other (fun hr => absurd hr.1 (by simp)) rfl ?_⟩
    · refine ⟨?_, ?_, ?_, ?_, ?_, ?_⟩ <;>
        simp [Scan.next, ReportItem.nextSize, ReportItem.nextCount, Parser.item, h.1, h.2, h.3,
          h.4, h.5, h.6]
    · simp [Parser.item]

/-- All items of the descriptor. -/
theorem foldl_makes (items : List ReportItem) :
    ∀ {p : Parser} {s : Scan}, Agrees p s → ∀ bitOffset, ∃ new,
      Makes p (items.foldl Parser.item p) bitOffset (Usable items s bitOffset)
        (OpenArray items s) new := by
  induction items with
  | nil =>
    intro p s _ bitOffset
    exact ⟨[], makes_nil rfl (and_iff_left trivial).symm⟩
  | cons r rest ih =>
    intro p s h bitOffset
    obtain ⟨hagrees, new, hnew⟩ := item_makes h r bitOffset
    obtain ⟨new', hnew'⟩ := ih hagrees (bitOffset + s.bits r)
    have hbits : (p.item r).reportProtocolUsable = true →
        (new.map (·.sizeBits)).sum = s.bits r := by
      intro hu
      have hsizes := ((p.item_adds r).1 hu).2
      rw [Parser.sizes, hnew.items, List.map_append] at hsizes
      rw [List.append_cancel_left hsizes, Scan.bits, h.reportSize, h.reportCount]
    have husable : ((rest.foldl Parser.item (p.item r)).reportProtocolUsable = true →
        (p.item r).reportProtocolUsable = true) := Parser.foldl_usable
    refine ⟨new ++ new', ?_, ?_, ?_, ?_⟩
    · rw [List.foldl_cons, hnew'.items, hnew.items, List.append_assoc]
    · rw [List.foldl_cons, passed_append]
      have h1 := hnew.usable
      have h2 := hnew'.usable
      constructor
      · rintro ⟨hu, hpassed, hpassed'⟩
        have hu1 := husable hu
        rw [hbits hu1] at hpassed'
        exact ⟨(h1.mp ⟨hu1, hpassed⟩).1, (h1.mp ⟨hu1, hpassed⟩).2, (h2.mp ⟨hu, hpassed'⟩).2⟩
      · rintro ⟨hu, hallows, hrest⟩
        obtain ⟨hu1, hpassed⟩ := h1.mpr ⟨hu, hallows⟩
        obtain ⟨hu', hpassed'⟩ := h2.mpr ⟨hu1, hrest⟩
        rw [← hbits hu1] at hpassed'
        exact ⟨hu', hpassed, hpassed'⟩
    · intro hu
      rw [List.foldl_cons] at hu
      simp only [List.mem_append, or_and_right, exists_or]
      exact or_congr (hnew.endless (husable hu)) (hnew'.endless hu)
    · intro item hitem
      rcases List.mem_append.mp hitem with hitem | hitem
      · exact hnew.typed item hitem
      · exact hnew'.typed item hitem

end Item

/-! ## All descriptors -/

/-- A device that has been given descriptors, which is before it gets reports. -/
inductive Configured : Device → Prop
  | new : Configured {}
  | parse {d d' : Device} {m : ℕ → U8} {length : U16} {fuel : ℕ} : Configured d →
      d.parseReportDescriptor m length fuel = some d' → Configured d'

/-- Fields that the parser can take again. -/
structure Settled (items : List InputItem) : Prop where
  passed : Passed items 0#32
  ends : ∀ item ∈ items, ¬Endless item
  typed : ∀ item ∈ items, Typed item

section Descriptors

variable {d d' : Device} {m : ℕ → U8} {length i : U16}

/-- A descriptor behind others: it is usable iff its own items leave it so, and then the bitmaps are
    filled unless there is an array without an end. -/
theorem Settled.finishParse (h : Settled d.inputItems) (items : List ReportItem) :
    let p : Parser := items.foldl Parser.item { inputItems := d.inputItems }
    ((∃ d', d.finishParse p = some d') ↔
      (Usable items {} (d.inputItems.map (·.sizeBits)).sum → ¬OpenArray items {})) ∧
    (∀ d', d.finishParse p = some d' → Settled d'.inputItems) := by
  obtain ⟨new, hnew⟩ := @foldl_makes items { inputItems := d.inputItems } {}
    ⟨rfl, rfl, rfl, rfl, rfl, rfl⟩ (d.inputItems.map (·.sizeBits)).sum
  intro p
  change Makes _ p _ _ _ new at hnew
  have hitems : p.inputItems = d.inputItems ++ new := hnew.items
  have hvalid : validate p.inputItems 0#32 p.reportProtocolUsable = true ↔
      Usable items {} (d.inputItems.map (·.sizeBits)).sum := by
    rw [validate_iff, hitems, passed_append, and_iff_right h.passed, BitVec.zero_add, hnew.usable]
    exact and_iff_right rfl
  have htyped : ∀ item ∈ p.inputItems, Typed item := by
    intro item hitem
    rw [hitems] at hitem
    rcases List.mem_append.mp hitem with hitem | hitem
    · exact h.typed item hitem
    · exact hnew.typed item hitem
  unfold Device.finishParse
  by_cases husable : validate p.inputItems 0#32 p.reportProtocolUsable = true
  · have hp := validate_iff.mp husable
    rw [if_pos husable, foldlM_announce_ends_iff htyped]
    constructor
    · rw [forall_prop_of_true (hvalid.mp husable), ← hnew.endless hp.1, hitems]
      constructor
      · rintro hends ⟨item, hitem, hendless⟩
        exact hends item (List.mem_append_right _ hitem) hendless
      · intro hnone item hitem hendless
        rcases List.mem_append.mp hitem with hitem | hitem
        · exact h.ends item hitem hendless
        · exact hnone ⟨item, hitem, hendless⟩
    · intro d' hd'
      have hends := (foldlM_announce_ends_iff htyped).mp ⟨d', hd'⟩
      rw [(foldlM_announce hd').1]
      exact ⟨hp.2, hends, htyped⟩
  · rw [if_neg husable]
    constructor
    · exact iff_of_true ⟨_, rfl⟩ fun hu => absurd (hvalid.mpr hu) husable
    · intro d' hd'
      cases hd'
      exact ⟨trivial, by simp, by simp⟩

theorem parse_eq (d : Device) (m : ℕ → U8) (length : U16) (fuel : ℕ) :
    d.parseReportDescriptor m length fuel = (reportItems m length fuel 0#16).bind fun items =>
      d.finishParse (items.foldl Parser.item { inputItems := d.inputItems }) := by
  have hparse : d.parseReportDescriptor m length fuel =
      (parseLoop m length fuel 0#16 { inputItems := d.inputItems }).bind d.finishParse := rfl
  rw [hparse, parseLoop_eq, Option.bind_map]
  rfl

theorem Configured.settled (h : Configured d) : Settled d.inputItems := by
  induction h with
  | new => exact ⟨trivial, by simp, by simp⟩
  | parse _ hparse ih =>
    rw [parse_eq] at hparse
    obtain ⟨items, -, hfinish⟩ := Option.bind_eq_some_iff.mp hparse
    exact (ih.finishParse items).2 _ hfinish

/-- The items do not depend on the number of turns that are asked for. -/
theorem reportItems_unique {fuel fuel' : ℕ} {items items' : List ReportItem}
    (h : reportItems m length fuel i = some items)
    (h' : reportItems m length fuel' i = some items') : items = items' := by
  induction fuel generalizing i fuel' items items' with
  | zero => cases h
  | succ fuel ih =>
    cases fuel' with
    | zero => cases h'
    | succ fuel' =>
      unfold reportItems at h h'
      split_ifs at h h' with hlt
      · obtain ⟨rest, hrest, rfl⟩ := Option.map_eq_some_iff.mp h
        obtain ⟨rest', hrest', rfl⟩ := Option.map_eq_some_iff.mp h'
        rw [ih hrest hrest']
      · exact (Option.some.inj h).symm.trans (Option.some.inj h')

theorem loadReportDescriptor_inside_iff (hlength : length.toNat ≤ 65531) {fuel : ℕ}
    {items : List ReportItem} (hitems : reportItems m length fuel 0#16 = some items) :
    (d.loadReportDescriptor m length fuel).Reads (Inside length) ↔
      itemBytes items = length.toNat := by
  unfold Device.loadReportDescriptor
  rw [Observed.reads_bind, and_iff_left (Observed.reads_pure _)]
  by_cases hlt : 0#16 < length
  · rw [loadLoop_inside_iff hlength hitems _ hlt]
    exact ⟨fun h => (Nat.zero_add _).symm.trans h, fun h => (Nat.zero_add _).trans h⟩
  · cases fuel with
    | zero => cases hitems
    | succ fuel =>
      rw [reportItems, if_neg hlt] at hitems
      cases hitems
      rw [loadLoop, if_neg hlt]
      rw [lt_def] at hlt
      refine iff_of_true (Observed.reads_pure _) ?_
      show 0 = length.toNat
      simp only [BitVec.toNat_ofNat, Nat.zero_mod] at hlt
      omega

/-- **Descriptors.** The parser returns and reads nothing behind the descriptor iff the items of the
    descriptor end with it and, if it is usable, no array has the largest `u32` for its last
    usage. -/
theorem parse_bounded_iff (h : Configured d) (m : ℕ → U8) {length : U16}
    (hlength : length.toNat ≤ 4096) :
    (∃ fuel d', (d.loadReportDescriptor m length fuel).value = some d' ∧
      (d.loadReportDescriptor m length fuel).Reads (Inside length)) ↔
    itemBytes (itemsOf m length) = length.toNat ∧
      (Usable (itemsOf m length) {} (d.inputItems.map (·.sizeBits)).sum →
        ¬OpenArray (itemsOf m length) {}) := by
  have hshort : length.toNat ≤ 65531 := by omega
  obtain ⟨items, hitems⟩ := reportItems_ends m hshort (length.toNat + 1) 0#16 (by simp)
  have hitemsOf : itemsOf m length = items := by rw [itemsOf, hitems, Option.getD_some]
  rw [hitemsOf, ← (h.settled.finishParse items).1]
  simp only [value_loadReportDescriptor, parse_eq]
  constructor
  · rintro ⟨fuel, d', hparse, hreads⟩
    obtain ⟨items', hitems', hfinish⟩ := Option.bind_eq_some_iff.mp hparse
    have hsame := reportItems_unique hitems' hitems
    subst hsame
    exact ⟨(loadReportDescriptor_inside_iff hshort hitems').mp hreads, d', hfinish⟩
  · rintro ⟨hbytes, d', hfinish⟩
    exact ⟨length.toNat + 1, d', Option.bind_eq_some_iff.mpr ⟨items, hitems, hfinish⟩,
      (loadReportDescriptor_inside_iff hshort hitems).mpr hbytes⟩

/-- The descriptor of a mouse is read within its bytes. -/
theorem mouse_bounded : ∃ fuel d',
    (({} : Device).loadReportDescriptor mouseDescriptor 30#16 fuel).value = some d' ∧
      (({} : Device).loadReportDescriptor mouseDescriptor 30#16 fuel).Reads (Inside 30#16) := by
  refine (parse_bounded_iff .new mouseDescriptor (by decide)).mpr ⟨by rfl, fun _ => ?_⟩
  decide +kernel

/-- The descriptor that is an item without its data: the byte behind it is read. -/
theorem cut_item_read : ¬∀ (m : ℕ → U8) (length : U16), length.toNat ≤ 4096 →
    ∃ fuel d', (({} : Device).loadReportDescriptor m length fuel).value = some d' ∧
      (({} : Device).loadReportDescriptor m length fuel).Reads (Inside length) := by
  intro hall
  obtain ⟨fuel, d', hparse, hreads⟩ := hall (fun _ => 0x05#8) 1#16 (by decide)
  rw [value_loadReportDescriptor, parse_eq] at hparse
  obtain ⟨items, hitems, -⟩ := Option.bind_eq_some_iff.mp hparse
  have hbytes := (loadReportDescriptor_inside_iff (by decide) hitems).mp hreads
  have hitem : reportItems (fun _ => 0x05#8) 1#16 2 0#16 = some [⟨1, 1, 0, 5#32⟩] := by
    rfl
  rw [reportItems_unique hitems hitem] at hbytes
  exact absurd hbytes (by decide)

end Descriptors

end Fishix.Dev.Usbhid
