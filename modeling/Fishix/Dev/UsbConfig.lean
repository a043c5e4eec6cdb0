import Fishix.Common.Observed

/-!
# The walk over a USB configuration descriptor

The loop of `Controller::setup_device` (dev/xhci.cpp:572-700) over the descriptors of a
configuration, with the bytes of `config_desc` that it reads. `total_config_length` is a `u16` and
every length a `u8`, so that the `u32 ptr` does not wrap. The status of the request for a report
descriptor comes from the device; `parse_report_descriptor` is in `Dev.ReportDescriptor`.

An interface that is not supported is skipped by an inner loop on `ptr`, which stops at the next
interface, and the loop goes on by the length of the skipped one from there: the next interface is
not processed. Nothing compares a length with what is left of the buffer.

* `skipLoop_spec`: where the inner loop stops, and which descriptors it passes.
* `walksRight_iff`: the descriptors that are walked as they should be.
-/

namespace Fishix.Dev.UsbConfig

open Observed (get load)

abbrev U8 := BitVec 8
abbrev U16 := BitVec 16
abbrev U32 := BitVec 32

/-! ## Model -/

/-- `UsbRequestPacket::DESCRIPTOR_INTERFACE` (dev/xhci.hpp:138). -/
def DESCRIPTOR_INTERFACE : U8 := 0x04#8
/-- `DESCRIPTOR_ENDPOINT`. -/
def DESCRIPTOR_ENDPOINT : U8 := 0x05#8
/-- `DESCRIPTOR_HID`. -/
def DESCRIPTOR_HID : U8 := 0x21#8
/-- `DESCRIPTOR_HID_REPORT`. -/
def DESCRIPTOR_HID_REPORT : U8 := 0x22#8

/-- The object that `device->hid_device` points to. -/
inductive HidDevice where
  | mouse
  | keyboard
  deriving DecidableEq

/-- What the loop writes to an `EndpointContext` (dev/xhci.hpp:98-131). -/
structure EndpointContext where
  errorCount : U8
  endpointType : U8
  maxPacketSize : U16
  maxBurstSize : U8
  maxEsitPayloadLow : U16
  interval : U8
  deriving DecidableEq

/-- What the loop writes to an `Endpoint` (dev/xhci.hpp:233-238) and its context. -/
structure Endpoint where
  deviceContextIndex : U8
  interruptPacketSize : U8
  context : EndpointContext
  deriving DecidableEq

/-- A request for a report descriptor, and the device that it is parsed by. -/
structure ReportRequest where
  index : U8
  length : U16
  device : Option HidDevice
  deriving DecidableEq

/-- What the loop has set up. -/
structure Setup where
  currentInterfaceNum : U8 := 0#8
  hidDevice : Option HidDevice := none
  /-- `device->endpoints[1]`, the only one that is set. -/
  endpoint : Option Endpoint := none
  addFlags : U32 := 0#32
  contextEntriesCount : U8 := 0#8
  reports : List ReportRequest := []
  /-- Where the descriptors were that have been processed. -/
  processed : List ℕ := []
  deriving DecidableEq

section Model

variable (m : ℕ → U8)

/-- `case DESCRIPTOR_INTERFACE` (lines 583-599), up to the branch for other interfaces; `false`
    for those. -/
def Setup.interface (s : Setup) (ptr : ℕ) : Observed (Setup × Bool) := do
  let interfaceNum ← get m (ptr + 2)
  let classCode ← get m (ptr + 5)
  let _subClass ← get m (ptr + 6)
  let protocol ← get m (ptr + 7)
  let s := { s with currentInterfaceNum := interfaceNum }
  return if classCode = 0x3#8 ∧ protocol = 0x2#8 then ({ s with hidDevice := some .mouse }, true)
    else if classCode = 0x3#8 ∧ protocol = 0x1#8 then ({ s with hidDevice := some .keyboard }, true)
    else (s, false)

/-- The loop that skips an interface (lines 602-607), from one of its turns on. -/
def skipLoop (total : ℕ) : (fuel ptr : ℕ) → Observed (Option ℕ)
  | 0, _ => pure none
  | fuel + 1, ptr =>
    if ptr < total then do
      let descType ← get m (ptr + 1)
      if descType = DESCRIPTOR_INTERFACE then pure (some ptr)
      else do
        let descLength ← get m ptr
        if descLength = 0#8 then pure (some ptr)
        else skipLoop total fuel (ptr + descLength.toNat)
    else pure (some ptr)

/-- The interval of an endpoint (lines 622-631); `LOW_SPEED` is 2 and `FULL_SPEED` is 1. -/
def endpointInterval (portSpeed specifiedInterval : U8) : U32 :=
  if portSpeed = 2#8 ∨ portSpeed = 1#8 then
    BitVec.ofNat 32 (((List.range' 3 7).find? fun endpointInterval =>
      specifiedInterval.toNat * 1000 < 125 * 2 ^ (endpointInterval + 1)).getD 10)
  else specifiedInterval.setWidth 32 - 1#32

/-- `case DESCRIPTOR_ENDPOINT` (lines 610-658). -/
def Setup.endpointDescriptor (s : Setup) (portSpeed : U8) (ptr : ℕ) : Observed Setup := do
  let address ← get m (ptr + 2)
  let attributes ← get m (ptr + 3)
  let low ← get m (ptr + 4)
  let high ← get m (ptr + 5)
  let specifiedInterval ← get m (ptr + 6)
  let maxPacketSize := low.setWidth 16 ||| high.setWidth 16 <<< 8
  let endpointType := attributes &&& 0b11#8
  let direction := address >>> 7
  let dci := (address &&& 0xF#8) * 2#8 + direction
  return if endpointType ≠ 3#8 ∨ dci ≠ 3#8 then s
    else
      let maxBurstSize := ((maxPacketSize &&& 0x1800#16) >>> 11).setWidth 8
      { s with
        endpoint := some
          { deviceContextIndex := dci
            interruptPacketSize := maxPacketSize.setWidth 8
            context :=
              { errorCount := 3#8
                endpointType := endpointType ||| direction <<< 2
                maxPacketSize := maxPacketSize &&& 0x07FF#16
                maxBurstSize
                maxEsitPayloadLow := maxPacketSize * (maxBurstSize.setWidth 16 + 1#16)
                interval := (endpointInterval portSpeed specifiedInterval).setWidth 8 } }
        addFlags := s.addFlags ||| 1#32 <<< dci.toNat
        contextEntriesCount :=
          if s.contextEntriesCount < dci + 1#8 then dci + 1#8 else s.contextEntriesCount }

/-- The loop of `case DESCRIPTOR_HID` (lines 661-692) from its turn `i` on: the length of the
    report descriptor to ask for. -/
def reportLength (ptr : ℕ) : (turns i : ℕ) → Observed (Option U16)
  | 0, _ => pure none
  | turns + 1, i => do
    let descType ← get m (ptr + (6 + i * 3))
    let low ← get m (ptr + (7 + i * 3))
    let high ← get m (ptr + (8 + i * 3))
    let descLength := low.setWidth 16 ||| high.setWidth 16 <<< 8
    if descType = DESCRIPTOR_HID_REPORT then
      return if 4096 < descLength.toNat then none else some descLength
    else reportLength ptr turns (i + 1)

/-- The report descriptor that has been asked for is parsed. -/
def Setup.report (s : Setup) (length : U16) : Setup :=
  { s with reports := s.reports ++ [⟨s.currentInterfaceNum, length, s.hidDevice⟩] }

/-- How the `switch` over the type of a descriptor is left. -/
inductive Turn where
  /-- By a `break`, with this `ptr`. -/
  | breaks (ptr : ℕ) (s : Setup)
  /-- By `co_return`. -/
  | returns (s : Setup)
  /-- The inner loop has not ended within its bound. -/
  | diverges

/-- The `switch` (lines 582-697). `status ptr` is the status of the request that the descriptor at
    `ptr` makes. -/
def Setup.descriptor (s : Setup) (total : ℕ) (portSpeed : U8) (status : ℕ → U32) (fuel : ℕ)
    (descLength descType : U8) (ptr : ℕ) : Observed Turn :=
  if descType = DESCRIPTOR_INTERFACE then do
    let (s, supported) ← s.interface m ptr
    if supported then pure (.breaks ptr s)
    else
      match ← skipLoop m total fuel (ptr + descLength.toNat) with
      | some ptr => pure (.breaks ptr s)
      | none => pure .diverges
  else if descType = DESCRIPTOR_ENDPOINT then do
    let s ← s.endpointDescriptor m portSpeed ptr
    pure (.breaks ptr s)
  else if descType = DESCRIPTOR_HID then do
    let numDescriptors ← get m (ptr + 5)
    match ← reportLength m ptr numDescriptors.toNat 0 with
    | none => pure (.breaks ptr s)
    | some length =>
      if status ptr >>> 24 = 1#32 then pure (.breaks ptr (s.report length))
      else pure (.returns s)
  else pure (.breaks ptr s)

/-- The loop over the descriptors (lines 573-700), from one of its turns on. -/
def configLoop (total : ℕ) (portSpeed : U8) (status : ℕ → U32) :
    (fuel ptr : ℕ) → Setup → Observed (Option Setup)
  | 0, _, _ => pure none
  | fuel + 1, ptr, s =>
    if ptr < total then do
      let descLength ← get m ptr
      let descType ← get m (ptr + 1)
      if descLength = 0#8 then pure (some s)
      else do
        let _dump ← load m ptr descLength.toNat
        let s := { s with processed := s.processed ++ [ptr] }
        match ← s.descriptor m total portSpeed status fuel descLength descType ptr with
        | .breaks ptr s => configLoop total portSpeed status fuel (ptr + descLength.toNat) s
        | .returns s => pure (some s)
        | .diverges => pure none
    else pure (some s)

end Model

/-! ## What is to be walked -/

/-- The access is to bytes of the buffer. -/
def Within (total : ℕ) (a : Access) : Prop := a.stop ≤ total

section Specification

variable (m : ℕ → U8) (total : ℕ) (status : ℕ → U32)

/-- Where the descriptors of the buffer are: one after the other, up to the end or to one without
    a length. -/
def descriptors : (fuel ptr : ℕ) → List ℕ
  | 0, _ => []
  | fuel + 1, ptr =>
    if ptr < total ∧ m ptr ≠ 0#8 then ptr :: descriptors fuel (ptr + (m ptr).toNat) else []

def IsInterface (ptr : ℕ) : Prop := m (ptr + 1) = DESCRIPTOR_INTERFACE

/-- The interface is neither a mouse nor a keyboard. -/
def Unsupported (ptr : ℕ) : Prop :=
  IsInterface m ptr ∧ ¬(m (ptr + 5) = 0x3#8 ∧ (m (ptr + 7) = 0x2#8 ∨ m (ptr + 7) = 0x1#8))

instance (ptr : ℕ) : Decidable (IsInterface m ptr) := inferInstanceAs (Decidable (_ = _))

instance (ptr : ℕ) : Decidable (Unsupported m ptr) := inferInstanceAs (Decidable (_ ∧ _))

/-- The report descriptor that the descriptor at `ptr` names is asked for, and not got. -/
def RequestFails (ptr : ℕ) : Prop :=
  m (ptr + 1) = DESCRIPTOR_HID ∧ (reportLength m ptr (m (ptr + 5)).toNat 0).value ≠ none ∧
    status ptr >>> 24 ≠ 1#32

instance (ptr : ℕ) : Decidable (RequestFails m status ptr) :=
  inferInstanceAs (Decidable (_ ∧ _ ∧ _))

/-- The descriptors without those that follow an unsupported interface, up to the next interface. -/
def selected : (skipping : Bool) → List ℕ → List ℕ
  | _, [] => []
  | skipping, ptr :: rest =>
    if IsInterface m ptr then ptr :: selected (Unsupported m ptr) rest
    else if skipping then selected true rest
    else ptr :: selected false rest

/-- The descriptors up to one whose request fails: the device is given up there. -/
def untilFailure : List ℕ → List ℕ
  | [] => []
  | ptr :: rest => if RequestFails m status ptr then [ptr] else ptr :: untilFailure rest

/-- The descriptors that are to be processed, in order. -/
def expected (fuel start : ℕ) : List ℕ :=
  untilFailure m status (selected m false (descriptors m total fuel start))

/-- The loop ends, reads bytes of the buffer only, and processes what is to be processed. -/
def WalksRight (portSpeed : U8) (start : ℕ) (s : Setup) : Prop :=
  let walk := configLoop m total portSpeed status (total + 1) start s
  walk.Reads (Within total) ∧
    ∃ s', walk.value = some s' ∧
      s'.processed = s.processed ++ expected m total status (total + 1) start

/-- The descriptor, which has a length, ends within the buffer, and so does what is read of it by
    its type. -/
structure Whole (ptr : ℕ) : Prop where
  length : ptr + (m ptr).toNat ≤ total
  interface : IsInterface m ptr → ptr + 8 ≤ total
  endpoint : m (ptr + 1) = DESCRIPTOR_ENDPOINT → ptr + 7 ≤ total
  hid : m (ptr + 1) = DESCRIPTOR_HID → ptr + 6 ≤ total
  /-- The entries up to the first one for a report descriptor. -/
  entries : m (ptr + 1) = DESCRIPTOR_HID → ∀ i < (m (ptr + 5)).toNat,
    (∀ j < i, m (ptr + (6 + j * 3)) ≠ DESCRIPTOR_HID_REPORT) → ptr + (9 + i * 3) ≤ total

instance (ptr : ℕ) : Decidable (Whole m total ptr) :=
  decidable_of_iff (ptr + (m ptr).toNat ≤ total ∧ (IsInterface m ptr → ptr + 8 ≤ total) ∧
      (m (ptr + 1) = DESCRIPTOR_ENDPOINT → ptr + 7 ≤ total) ∧
      (m (ptr + 1) = DESCRIPTOR_HID → ptr + 6 ≤ total) ∧
      (m (ptr + 1) = DESCRIPTOR_HID → ∀ i < (m (ptr + 5)).toNat,
        (∀ j < i, m (ptr + (6 + j * 3)) ≠ DESCRIPTOR_HID_REPORT) → ptr + (9 + i * 3) ≤ total))
    ⟨fun h => ⟨h.1, h.2.1, h.2.2.1, h.2.2.2.1, h.2.2.2.2⟩,
      fun h => ⟨h.length, h.interface, h.endpoint, h.hid, h.entries⟩⟩

/-- No interface follows from `ptr` on, where an unsupported one of `length` bytes is skipped: the
    descriptors go on, two bytes of each in the buffer, up to its end or to one without a length.
    Behind that one, `length` bytes on, is the end or another one without a length. -/
def NoneFollows (length : ℕ) : (fuel ptr : ℕ) → Prop
  | 0, _ => False
  | fuel + 1, ptr => ptr < total → ptr + 1 < total ∧
    if m ptr = 0#8 then
      ptr + length < total → ptr + length + 1 < total ∧ m (ptr + length) = 0#8
    else ¬IsInterface m ptr ∧ NoneFollows length fuel (ptr + (m ptr).toNat)

/-- The descriptors from `ptr` on are whole, up to the end of the buffer, to one without a length
    that has two bytes in it, to a request that fails, or to an unsupported interface that no
    other follows. -/
def Orderly : (fuel ptr : ℕ) → Prop
  | 0, _ => False
  | fuel + 1, ptr => ptr < total → ptr + 1 < total ∧
    (m ptr ≠ 0#8 → Whole m total ptr ∧
      if Unsupported m ptr then NoneFollows m total (m ptr).toNat fuel (ptr + (m ptr).toNat)
      else RequestFails m status ptr ∨ Orderly fuel (ptr + (m ptr).toNat))

instance (length : ℕ) : ∀ fuel ptr, Decidable (NoneFollows m total length fuel ptr)
  | 0, _ => .isFalse id
  | fuel + 1, ptr =>
    have := instDecidableNoneFollows length fuel (ptr + (m ptr).toNat)
    inferInstanceAs (Decidable (_ → _ ∧ ite _ _ _))

instance : ∀ fuel ptr, Decidable (Orderly m total status fuel ptr)
  | 0, _ => .isFalse id
  | fuel + 1, ptr =>
    have := instDecidableOrderly fuel (ptr + (m ptr).toNat)
    inferInstanceAs (Decidable (_ → _ ∧ (_ → _ ∧ ite _ _ _)))

end Specification

/-! ## Skipping an interface -/

section Walk

variable (m : ℕ → U8) (total : ℕ) (status : ℕ → U32) (portSpeed : U8)

theorem toNat_pos_of_ne {x : U8} (h : x ≠ 0#8) : 0 < x.toNat :=
  Nat.pos_of_ne_zero fun hzero => h (BitVec.eq_of_toNat_eq hzero)

theorem reads_get_iff (ptr : ℕ) : (get m ptr).Reads (Within total) ↔ ptr < total :=
  Observed.reads_get

theorem skipLoop_stop {n ptr : ℕ} (hptr : ptr < total)
    (h : IsInterface m ptr ∨ m ptr = 0#8) : (skipLoop m total (n + 1) ptr).value = some ptr ∧
      ((skipLoop m total (n + 1) ptr).Reads (Within total) ↔ ptr + 1 < total) := by
  rw [skipLoop, if_pos hptr, Observed.value_bind, Observed.reads_bind, reads_get_iff]
  change (ite (IsInterface m ptr) _ _ : Observed (Option ℕ)).value = _ ∧
    (_ ∧ (ite (IsInterface m ptr) _ _ : Observed (Option ℕ)).Reads (Within total) ↔ _)
  by_cases hinterface : IsInterface m ptr
  · rw [if_pos hinterface]
    exact ⟨rfl, and_iff_left (Observed.reads_pure _)⟩
  · have hzero := h.resolve_left hinterface
    rw [if_neg hinterface, Observed.value_bind, Observed.reads_bind, reads_get_iff]
    change (ite (m ptr = 0#8) _ _ : Observed (Option ℕ)).value = _ ∧
      (_ ∧ _ ∧ (ite (m ptr = 0#8) _ _ : Observed (Option ℕ)).Reads (Within total) ↔ _)
    rw [if_pos hzero]
    exact ⟨rfl, and_iff_left ⟨hptr, Observed.reads_pure _⟩⟩

theorem skipLoop_next {n ptr : ℕ} (hptr : ptr < total) (hinterface : ¬IsInterface m ptr)
    (hzero : m ptr ≠ 0#8) :
    (skipLoop m total (n + 1) ptr).value =
      (skipLoop m total n (ptr + (m ptr).toNat)).value ∧
    ((skipLoop m total (n + 1) ptr).Reads (Within total) ↔ ptr + 1 < total ∧
      (skipLoop m total n (ptr + (m ptr).toNat)).Reads (Within total)) := by
  rw [skipLoop, if_pos hptr, Observed.value_bind, Observed.reads_bind, reads_get_iff]
  change (ite (IsInterface m ptr) _ _ : Observed (Option ℕ)).value = _ ∧
    (_ ∧ (ite (IsInterface m ptr) _ _ : Observed (Option ℕ)).Reads (Within total) ↔ _)
  rw [if_neg hinterface, Observed.value_bind, Observed.reads_bind, reads_get_iff]
  change (ite (m ptr = 0#8) _ _ : Observed (Option ℕ)).value = _ ∧
    (_ ∧ _ ∧ (ite (m ptr = 0#8) _ _ : Observed (Option ℕ)).Reads (Within total) ↔ _)
  rw [if_neg hzero]
  exact ⟨rfl, and_congr_right fun _ => and_iff_right hptr⟩

/-- The inner loop stops at the end or at a descriptor without a length, where nothing else is to
    be processed, or at the next interface, which is to be processed. -/
theorem skipLoop_spec {n ptr : ℕ} (length : ℕ) (h : total - ptr < n) :
    ∃ q, (skipLoop m total n ptr).value = some q ∧ ptr ≤ q ∧
      (((total ≤ q ∨ m q = 0#8) ∧ selected m true (descriptors m total n ptr) = [] ∧
          (NoneFollows m total length n ptr ↔ (skipLoop m total n ptr).Reads (Within total) ∧
            (q + length < total → q + length + 1 < total ∧ m (q + length) = 0#8))) ∨
        (∃ rest, selected m true (descriptors m total n ptr) = q :: rest) ∧
          ¬NoneFollows m total length n ptr) := by
  induction n generalizing ptr with
  | zero => exact absurd h (Nat.not_lt_zero _)
  | succ n ih =>
    rw [descriptors, NoneFollows]
    by_cases hptr : ptr < total
    swap
    · have hend : ptr + length < total → ptr + length + 1 < total ∧ m (ptr + length) = 0#8 :=
        fun hlt => absurd hlt (by omega)
      rw [if_neg fun hboth => hptr hboth.1, skipLoop, if_neg hptr]
      exact ⟨ptr, rfl, le_rfl, .inl ⟨.inl (by omega), rfl,
        iff_of_true (fun hlt => absurd hlt hptr) ⟨Observed.reads_pure _, hend⟩⟩⟩
    rw [imp_iff_right hptr]
    by_cases hzero : m ptr = 0#8
    -- a descriptor without a length
    · obtain ⟨hvalue, hreads⟩ := skipLoop_stop m total (n := n) hptr (.inr hzero)
      rw [if_neg fun hboth => hboth.2 hzero, if_pos hzero, hreads]
      exact ⟨ptr, hvalue, le_rfl, .inl ⟨.inr hzero, rfl, Iff.rfl⟩⟩
    rw [if_pos ⟨hptr, hzero⟩, if_neg hzero, selected]
    by_cases hinterface : IsInterface m ptr
    -- the next interface
    · obtain ⟨hvalue, -⟩ := skipLoop_stop m total (n := n) hptr (.inl hinterface)
      rw [if_pos hinterface]
      exact ⟨ptr, hvalue, le_rfl, .inr ⟨⟨_, rfl⟩, fun hnone => hnone.2.1 hinterface⟩⟩
    -- a descriptor that is skipped
    · have hlength := toNat_pos_of_ne hzero
      obtain ⟨q, hq, hle, hcases⟩ := @ih (ptr + (m ptr).toNat) (by omega)
      obtain ⟨hvalue, hreads⟩ := skipLoop_next m total (n := n) hptr hinterface hzero
      rw [if_neg hinterface, if_pos rfl, hreads, hvalue]
      refine ⟨q, hq, by omega, ?_⟩
      rcases hcases with ⟨hend, hnil, hnone⟩ | ⟨hrest, hnone⟩
      · refine .inl ⟨hend, hnil, ?_⟩
        rw [and_iff_right hinterface, hnone, and_assoc]
      · exact .inr ⟨hrest, fun hall => hnone hall.2.2⟩

/-! ## One descriptor -/

theorem interface_spec (s : Setup) (ptr : ℕ) :
    (s.interface m ptr).value.1.processed = s.processed ∧
    ((s.interface m ptr).value.2 = true ↔
      m (ptr + 5) = 0x3#8 ∧ (m (ptr + 7) = 0x2#8 ∨ m (ptr + 7) = 0x1#8)) ∧
    ((s.interface m ptr).Reads (Within total) ↔ ptr + 8 ≤ total) := by
  refine ⟨?_, ?_, ?_⟩
  · unfold Setup.interface
    simp only [Observed.value_bind, Observed.value_pure]
    split_ifs <;> rfl
  · unfold Setup.interface
    simp only [Observed.value_bind, Observed.value_pure]
    change (ite (m (ptr + 5) = 0x3#8 ∧ m (ptr + 7) = 0x2#8) _
      (ite (m (ptr + 5) = 0x3#8 ∧ m (ptr + 7) = 0x1#8) _ _) : Setup × Bool).2 = true ↔ _
    split_ifs with hmouse hkeyboard
    · exact iff_of_true rfl ⟨hmouse.1, .inl hmouse.2⟩
    · exact iff_of_true rfl ⟨hkeyboard.1, .inr hkeyboard.2⟩
    · refine iff_of_false id ?_
      rintro ⟨hclass, h | h⟩
      · exact hmouse ⟨hclass, h⟩
      · exact hkeyboard ⟨hclass, h⟩
  · unfold Setup.interface
    simp only [Observed.reads_bind, reads_get_iff, Observed.reads_pure, and_true]
    omega

theorem endpointDescriptor_spec (s : Setup) (ptr : ℕ) :
    (s.endpointDescriptor m portSpeed ptr).value.processed = s.processed ∧
    ((s.endpointDescriptor m portSpeed ptr).Reads (Within total) ↔ ptr + 7 ≤ total) := by
  unfold Setup.endpointDescriptor
  constructor
  · simp only [Observed.value_bind, Observed.value_pure]
    split_ifs <;> rfl
  · simp only [Observed.reads_bind, reads_get_iff, Observed.reads_pure, and_true]
    omega

theorem reportLength_reads (ptr turns i : ℕ) :
    (reportLength m ptr turns i).Reads (Within total) ↔ ∀ k < turns,
      (∀ j < k, m (ptr + (6 + (i + j) * 3)) ≠ DESCRIPTOR_HID_REPORT) →
        ptr + (9 + (i + k) * 3) ≤ total := by
  induction turns generalizing i with
  | zero => exact iff_of_true (Observed.reads_pure _) fun k hk => absurd hk (Nat.not_lt_zero k)
  | succ turns ih =>
    rw [reportLength]
    simp only [Observed.reads_bind, reads_get_iff]
    change _ ∧ _ ∧ _ ∧ (ite (m (ptr + (6 + i * 3)) = DESCRIPTOR_HID_REPORT) _ _ :
      Observed (Option U16)).Reads (Within total) ↔ _
    have hfirst : ((∀ j < 0, m (ptr + (6 + (i + j) * 3)) ≠ DESCRIPTOR_HID_REPORT) →
        ptr + (9 + (i + 0) * 3) ≤ total) ↔ ptr + (6 + i * 3) < total ∧
          ptr + (7 + i * 3) < total ∧ ptr + (8 + i * 3) < total := by
      rw [imp_iff_right fun j hj => absurd hj (Nat.not_lt_zero j)]
      omega
    rw [Nat.forall_lt_succ_left, hfirst, and_assoc, and_assoc]
    refine and_congr_right fun _ => and_congr_right fun _ => and_congr_right fun _ => ?_
    by_cases hreport : m (ptr + (6 + i * 3)) = DESCRIPTOR_HID_REPORT
    · rw [if_pos hreport]
      exact iff_of_true (Observed.reads_pure _)
        fun k _ hnone => absurd hreport (hnone 0 (Nat.succ_pos k))
    · rw [if_neg hreport, ih]
      have hshift : ∀ j, i + 1 + j = i + (j + 1) := fun j => by omega
      have hnot : m (ptr + (6 + (i + 0) * 3)) ≠ DESCRIPTOR_HID_REPORT := hreport
      refine forall₂_congr fun k _ => ?_
      rw [Nat.forall_lt_succ_left, and_iff_right hnot]
      simp only [hshift]

theorem value_get (ptr : ℕ) : (get m ptr).value = m ptr := rfl

theorem reads_load_iff (ptr length : ℕ) :
    (load m ptr length).Reads (Within total) ↔ ptr + length ≤ total :=
  Observed.reads_load

theorem configLoop_end {n ptr : ℕ} (s : Setup) (hptr : ¬ptr < total) :
    configLoop m total portSpeed status (n + 1) ptr s = pure (some s) := by
  rw [configLoop, if_neg hptr]

theorem configLoop_zero {n ptr : ℕ} (s : Setup) (hptr : ptr < total) (hzero : m ptr = 0#8) :
    (configLoop m total portSpeed status (n + 1) ptr s).value = some s ∧
      ((configLoop m total portSpeed status (n + 1) ptr s).Reads (Within total) ↔
        ptr + 1 < total) := by
  rw [configLoop, if_pos hptr]
  simp only [Observed.value_bind, Observed.reads_bind, reads_get_iff]
  change (ite (m ptr = 0#8) _ _ : Observed (Option Setup)).value = _ ∧
    (_ ∧ _ ∧ (ite (m ptr = 0#8) _ _ : Observed (Option Setup)).Reads (Within total) ↔ _)
  rw [if_pos hzero, and_iff_right hptr]
  exact ⟨rfl, and_iff_left (Observed.reads_pure _)⟩

section Descriptor

variable {n ptr : ℕ} (s : Setup)

theorem descriptor_interface (hinterface : m (ptr + 1) = DESCRIPTOR_INTERFACE) :
    ∃ s1 : Setup, s1.processed = s.processed ∧
      (s.descriptor m total portSpeed status n (m ptr) (m (ptr + 1)) ptr).value =
        (if Unsupported m ptr then
          match (skipLoop m total n (ptr + (m ptr).toNat)).value with
          | some q => .breaks q s1
          | none => .diverges
        else .breaks ptr s1) ∧
      (ptr + (m ptr).toNat ≤ total ∧
          (s.descriptor m total portSpeed status n (m ptr) (m (ptr + 1)) ptr).Reads
            (Within total) ↔
        Whole m total ptr ∧ (Unsupported m ptr →
          (skipLoop m total n (ptr + (m ptr).toNat)).Reads (Within total))) := by
  have hwhole : Whole m total ptr ↔ ptr + (m ptr).toNat ≤ total ∧ ptr + 8 ≤ total := by
    refine ⟨fun h => ⟨h.length, h.interface hinterface⟩,
      fun h => ⟨h.1, fun _ => h.2, ?_, ?_, ?_⟩⟩
    all_goals
      intro htype
      exact absurd (hinterface.symm.trans htype) (by decide)
  obtain ⟨hprocessed, hsupported, hreads⟩ := interface_spec m total s ptr
  unfold Setup.descriptor
  rw [if_pos hinterface, Observed.value_bind, Observed.reads_bind, hreads, hwhole, and_assoc]
  refine ⟨(s.interface m ptr).value.1, hprocessed, ?_⟩
  by_cases hu : Unsupported m ptr
  · have hvalue : ¬(s.interface m ptr).value.2 = true := fun h => hu.2 (hsupported.mp h)
    simp only [if_neg hvalue, if_pos hu, Observed.value_bind, Observed.reads_bind,
      imp_iff_right hu]
    cases (skipLoop m total n (ptr + (m ptr).toNat)).value with
    | some q =>
      exact ⟨rfl, and_congr_right fun _ => and_congr_right fun _ =>
        and_iff_left (Observed.reads_pure _)⟩
    | none =>
      exact ⟨rfl, and_congr_right fun _ => and_congr_right fun _ =>
        and_iff_left (Observed.reads_pure _)⟩
  · have hvalue : (s.interface m ptr).value.2 = true :=
      hsupported.mpr (not_not.mp fun h => hu ⟨hinterface, h⟩)
    simp only [if_pos hvalue, if_neg hu]
    exact ⟨rfl, and_congr_right fun _ => and_congr_right fun _ =>
      iff_of_true (Observed.reads_pure _) (absurd · hu)⟩

theorem descriptor_other (hinterface : m (ptr + 1) ≠ DESCRIPTOR_INTERFACE) :
    ∃ s1 : Setup, s1.processed = s.processed ∧
      (s.descriptor m total portSpeed status n (m ptr) (m (ptr + 1)) ptr).value =
        (if RequestFails m status ptr then .returns s1 else .breaks ptr s1) ∧
      (ptr + (m ptr).toNat ≤ total ∧
          (s.descriptor m total portSpeed status n (m ptr) (m (ptr + 1)) ptr).Reads
            (Within total) ↔
        Whole m total ptr) := by
  unfold Setup.descriptor
  rw [if_neg hinterface]
  by_cases hendpoint : m (ptr + 1) = DESCRIPTOR_ENDPOINT
  · have hwhole : Whole m total ptr ↔ ptr + (m ptr).toNat ≤ total ∧ ptr + 7 ≤ total := by
      refine ⟨fun h => ⟨h.length, h.endpoint hendpoint⟩,
        fun h => ⟨h.1, fun h => absurd h hinterface, fun _ => h.2, ?_, ?_⟩⟩
      all_goals
        intro htype
        exact absurd (hendpoint.symm.trans htype) (by decide)
    have hfails : ¬RequestFails m status ptr :=
      fun h => absurd (hendpoint.symm.trans h.1) (by decide)
    obtain ⟨hprocessed, hreads⟩ :=
      endpointDescriptor_spec m total portSpeed s ptr
    simp only [if_pos hendpoint, if_neg hfails, Observed.value_bind, Observed.reads_bind, hreads,
      hwhole]
    exact ⟨_, hprocessed, rfl, and_congr_right fun _ => and_iff_left (Observed.reads_pure _)⟩
  rw [if_neg hendpoint]
  by_cases hhid : m (ptr + 1) = DESCRIPTOR_HID
  · have hwhole : Whole m total ptr ↔ ptr + (m ptr).toNat ≤ total ∧ ptr + 5 < total ∧
        (reportLength m ptr (m (ptr + 5)).toNat 0).Reads (Within total) := by
      rw [reportLength_reads]
      simp only [Nat.zero_add]
      exact ⟨fun h => ⟨h.length, h.hid hhid, h.entries hhid⟩, fun h => ⟨h.1,
        fun h => absurd h hinterface, fun h => absurd h hendpoint, fun _ => h.2.1,
        fun _ => h.2.2⟩⟩
    obtain ⟨r, hr⟩ : ∃ r, (reportLength m ptr (m (ptr + 5)).toNat 0).value = r := ⟨_, rfl⟩
    rw [if_pos hhid]
    simp only [Observed.value_bind, Observed.reads_bind, reads_get_iff, value_get, hwhole, hr]
    have hend : ∀ turn : Turn, (ptr + (m ptr).toNat ≤ total ∧ ptr + 5 < total ∧
        (reportLength m ptr (m (ptr + 5)).toNat 0).Reads (Within total) ∧
          (pure turn : Observed Turn).Reads (Within total) ↔
        ptr + (m ptr).toNat ≤ total ∧ ptr + 5 < total ∧
          (reportLength m ptr (m (ptr + 5)).toNat 0).Reads (Within total)) := by
      intro turn
      rw [and_iff_left (Observed.reads_pure turn)]
    cases r with
    | none =>
      have hfails : ¬RequestFails m status ptr := fun h => h.2.1 hr
      refine ⟨s, rfl, ?_, hend _⟩
      rw [if_neg hfails]
      rfl
    | some length =>
      dsimp only
      by_cases hstatus : status ptr >>> 24 = 1#32
      · have hfails : ¬RequestFails m status ptr := fun h => h.2.2 hstatus
        simp only [if_pos hstatus, if_neg hfails]
        exact ⟨s.report length, rfl, rfl, hend _⟩
      · have hfails : RequestFails m status ptr :=
          ⟨hhid, by rw [hr]; exact Option.some_ne_none length, hstatus⟩
        simp only [if_neg hstatus, if_pos hfails]
        exact ⟨s, rfl, rfl, hend _⟩
  · have hwhole : Whole m total ptr ↔ ptr + (m ptr).toNat ≤ total :=
      ⟨fun h => h.length, fun h => ⟨h, (absurd · hinterface), (absurd · hendpoint),
        (absurd · hhid), (absurd · hhid)⟩⟩
    have hfails : ¬RequestFails m status ptr := fun h => hhid h.1
    simp only [if_neg hhid, if_neg hfails, hwhole]
    exact ⟨s, rfl, rfl, and_iff_left (Observed.reads_pure _)⟩

theorem not_requestFails (hinterface : IsInterface m ptr) : ¬RequestFails m status ptr :=
  fun h => absurd (hinterface.symm.trans h.1) (by decide)

/-- How the `switch` is left, and that it reads what a whole descriptor has. -/
theorem descriptor_spec : ∃ s1 : Setup, s1.processed = s.processed ∧
    (s.descriptor m total portSpeed status n (m ptr) (m (ptr + 1)) ptr).value =
      (if Unsupported m ptr then
        match (skipLoop m total n (ptr + (m ptr).toNat)).value with
        | some q => .breaks q s1
        | none => .diverges
      else if RequestFails m status ptr then .returns s1 else .breaks ptr s1) ∧
    (ptr + (m ptr).toNat ≤ total ∧
        (s.descriptor m total portSpeed status n (m ptr) (m (ptr + 1)) ptr).Reads (Within total) ↔
      Whole m total ptr ∧ (Unsupported m ptr →
        (skipLoop m total n (ptr + (m ptr).toNat)).Reads (Within total))) := by
  by_cases hinterface : IsInterface m ptr
  · obtain ⟨s1, hprocessed, hvalue, hreads⟩ := descriptor_interface m total status portSpeed
      (n := n) s hinterface
    refine ⟨s1, hprocessed, ?_, hreads⟩
    rw [hvalue, if_neg (not_requestFails m status hinterface)]
  · obtain ⟨s1, hprocessed, hvalue, hreads⟩ := descriptor_other m total status portSpeed
      (n := n) s hinterface
    have hu : ¬Unsupported m ptr := fun h => hinterface h.1
    refine ⟨s1, hprocessed, ?_, ?_⟩
    · rw [hvalue, if_neg hu]
    · rw [hreads, and_iff_left fun h => absurd h hu]

end Descriptor

/-- What is left of the loop behind a `switch`. -/
def Turn.rest (m : ℕ → U8) (total : ℕ) (portSpeed : U8) (status : ℕ → U32) (fuel length : ℕ) :
    Turn → Observed (Option Setup)
  | .breaks ptr s => configLoop m total portSpeed status fuel (ptr + length) s
  | .returns s => pure (some s)
  | .diverges => pure none

theorem configLoop_turn {n ptr : ℕ} (s : Setup) (hptr : ptr < total) (hzero : m ptr ≠ 0#8) :
    let turn := ({ s with processed := s.processed ++ [ptr] } : Setup).descriptor m total portSpeed
      status n (m ptr) (m (ptr + 1)) ptr
    (configLoop m total portSpeed status (n + 1) ptr s).value =
      (turn.value.rest m total portSpeed status n (m ptr).toNat).value ∧
    ((configLoop m total portSpeed status (n + 1) ptr s).Reads (Within total) ↔
      ptr + 1 < total ∧ ptr + (m ptr).toNat ≤ total ∧ turn.Reads (Within total) ∧
        (turn.value.rest m total portSpeed status n (m ptr).toNat).Reads (Within total)) := by
  rw [configLoop, if_pos hptr]
  simp only [Observed.value_bind, Observed.reads_bind, reads_get_iff]
  rw [and_iff_right hptr]
  change (ite (m ptr = 0#8) _ _ : Observed (Option Setup)).value = _ ∧
    (_ ∧ (ite (m ptr = 0#8) _ _ : Observed (Option Setup)).Reads (Within total) ↔ _)
  rw [if_neg hzero]
  simp only [Observed.value_bind, Observed.reads_bind, reads_load_iff, value_get]
  cases (Setup.descriptor m _ total portSpeed status n (m ptr) (m (ptr + 1)) ptr).value with
  | breaks ptr s => exact ⟨rfl, Iff.rfl⟩
  | returns s => exact ⟨rfl, Iff.rfl⟩
  | diverges => exact ⟨rfl, Iff.rfl⟩

/-! ## The whole walk -/

/-- Nothing is to be processed at the end or at a descriptor without a length. -/
theorem expected_of_zero {n ptr : ℕ} (hn : 0 < n) (h : ptr < total → m ptr = 0#8) :
    expected m total status n ptr = [] ∧
      (Orderly m total status n ptr ↔ (ptr < total → ptr + 1 < total)) := by
  cases n with
  | zero => exact absurd hn (Nat.lt_irrefl 0)
  | succ n =>
    unfold expected
    rw [descriptors, Orderly, if_neg fun hboth => hboth.2 (h hboth.1)]
    exact ⟨rfl, forall_congr' fun hptr => and_iff_left fun hne => absurd (h hptr) hne⟩

/-- The descriptor at `ptr` is the first one that is to be processed. -/
theorem expected_cons {n ptr : ℕ} (hptr : ptr < total) (hzero : m ptr ≠ 0#8) :
    expected m total status (n + 1) ptr =
      if RequestFails m status ptr then [ptr]
      else ptr :: untilFailure m status
        (selected m (Unsupported m ptr) (descriptors m total n (ptr + (m ptr).toNat))) := by
  unfold expected
  rw [descriptors, if_pos ⟨hptr, hzero⟩, selected]
  by_cases hinterface : IsInterface m ptr
  · rw [if_pos hinterface, untilFailure]
  · have hu : decide (Unsupported m ptr) = false := decide_eq_false fun h => hinterface h.1
    rw [if_neg hinterface, if_neg Bool.false_ne_true, untilFailure, hu]

/-- From `ptr` on the loop ends, with the descriptors `seen`, which are those that are to be
    processed, within the buffer, iff these are orderly. -/
theorem configLoop_spec {n ptr : ℕ} (s : Setup) (h : total - ptr < n) :
    ∃ s' seen, (configLoop m total portSpeed status n ptr s).value = some s' ∧
      s'.processed = s.processed ++ seen ∧ (∀ p ∈ seen, ptr ≤ p) ∧
      (seen = [] ↔ (ptr < total → m ptr = 0#8)) ∧
      ((configLoop m total portSpeed status n ptr s).Reads (Within total) ∧
        seen = expected m total status n ptr ↔ Orderly m total status n ptr) := by
  induction n generalizing ptr s with
  | zero => exact absurd h (Nat.not_lt_zero _)
  | succ n ih =>
    by_cases hptr : ptr < total
    swap
    · have hend : ptr < total → m ptr = 0#8 := fun hlt => absurd hlt hptr
      obtain ⟨hexpected, horderly⟩ :=
        expected_of_zero m total status (Nat.succ_pos n) hend
      rw [configLoop_end m total status portSpeed s hptr, hexpected, horderly]
      exact ⟨s, [], rfl, (List.append_nil _).symm, by simp, iff_of_true rfl hend,
        iff_of_true ⟨Observed.reads_pure _, rfl⟩ fun hlt => absurd hlt hptr⟩
    by_cases hzero : m ptr = 0#8
    · obtain ⟨hvalue, hreads⟩ :=
        configLoop_zero m total status portSpeed (n := n) s hptr hzero
      obtain ⟨hexpected, horderly⟩ :=
        expected_of_zero m total status (Nat.succ_pos n) fun _ => hzero
      rw [hvalue, hreads, hexpected, horderly]
      exact ⟨s, [], rfl, (List.append_nil _).symm, by simp, iff_of_true rfl fun _ => hzero,
        (and_iff_left rfl).trans (imp_iff_right hptr).symm⟩
    have hlength := toNat_pos_of_ne hzero
    have hseen : ∀ seen : List ℕ, ptr :: seen = [] ↔ (ptr < total → m ptr = 0#8) :=
      fun seen => iff_of_false (List.cons_ne_nil ptr seen) fun hall => hzero (hall hptr)
    obtain ⟨hvalue, hreads⟩ :=
      configLoop_turn m total status portSpeed (n := n) s hptr hzero
    obtain ⟨s1, hprocessed, hturn, hwhole⟩ := @descriptor_spec m total status portSpeed n ptr
      { s with processed := s.processed ++ [ptr] }
    have horderly : Orderly m total status (n + 1) ptr ↔ ptr + 1 < total ∧ Whole m total ptr ∧
        if Unsupported m ptr then NoneFollows m total (m ptr).toNat n (ptr + (m ptr).toNat)
        else RequestFails m status ptr ∨ Orderly m total status n (ptr + (m ptr).toNat) := by
      rw [Orderly, imp_iff_right hptr, imp_iff_right hzero]
    rw [horderly, hvalue, hreads, expected_cons m total status hptr hzero, hturn,
      ← and_assoc (a := ptr + (m ptr).toNat ≤ total), hwhole]
    by_cases hu : Unsupported m ptr
    -- the interface is skipped, and the loop goes on `m ptr` bytes behind the end of it
    · obtain ⟨q, hq, hle, hskip⟩ := @skipLoop_spec m total n
        (ptr + (m ptr).toNat) (m ptr).toNat (by omega)
      obtain ⟨s', seen, hend, hmore, hbounds, hnil, hiff⟩ :=
        @ih (q + (m ptr).toNat) s1 (by omega)
      simp only [if_pos hu, hq, Turn.rest, imp_iff_right hu, decide_eq_true hu]
      rw [if_neg (not_requestFails m status hu.1)]
      refine ⟨s', ptr :: seen, hend, ?_, ?_, hseen seen, ?_⟩
      · rw [hmore, hprocessed, List.append_assoc]
        rfl
      · rintro p (_ | ⟨_, hp⟩)
        · exact le_rfl
        · have hlater := hbounds p hp
          omega
      · rcases hskip with ⟨-, hempty, hnone⟩ | ⟨⟨rest, hrest⟩, hnone⟩
        · rw [hempty, hnone]
          constructor
          · rintro ⟨⟨h1, ⟨h2, h3⟩, h4⟩, hlist⟩
            have hsame : seen = [] := (List.cons.inj hlist).2
            have hbehind := hnil.mp hsame
            obtain ⟨hexpected, horderly'⟩ :=
              expected_of_zero m total status (by omega : 0 < n) hbehind
            have h5 := horderly'.mp (hiff.mp ⟨h4, hsame.trans hexpected.symm⟩)
            exact ⟨h1, h2, h3, fun hlt => ⟨h5 hlt, hbehind hlt⟩⟩
          · rintro ⟨h1, h2, h3, hbehind⟩
            have hzero' : q + (m ptr).toNat < total → m (q + (m ptr).toNat) = 0#8 :=
              fun hlt => (hbehind hlt).2
            obtain ⟨-, horderly'⟩ :=
              expected_of_zero m total status (by omega : 0 < n) hzero'
            have h4 := (hiff.mpr (horderly'.mpr fun hlt => (hbehind hlt).1)).1
            rw [hnil.mpr hzero']
            exact ⟨⟨h1, ⟨h2, h3⟩, h4⟩, rfl⟩
        -- the interface at `q` is to be processed, and the loop is behind it
        · refine iff_of_false ?_ fun hall => hnone hall.2.2
          rintro ⟨-, hlist⟩
          have hq' : q ∈ seen := by
            rw [(List.cons.inj hlist).2, hrest, untilFailure]
            split_ifs <;> exact List.mem_cons_self
          have hlater := hbounds q hq'
          omega
    have hskip : Whole m total ptr ∧ (Unsupported m ptr →
        (skipLoop m total n (ptr + (m ptr).toNat)).Reads (Within total)) ↔ Whole m total ptr :=
      and_iff_left fun h => absurd h hu
    rw [hskip]
    simp only [if_neg hu, decide_eq_false hu]
    by_cases hfails : RequestFails m status ptr
    -- the loop is left
    · rw [if_pos hfails, if_pos hfails]
      refine ⟨s1, [ptr], rfl, hprocessed, by simp, hseen [], ?_⟩
      rw [and_iff_left rfl, and_iff_left (Or.inl hfails), Turn.rest,
        and_iff_left (Observed.reads_pure _)]
    · rw [if_neg hfails, if_neg hfails]
      obtain ⟨s', seen, hend, hmore, hbounds, -, hiff⟩ :=
        @ih (ptr + (m ptr).toNat) s1 (by omega)
      refine ⟨s', ptr :: seen, hend, ?_, ?_, hseen seen, ?_⟩
      · rw [hmore, hprocessed, List.append_assoc]
        rfl
      · rintro p (_ | ⟨_, hp⟩)
        · exact le_rfl
        · have hlater := hbounds p hp
          omega
      · rw [or_iff_right hfails, ← hiff, List.cons_inj_right, Turn.rest, and_assoc, and_assoc]
        exact Iff.rfl

/-- The configuration descriptors that are walked as they should be: those that are orderly. -/
theorem walksRight_iff (start : ℕ) (s : Setup) :
    WalksRight m total status portSpeed start s ↔ Orderly m total status (total + 1) start := by
  obtain ⟨s', seen, hend, hmore, -, -, hiff⟩ := @configLoop_spec m total status portSpeed
    (total + 1) start s (by omega)
  rw [← hiff]
  refine and_congr_right fun _ => ?_
  constructor
  · rintro ⟨t, ht, hprocessed⟩
    obtain rfl := Option.some.inj (hend.symm.trans ht)
    exact List.append_cancel_left (hmore.symm.trans hprocessed)
  · rintro rfl
    exact ⟨s', hend, hmore⟩

end Walk

/-- The configuration of a mouse with one endpoint. -/
def mouseConfig : List U8 :=
  [0x09, 0x02, 0x22, 0x00, 0x01, 0x01, 0x00, 0xA0, 0x32,
   0x09, 0x04, 0x00, 0x00, 0x01, 0x03, 0x01, 0x02, 0x00,
   0x09, 0x21, 0x11, 0x01, 0x00, 0x01, 0x22, 0x34, 0x00,
   0x07, 0x05, 0x81, 0x03, 0x04, 0x00, 0x0A]

theorem walksRight_mouse :
    WalksRight (mouseConfig.getD · 0#8) 34 (fun _ => 0x01000000#32) 1#8 9 {} :=
  (walksRight_iff _ _ _ _ _ _).mpr (by decide)

/-- A configuration of a disk and a mouse. -/
def diskAndMouseConfig : List U8 :=
  [0x09, 0x02, 0x1B, 0x00, 0x02, 0x01, 0x00, 0x80, 0x32,
   0x09, 0x04, 0x00, 0x00, 0x00, 0x08, 0x06, 0x50, 0x00,
   0x09, 0x04, 0x01, 0x00, 0x00, 0x03, 0x01, 0x02, 0x00]

/-- The mouse is not processed. -/
theorem mouse_passed_over :
    ¬WalksRight (diskAndMouseConfig.getD · 0#8) 27 (fun _ => 0x01000000#32) 1#8 9 {} := by
  rintro ⟨-, s', hs', hprocessed⟩
  have hvalue : (configLoop (diskAndMouseConfig.getD · 0#8) 27 1#8 (fun _ => 0x01000000#32) 28 9
      {}).value = some { processed := [9] } := by decide
  obtain rfl := Option.some.inj (hvalue.symm.trans hs')
  exact absurd hprocessed (by decide)

end Fishix.Dev.UsbConfig
