import Fishix.Common.CycleRing

/-!
# The rings of the xHCI driver

Model of `EnqueueRing` and `EventRing` (dev/xhci.cpp:951-1035). The driver is the writer of the one
and the reader of the other; on the other side is the controller, by the rules of the interface: a
block belongs to the reader if its cycle bit is the reader's cycle state, and a Link block leads to
another place and may turn the state over.

* `Transfers.Synced`, `Events.Synced`: what holds in every interleaving.
* `rings_refine`: both rings are queues.
-/

namespace Fishix.Dev.Xhci

open Function (update update_self update_of_ne)
open BitVec (ofNat)

abbrev U32 := BitVec 32
abbrev U64 := BitVec 64

/-- The errors of the rings. -/
inductive Errno
  /-- `-ENOMEM`. -/
  | noMemory
  /-- `-EWOULDBLOCK`. -/
  | wouldBlock
  deriving DecidableEq

/-! ## Blocks -/

/-- `TRB` (dev/xhci.hpp:10-13). -/
structure TRB where
  parameter : U64 := 0#64
  status : U32 := 0#32
  control : U32 := 0#32
  deriving DecidableEq

def TYPE_LINK : U32 := 6#32
def TYPE_SHIFT_BITS : ℕ := 10
def LINK_TOGGLE_CYCLE : U32 := 1#32 <<< 1

/-- `PAGE_SIZE / sizeof(TRB)`. -/
def ringSize : ℕ := 4096 / 16

namespace TRB

variable (t : TRB)

/-- The cycle bit. -/
def cycle : Bool := t.control.getLsbD 0

/-- The type of a block. -/
def type : U32 := (t.control >>> TYPE_SHIFT_BITS) &&& 0x3f#32

/-- `control |= 1` or `control &= ~1` (dev/xhci.cpp:968-969). -/
def withCycle (cycleBit : Bool) : TRB :=
  { t with control := if cycleBit then t.control ||| 1#32 else t.control &&& ~~~1#32 }

/-- A block without its cycle bit. -/
def content : TRB := { t with control := t.control &&& ~~~1#32 }

@[simp] theorem cycle_withCycle (cycleBit : Bool) : (t.withCycle cycleBit).cycle = cycleBit := by
  cases cycleBit with
  | false => simp [cycle, withCycle]
  | true => simp [cycle, withCycle]

@[simp] theorem content_withCycle (cycleBit : Bool) :
    (t.withCycle cycleBit).content = t.content := by
  unfold content withCycle
  congr 1
  cases cycleBit with
  | false => simp [BitVec.and_assoc]
  | true => simp [BitVec.and_or_distrib_right]

@[simp] theorem type_withCycle (cycleBit : Bool) : (t.withCycle cycleBit).type = t.type := by
  unfold type withCycle
  cases cycleBit with
  | false =>
    simp only [Bool.false_eq_true, if_false, BitVec.ushiftRight_and_distrib, BitVec.and_assoc]
    rfl
  | true =>
    simp only [if_true, BitVec.ushiftRight_or_distrib]
    rw [show 1#32 >>> TYPE_SHIFT_BITS = 0#32 from rfl, BitVec.or_zero]

end TRB

/-! ## `EnqueueRing` -/

/-- `EnqueueRing` (dev/xhci.hpp:184-194). The blocks of the page are counted from its start. -/
structure EnqueueRing where
  /-- `page->phy()`. -/
  phy : U64
  ring : ℕ → TRB
  size : ℕ
  enqueueIndex : ℕ
  cycleBit : Bool

/-- The control word of the Link block (dev/xhci.cpp:962, 977). -/
def linkControl (cycleBit : Bool) : U32 :=
  (TYPE_LINK <<< TYPE_SHIFT_BITS) ||| LINK_TOGGLE_CYCLE ||| (BitVec.ofBool cycleBit).setWidth 32

namespace EnqueueRing

/-- `EnqueueRing::init` (dev/xhci.cpp:951-965), with the page that `alloc_page` returns. -/
def init (page : Option U64) : Except Errno EnqueueRing :=
  match page with
  | none => .error .noMemory
  | some phy => .ok
    { phy
      ring := update (fun _ => {}) (ringSize - 1)
        { parameter := phy, control := linkControl true }
      size := ringSize
      enqueueIndex := 0
      cycleBit := true }

/-- `EnqueueRing::enqueue` (dev/xhci.cpp:967-983), and the address that it returns. -/
def enqueue (r : EnqueueRing) (trb : TRB) : U64 × EnqueueRing :=
  let trb := trb.withCycle r.cycleBit
  let phy := r.phy + ofNat 64 (16 * r.enqueueIndex)
  let r := { r with
    ring := update r.ring r.enqueueIndex trb
    enqueueIndex := r.enqueueIndex + 1 }
  if r.enqueueIndex = r.size - 1 then
    let linkTrb := { r.ring (r.size - 1) with control := linkControl r.cycleBit }
    (phy, { r with
      ring := update r.ring (r.size - 1) linkTrb
      enqueueIndex := 0
      cycleBit := !r.cycleBit })
  else (phy, r)

/-- The block at a physical address in the page. -/
def trbAt (r : EnqueueRing) (address : U64) : TRB := r.ring ((address - r.phy).toNat / 16)

end EnqueueRing

/-! ## The controller as a reader -/

/-- A reader of blocks, and what it has seen. -/
structure Consumer where
  dequeuePointer : U64
  cycleState : Bool := true
  seen : List TRB := []

/-- What the reader does with the block that it has come to. -/
def Consumer.step (c : Consumer) (r : EnqueueRing) : Consumer :=
  let trb := r.trbAt c.dequeuePointer
  if trb.cycle ≠ c.cycleState then c
  else if trb.type = TYPE_LINK then
    { c with
      dequeuePointer := trb.parameter
      cycleState :=
        if trb.control &&& LINK_TOGGLE_CYCLE ≠ 0#32 then !c.cycleState else c.cycleState }
  else { c with dequeuePointer := c.dequeuePointer + 16#64, seen := c.seen ++ [trb] }

/-- A ring with its reader, and what has been enqueued. -/
structure Transfers where
  ring : EnqueueRing
  consumer : Consumer
  enqueued : List TRB := []

namespace Transfers

def enqueue (s : Transfers) (trb : TRB) : Transfers :=
  { s with ring := (s.ring.enqueue trb).2, enqueued := s.enqueued ++ [trb] }

def consume (s : Transfers) : Transfers := { s with consumer := s.consumer.step s.ring }

/-- The blocks that the reader has not seen yet. -/
def outstanding (s : Transfers) : ℕ := s.enqueued.length - s.consumer.seen.length

end Transfers

/-- The ring and its reader in any order, with blocks that are no Link blocks and with at most 254
    of them outstanding. -/
inductive Interleaved : Transfers → Prop
  | init {phy : U64} {ring : EnqueueRing} : EnqueueRing.init (some phy) = .ok ring →
      Interleaved { ring, consumer := { dequeuePointer := phy } }
  | enqueue {s : Transfers} (trb : TRB) : Interleaved s → trb.type ≠ TYPE_LINK →
      (s.enqueue trb).outstanding ≤ 254 → Interleaved (s.enqueue trb)
  | consume {s : Transfers} : Interleaved s → Interleaved s.consume

/-! ## What holds in between -/

/-- The place of the reader behind `k` blocks: the slot of the next one, or the Link block that
    leads to it. -/
def ReaderAt (phy : U64) (k : ℕ) (c : Consumer) : Prop :=
  (c.dequeuePointer = phy + ofNat 64 (16 * (k % 255)) ∧ c.cycleState = phase 255 k) ∨
  (k ≠ 0 ∧ k % 255 = 0 ∧ c.dequeuePointer = phy + ofNat 64 (16 * 255) ∧
    c.cycleState = !phase 255 k)

/-- The Link block has the bit of the lap that has ended last. -/
def linkTrb (phy : U64) (k : ℕ) : TRB :=
  { parameter := phy, control := linkControl (decide (k < 255) || !phase 255 k) }

/-- The slots hold the last blocks, the Link block is ready for a reader that comes to it, and the
    reader has seen the first of the blocks. -/
structure Transfers.Synced (s : Transfers) : Prop where
  size : s.ring.size = 256
  laps : Laps 255 TRB.cycle TRB.content s.ring.ring (s.enqueued.map TRB.content)
  index : s.ring.enqueueIndex = s.enqueued.length % 255
  cycleBit : s.ring.cycleBit = phase 255 s.enqueued.length
  link : s.ring.ring 255 = linkTrb s.ring.phy s.enqueued.length
  noLink : ∀ i < 255, (s.ring.ring i).type ≠ TYPE_LINK
  seen : s.consumer.seen.map TRB.content <+: s.enqueued.map TRB.content
  outstanding : s.enqueued.length ≤ s.consumer.seen.length + 254
  reader : ReaderAt s.ring.phy s.consumer.seen.length s.consumer

namespace Transfers.Synced

variable {s : Transfers}

theorem seen_le (h : s.Synced) : s.consumer.seen.length ≤ s.enqueued.length := by
  have hlength := h.seen.length_le
  rwa [List.length_map, List.length_map] at hlength

theorem init {phy : U64} {ring : EnqueueRing} (h : EnqueueRing.init (some phy) = .ok ring) :
    Synced { ring, consumer := { dequeuePointer := phy } } := by
  cases h
  have hslot : ∀ i < 255, update (fun _ => ({} : TRB)) 255
      { parameter := phy, control := linkControl true } i = {} :=
    fun i hi => update_of_ne (by omega) _ _
  have hphase : true = phase 255 0 := (phase_of_lt (by decide)).symm
  refine ⟨rfl, Laps.nil ?_, rfl, hphase, ?_, ?_, List.prefix_rfl, by simp, .inl ⟨?_, hphase⟩⟩
  · intro i hi
    exact congrArg TRB.cycle (hslot i hi)
  · show update (fun _ => ({} : TRB)) 255 _ 255 = linkTrb phy 0
    rw [update_self]
    rfl
  · intro i hi
    show (update (fun _ => ({} : TRB)) 255 _ i).type ≠ TYPE_LINK
    rw [hslot i hi]
    decide
  · exact (BitVec.add_zero phy).symm

theorem trbAt_offset (r : EnqueueRing) {i : ℕ} (hi : i < 256) :
    r.trbAt (r.phy + ofNat 64 (16 * i)) = r.ring i := by
  unfold EnqueueRing.trbAt
  rw [add_sub_cancel_left, BitVec.toNat_ofNat, Nat.mod_eq_of_lt (by omega),
    Nat.mul_div_cancel_left i (by decide)]

/-- What `enqueue` does to the ring: a block goes to the next slot, and behind the last one the Link
    block is handed over. -/
theorem enqueue_ring (h : s.Synced) (trb : TRB) :
    let block := update s.ring.ring (s.enqueued.length % 255)
      (trb.withCycle s.ring.cycleBit)
    (s.ring.enqueue trb).2 = { s.ring with
      ring := if (s.enqueued.length + 1) % 255 = 0 then
        update block 255 (linkTrb s.ring.phy (s.enqueued.length + 1)) else block
      enqueueIndex := (s.enqueued.length + 1) % 255
      cycleBit := phase 255 (s.enqueued.length + 1) } := by
  have hlt : s.enqueued.length % 255 < 255 := Nat.mod_lt _ (by decide)
  have hsucc := succ_mod (n := 255) (by decide) s.enqueued.length
  have hphase := phase_succ 255 s.enqueued.length
  have hbehind : update s.ring.ring (s.enqueued.length % 255)
      (trb.withCycle s.ring.cycleBit) 255 = linkTrb s.ring.phy s.enqueued.length := by
    rw [update_of_ne (by omega), h.link]
  rw [h.cycleBit] at hbehind
  intro block
  unfold EnqueueRing.enqueue
  by_cases hlast : s.enqueued.length % 255 + 1 = 255
  · rw [if_pos hlast] at hsucc
    rw [if_pos hsucc] at hphase
    have hlink : linkTrb s.ring.phy (s.enqueued.length + 1) =
        { linkTrb s.ring.phy s.enqueued.length with control := linkControl s.ring.cycleBit } := by
      have hbit : (decide (s.enqueued.length + 1 < 255) || !phase 255 (s.enqueued.length + 1)) =
          s.ring.cycleBit := by
        rw [decide_eq_false (by omega), hphase, h.cycleBit, Bool.not_not, Bool.false_or]
      rw [linkTrb, hbit]
      rfl
    simp only [h.size, h.index, hlast, hsucc, hphase, hlink, h.cycleBit, if_true, block]
    rw [show 256 - 1 = 255 from rfl, hbehind]
  · rw [if_neg hlast] at hsucc
    have hinner : (s.enqueued.length + 1) % 255 ≠ 0 := by omega
    rw [if_neg hinner] at hphase
    simp only [h.size, h.index, if_neg hlast, hphase, h.cycleBit, hsucc,
      if_neg (Nat.succ_ne_zero (s.enqueued.length % 255)), block]

theorem enqueue (h : s.Synced) {trb : TRB} (htype : trb.type ≠ TYPE_LINK)
    (hroom : (s.enqueue trb).outstanding ≤ 254) : (s.enqueue trb).Synced := by
  have hlt : s.enqueued.length % 255 < 255 := Nat.mod_lt _ (by decide)
  have hphase := phase_succ 255 s.enqueued.length
  have hlength : (s.enqueued ++ [trb]).length = s.enqueued.length + 1 := by simp
  have hring := h.enqueue_ring trb
  have hlaps := h.laps.write (by decide) (x := trb.withCycle s.ring.cycleBit)
    (by rw [TRB.cycle_withCycle, h.cycleBit, List.length_map])
  rw [TRB.content_withCycle, List.length_map, ← List.map_singleton, ← List.map_append] at hlaps
  have hseen : s.consumer.seen.map TRB.content <+: (s.enqueued ++ [trb]).map TRB.content :=
    h.seen.trans (by simp)
  have houtstanding : (s.enqueued ++ [trb]).length ≤ s.consumer.seen.length + 254 := by
    have hle := h.seen_le
    change (s.enqueued ++ [trb]).length - s.consumer.seen.length ≤ 254 at hroom
    omega
  unfold Transfers.enqueue
  rw [hring]
  have hslots : ∀ i < 255, (if (s.enqueued.length + 1) % 255 = 0 then
      update (update s.ring.ring (s.enqueued.length % 255)
        (trb.withCycle s.ring.cycleBit)) 255 (linkTrb s.ring.phy (s.enqueued.length + 1))
      else update s.ring.ring (s.enqueued.length % 255)
        (trb.withCycle s.ring.cycleBit)) i =
      update s.ring.ring (s.enqueued.length % 255) (trb.withCycle s.ring.cycleBit) i := by
    intro i hi
    split_ifs
    · exact update_of_ne (by omega) _ _
    · rfl
  refine ⟨h.size, hlaps.congr (by decide) hslots, ?_, ?_, ?_, ?_, hseen, houtstanding, h.reader⟩
  · rw [hlength]
  · rw [hlength]
  · rw [hlength]
    dsimp only
    split_ifs with hlast
    · exact update_self _ _ _
    · rw [update_of_ne (by omega), h.link]
      rw [if_neg hlast] at hphase
      have hfirst : s.enqueued.length + 1 < 255 ↔ s.enqueued.length < 255 := by omega
      simp only [linkTrb, hphase, hfirst]
  · intro i hi
    dsimp only
    rw [hslots i hi]
    by_cases hslot : i = s.enqueued.length % 255
    · rw [hslot, update_self, TRB.type_withCycle]
      exact htype
    · rw [update_of_ne hslot]
      exact h.noLink i hi

theorem linkTrb_spec (phy : U64) (k : ℕ) :
    (linkTrb phy k).cycle = (decide (k < 255) || !phase 255 k) ∧
      (linkTrb phy k).type = TYPE_LINK ∧
      (linkTrb phy k).control &&& LINK_TOGGLE_CYCLE ≠ 0#32 := by
  have hcontrol : ∀ cycleBit, (linkControl cycleBit).getLsbD 0 = cycleBit ∧
      (linkControl cycleBit >>> TYPE_SHIFT_BITS) &&& 0x3f#32 = TYPE_LINK ∧
      linkControl cycleBit &&& LINK_TOGGLE_CYCLE ≠ 0#32 := by decide
  exact hcontrol _

theorem consume_slot (h : s.Synced) {k : ℕ} (hk : s.consumer.seen.length = k)
    (hpointer : s.consumer.dequeuePointer = s.ring.phy + ofNat 64 (16 * (k % 255)))
    (hstate : s.consumer.cycleState = phase 255 k) :
    (k < s.enqueued.length → s.consumer.step s.ring = { s.consumer with
      dequeuePointer := s.consumer.dequeuePointer + 16#64
      seen := s.consumer.seen ++ [s.ring.ring (k % 255)] }) ∧
    (¬k < s.enqueued.length → s.consumer.step s.ring = s.consumer) := by
  have hlt : k % 255 < 255 := Nat.mod_lt _ (by decide)
  have hle := h.seen_le
  have houtstanding := h.outstanding
  have howned := h.laps.owned_iff (by decide) (k := k) (by rw [List.length_map]; omega)
    (by rw [List.length_map]; omega)
  rw [List.length_map, ← hstate] at howned
  unfold Consumer.step
  rw [hpointer, trbAt_offset _ (by omega)]
  constructor
  · intro hmore
    rw [if_neg (not_not.mpr (howned.mpr hmore)), if_neg (h.noLink _ hlt)]
  · intro hnone
    rw [if_pos fun hcycle => hnone (howned.mp hcycle)]

/-- The Link block leads to the first slot of the next lap. -/
theorem consume_link (h : s.Synced) {k : ℕ} (hk : s.consumer.seen.length = k) (hpos : k ≠ 0)
    (hlap : k % 255 = 0)
    (hpointer : s.consumer.dequeuePointer = s.ring.phy + ofNat 64 (16 * 255))
    (hstate : s.consumer.cycleState = !phase 255 k) :
    s.consumer.step s.ring =
      { s.consumer with dequeuePointer := s.ring.phy, cycleState := phase 255 k } := by
  obtain ⟨hcycle, htype, htoggle⟩ := linkTrb_spec s.ring.phy s.enqueued.length
  have hle := h.seen_le
  have houtstanding := h.outstanding
  -- the writer is in the lap that the Link block leads to
  have hsame : phase 255 s.enqueued.length = phase 255 k := by
    unfold phase
    rw [show s.enqueued.length / 255 = k / 255 by omega]
  have howned : (linkTrb s.ring.phy s.enqueued.length).cycle = s.consumer.cycleState := by
    rw [hcycle, decide_eq_false (by omega), Bool.false_or, hsame, hstate]
  unfold Consumer.step
  rw [hpointer, trbAt_offset _ (by decide), h.link, if_neg (not_not.mpr howned), if_pos htype,
    if_pos htoggle, hstate, Bool.not_not]
  rfl

/-- Behind the block of a slot. -/
theorem readerAt_succ {phy : U64} {k : ℕ} {c c' : Consumer}
    (hpointer : c.dequeuePointer = phy + ofNat 64 (16 * (k % 255)))
    (hstate : c.cycleState = phase 255 k) (hnext : c'.dequeuePointer = c.dequeuePointer + 16#64)
    (hsame : c'.cycleState = c.cycleState) : ReaderAt phy (k + 1) c' := by
  have hsucc := succ_mod (n := 255) (by decide) k
  have hphase := phase_succ 255 k
  have hbehind : c'.dequeuePointer = phy + ofNat 64 (16 * (k % 255 + 1)) := by
    rw [hnext, hpointer, Nat.mul_add, BitVec.ofNat_add, add_assoc]
  by_cases hlast : k % 255 + 1 = 255
  · rw [if_pos hlast] at hsucc
    rw [if_pos hsucc] at hphase
    refine .inr ⟨Nat.succ_ne_zero k, hsucc, ?_, ?_⟩
    · rw [hbehind, hlast]
    · rw [hsame, hstate, hphase, Bool.not_not]
  · rw [if_neg hlast] at hsucc
    rw [if_neg (by omega)] at hphase
    refine .inl ⟨?_, ?_⟩
    · rw [hbehind, hsucc]
    · rw [hsame, hstate, hphase]

/-- The reader sees the next block, if there is one, and stays in step. -/
theorem consume (h : s.Synced) : s.consume.Synced := by
  have hle := h.seen_le
  have houtstanding := h.outstanding
  unfold Transfers.consume
  rcases h.reader with ⟨hpointer, hstate⟩ | ⟨hpos, hlap, hpointer, hstate⟩
  · obtain ⟨hmore, hnone⟩ := h.consume_slot rfl hpointer hstate
    by_cases hlt : s.consumer.seen.length < s.enqueued.length
    swap
    · rw [hnone hlt]
      exact h
    rw [hmore hlt]
    have hlength : (s.consumer.seen ++ [s.ring.ring (s.consumer.seen.length % 255)]).length =
        s.consumer.seen.length + 1 := by simp
    have hget := h.laps.getElem? (k := s.consumer.seen.length) (by rwa [List.length_map])
      (by rw [List.length_map]; omega)
    refine ⟨h.size, h.laps, h.index, h.cycleBit, h.link, h.noLink, ?_, ?_, ?_⟩
    · rw [List.map_append, List.map_singleton]
      exact prefix_concat h.seen (by rwa [List.length_map])
    · rw [hlength]
      dsimp only
      omega
    · rw [hlength]
      exact readerAt_succ hpointer hstate rfl rfl
  · rw [h.consume_link rfl hpos hlap hpointer hstate]
    refine ⟨h.size, h.laps, h.index, h.cycleBit, h.link, h.noLink, h.seen, houtstanding, .inl ?_⟩
    exact ⟨by simp [hlap], rfl⟩

/-- A reader with blocks outstanding sees one more in two steps at most. -/
theorem progress (h : s.Synced) (hmore : s.consumer.seen.length < s.enqueued.length) :
    ∃ n, s.consumer.seen.length < (Transfers.consume^[n] s).consumer.seen.length := by
  have hslot : ∀ {s : Transfers}, s.Synced → s.consumer.seen.length < s.enqueued.length →
      s.consumer.dequeuePointer =
        s.ring.phy + ofNat 64 (16 * (s.consumer.seen.length % 255)) →
      s.consumer.cycleState = phase 255 s.consumer.seen.length →
      s.consumer.seen.length < s.consume.consumer.seen.length := by
    intro s h hmore hpointer hstate
    unfold Transfers.consume
    rw [(h.consume_slot rfl hpointer hstate).1 hmore]
    simp
  rcases h.reader with ⟨hpointer, hstate⟩ | ⟨hpos, hlap, hpointer, hstate⟩
  · exact ⟨1, hslot h hmore hpointer hstate⟩
  · have hlink := h.consume_link rfl hpos hlap hpointer hstate
    have hsame : s.consume.consumer =
        { s.consumer with dequeuePointer := s.ring.phy,
                          cycleState := phase 255 s.consumer.seen.length } := hlink
    have hseen : s.consume.consumer.seen = s.consumer.seen := by rw [hsame]
    refine ⟨2, ?_⟩
    have hnext := hslot h.consume (by rwa [hseen]) (by rw [hsame]; simp [hlap, Transfers.consume])
      (by rw [hsame])
    rwa [hseen] at hnext

theorem iterate (h : s.Synced) (n : ℕ) :
    (Transfers.consume^[n] s).Synced ∧ (Transfers.consume^[n] s).enqueued = s.enqueued := by
  induction n with
  | zero => exact ⟨h, rfl⟩
  | succ n ih =>
    rw [Function.iterate_succ_apply']
    exact ⟨ih.1.consume, ih.2⟩

/-- The reader sees everything. -/
theorem drains (h : s.Synced) :
    ∃ n, (Transfers.consume^[n] s).consumer.seen.map TRB.content =
      s.enqueued.map TRB.content := by
  induction hleft : s.enqueued.length - s.consumer.seen.length using Nat.strong_induction_on
    generalizing s with
  | _ left ih =>
    have hle := h.seen_le
    by_cases hmore : s.consumer.seen.length < s.enqueued.length
    · obtain ⟨n, hn⟩ := h.progress hmore
      obtain ⟨hsynced, hsame⟩ := h.iterate n
      obtain ⟨m, hm⟩ := ih _ (by rw [hsame]; omega) hsynced rfl
      refine ⟨m + n, ?_⟩
      rw [Function.iterate_add_apply, hm, hsame]
    · refine ⟨0, h.seen.eq_of_length ?_⟩
      rw [List.length_map, List.length_map]
      omega

end Transfers.Synced

theorem Interleaved.synced {s : Transfers} (h : Interleaved s) : s.Synced := by
  induction h with
  | init hinit => exact .init hinit
  | enqueue trb _ htype hroom ih => exact ih.enqueue htype hroom
  | consume _ ih => exact ih.consume

/-! ## `EventRing` -/

/-- The registers that the driver writes (`InterrupterRegs`). -/
structure InterrupterRegs where
  /-- `EVENT_RING_SEGMENT_TABLE_SIZE`. -/
  segmentTableSize : U32 := 0#32
  /-- `EVENT_RING_SEGMENT_TABLE_BASE_ADDRESS`. -/
  segmentTableBase : U64 := 0#64
  /-- `EVENT_RING_DEQUEUE_POINTER`. -/
  dequeuePointer : U64 := 0#64

/-- `EVENT_HANDLER_BUSY`. -/
def EVENT_HANDLER_BUSY : U64 := 1#64 <<< 3

/-- `EventRing` (dev/xhci.hpp:196-215), with the first entry of the segment table. -/
structure EventRing where
  /-- `ring_page->phy()`. -/
  ringPhy : U64
  segmentAddress : U64
  segmentSize : U64
  ring : ℕ → TRB
  size : ℕ
  dequeueIndex : ℕ
  cycleBit : Bool
  regs : InterrupterRegs

namespace EventRing

/-- `EventRing::init` (dev/xhci.cpp:985-1012), with the pages that `alloc_page` returns. -/
def init (segmentTablePage ringPage : Option U64) (regs : InterrupterRegs) :
    Except Errno EventRing :=
  match segmentTablePage, ringPage with
  | some tablePhy, some ringPhy => .ok
    { ringPhy
      segmentAddress := ringPhy
      segmentSize := ofNat 64 ringSize
      ring := fun _ => {}
      size := ringSize
      dequeueIndex := 0
      cycleBit := true
      regs := { regs with
        segmentTableSize := 1#32
        dequeuePointer := ringPhy
        segmentTableBase := tablePhy } }
  | _, _ => .error .noMemory

/-- `has_unprocessed_events` (dev/xhci.cpp:1033-1035). -/
def hasUnprocessedEvents (r : EventRing) : Bool := (r.ring r.dequeueIndex).cycle = r.cycleBit

/-- `EventRing::dequeue` (dev/xhci.cpp:1014-1031). -/
def dequeue (r : EventRing) : Except Errno TRB × EventRing :=
  if ¬r.hasUnprocessedEvents then (.error .wouldBlock, r)
  else
    let trb := r.ring r.dequeueIndex
    let r := { r with dequeueIndex := r.dequeueIndex + 1 }
    let r :=
      if r.dequeueIndex = r.size then { r with dequeueIndex := 0, cycleBit := !r.cycleBit } else r
    let pointer := r.ringPhy + ofNat 64 (16 * r.dequeueIndex)
    (.ok trb, { r with regs := { r.regs with dequeuePointer := pointer ||| EVENT_HANDLER_BUSY } })

end EventRing

/-! ## The controller as a writer -/

/-- Where the controller writes the next event. -/
structure Producer where
  index : ℕ := 0
  cycleState : Bool := true

/-- A ring with its writer, what has been written, and what has been dequeued. -/
structure Events where
  ring : EventRing
  producer : Producer := {}
  written : List TRB := []
  dequeued : List TRB := []

namespace Events

/-- The controller writes an event with its cycle state, which turns where the segment ends. -/
def write (s : Events) (trb : TRB) : Events :=
  let p := { s.producer with index := s.producer.index + 1 }
  { s with
    ring := { s.ring with
      ring := update s.ring.ring s.producer.index
        (trb.withCycle s.producer.cycleState) }
    producer :=
      if p.index = s.ring.segmentSize.toNat then { index := 0, cycleState := !p.cycleState } else p
    written := s.written ++ [trb] }

/-- The driver takes an event, if there is one. -/
def dequeue (s : Events) : Events :=
  match s.ring.dequeue with
  | (.ok trb, ring) => { s with ring, dequeued := s.dequeued ++ [trb] }
  | (.error _, ring) => { s with ring }

/-- The events that have not been dequeued. -/
def outstanding (s : Events) : ℕ := s.written.length - s.dequeued.length

end Events

/-- The ring and its writer in any order, where no event is overwritten before it is dequeued. -/
inductive Delivered : Events → Prop
  | init {tablePhy ringPhy : U64} {regs : InterrupterRegs} {ring : EventRing} :
      EventRing.init (some tablePhy) (some ringPhy) regs = .ok ring → Delivered { ring }
  | write {s : Events} (trb : TRB) : Delivered s → (s.write trb).outstanding ≤ 256 →
      Delivered (s.write trb)
  | dequeue {s : Events} : Delivered s → Delivered s.dequeue

/-- The slots hold the last events, both sides are where their events are, and the driver has
    dequeued the first of them. -/
structure Events.Synced (s : Events) : Prop where
  size : s.ring.size = 256
  segmentSize : s.ring.segmentSize = 256#64
  laps : Laps 256 TRB.cycle TRB.content s.ring.ring (s.written.map TRB.content)
  index : s.producer.index = s.written.length % 256
  cycleState : s.producer.cycleState = phase 256 s.written.length
  dequeueIndex : s.ring.dequeueIndex = s.dequeued.length % 256
  cycleBit : s.ring.cycleBit = phase 256 s.dequeued.length
  dequeued : s.dequeued.map TRB.content <+: s.written.map TRB.content
  outstanding : s.written.length ≤ s.dequeued.length + 256

namespace Events.Synced

variable {s : Events}

theorem dequeued_le (h : s.Synced) : s.dequeued.length ≤ s.written.length := by
  have hlength := h.dequeued.length_le
  rwa [List.length_map, List.length_map] at hlength

theorem init {tablePhy ringPhy : U64} {regs : InterrupterRegs} {ring : EventRing}
    (h : EventRing.init (some tablePhy) (some ringPhy) regs = .ok ring) :
    Synced { ring } := by
  cases h
  have hphase : true = phase 256 0 := (phase_of_lt (by decide)).symm
  have hempty : ({} : TRB).cycle = false := by decide
  exact ⟨rfl, rfl, Laps.nil fun _ _ => hempty, rfl, hphase, rfl, hphase, List.prefix_rfl, by simp⟩

theorem write (h : s.Synced) (trb : TRB) (hroom : (s.write trb).outstanding ≤ 256) :
    (s.write trb).Synced := by
  have hsucc := succ_mod (n := 256) (by decide) s.written.length
  have hphase := phase_succ 256 s.written.length
  have hlength : (s.written ++ [trb]).length = s.written.length + 1 := by simp
  have hlaps := h.laps.write (by decide) (x := trb.withCycle s.producer.cycleState)
    (by rw [TRB.cycle_withCycle, h.cycleState, List.length_map])
  rw [TRB.content_withCycle, List.length_map, ← List.map_singleton, ← List.map_append,
    ← h.index] at hlaps
  have houtstanding : (s.written ++ [trb]).length ≤ s.dequeued.length + 256 := by
    have hle := h.dequeued_le
    change (s.written ++ [trb]).length - s.dequeued.length ≤ 256 at hroom
    omega
  have hproducer : (s.write trb).producer.index = (s.written.length + 1) % 256 ∧
      (s.write trb).producer.cycleState = phase 256 (s.written.length + 1) := by
    unfold Events.write
    dsimp only
    rw [h.segmentSize, h.index, h.cycleState, show (256#64).toNat = 256 from rfl]
    by_cases hlast : s.written.length % 256 + 1 = 256
    · rw [if_pos hlast] at hsucc ⊢
      rw [if_pos hsucc] at hphase
      exact ⟨hsucc.symm, hphase.symm⟩
    · rw [if_neg hlast] at hsucc ⊢
      rw [if_neg (by omega)] at hphase
      exact ⟨hsucc.symm, hphase.symm⟩
  refine ⟨h.size, h.segmentSize, hlaps, ?_, ?_, h.dequeueIndex, h.cycleBit,
    h.dequeued.trans (by simp [Events.write]), houtstanding⟩
  · rw [hproducer.1]
    exact congrArg (· % 256) hlength.symm
  · rw [hproducer.2]
    exact congrArg (phase 256) hlength.symm

/-- The driver finds an event exactly if there is one outstanding. -/
theorem hasUnprocessedEvents_iff (h : s.Synced) :
    s.ring.hasUnprocessedEvents = true ↔ s.dequeued.length < s.written.length := by
  have hle := h.dequeued_le
  have howned := h.laps.owned_iff (by decide) (k := s.dequeued.length)
    (by rwa [List.length_map]) (by rw [List.length_map]; exact h.outstanding)
  rw [List.length_map] at howned
  unfold EventRing.hasUnprocessedEvents
  rw [decide_eq_true_iff, h.dequeueIndex, h.cycleBit, howned]

theorem next_event (h : s.Synced) (hmore : s.dequeued.length < s.written.length) :
    (s.written.map TRB.content)[s.dequeued.length]? =
      some (s.ring.ring s.ring.dequeueIndex).content := by
  rw [h.dequeueIndex]
  exact h.laps.getElem? (by rwa [List.length_map]) (by rw [List.length_map]; exact h.outstanding)

theorem dequeue (h : s.Synced) : s.dequeue.Synced := by
  unfold Events.dequeue EventRing.dequeue
  by_cases hmore : s.dequeued.length < s.written.length
  swap
  · rw [if_pos (mt h.hasUnprocessedEvents_iff.mp hmore)]
    exact h
  rw [if_neg (not_not.mpr (h.hasUnprocessedEvents_iff.mpr hmore))]
  have hsucc := succ_mod (n := 256) (by decide) s.dequeued.length
  have hphase := phase_succ 256 s.dequeued.length
  have hlength : (s.dequeued ++ [s.ring.ring s.ring.dequeueIndex]).length =
      s.dequeued.length + 1 := by simp
  have hdequeued : (s.dequeued ++ [s.ring.ring s.ring.dequeueIndex]).map TRB.content <+:
      s.written.map TRB.content := by
    rw [List.map_append, List.map_singleton]
    exact prefix_concat h.dequeued (by rw [List.length_map]; exact h.next_event hmore)
  have houtstanding : s.written.length ≤
      (s.dequeued ++ [s.ring.ring s.ring.dequeueIndex]).length + 256 := by
    have := h.outstanding
    omega
  dsimp only
  rw [h.size]
  by_cases hlast : s.ring.dequeueIndex + 1 = 256
  · rw [if_pos hlast]
    rw [← h.dequeueIndex, if_pos hlast] at hsucc
    rw [if_pos hsucc, ← h.cycleBit, ← hlength] at hphase
    rw [← hlength] at hsucc
    exact ⟨rfl, h.segmentSize, h.laps, h.index, h.cycleState, hsucc.symm, hphase.symm, hdequeued,
      houtstanding⟩
  · rw [if_neg hlast]
    rw [← h.dequeueIndex, if_neg hlast] at hsucc
    rw [if_neg (by omega), ← h.cycleBit, ← hlength] at hphase
    rw [← hlength] at hsucc
    exact ⟨rfl, h.segmentSize, h.laps, h.index, h.cycleState, hsucc.symm, hphase.symm, hdequeued,
      houtstanding⟩

end Events.Synced

theorem Delivered.synced {s : Events} (h : Delivered s) : s.Synced := by
  induction h with
  | init hinit => exact .init hinit
  | write trb _ hroom ih => exact ih.write trb hroom
  | dequeue _ ih => exact ih.dequeue

/-- **Rings.** In every interleaving with a controller, the controller has seen the first of the
    blocks that have been enqueued, in order and once, and it sees all of them if it goes on; and
    the driver has dequeued the first of the events that have been written, and dequeues the next
    one, or nothing if there is none. -/
theorem rings_refine :
    (∀ s : Transfers, Interleaved s →
      s.consumer.seen.map TRB.content <+: s.enqueued.map TRB.content ∧
      ∃ n, (Transfers.consume^[n] s).consumer.seen.map TRB.content =
        s.enqueued.map TRB.content) ∧
    (∀ s : Events, Delivered s →
      s.dequeued.map TRB.content <+: s.written.map TRB.content ∧
      s.ring.dequeue.1.map TRB.content =
        match (s.written.map TRB.content)[s.dequeued.length]? with
        | some event => .ok event
        | none => .error .wouldBlock) := by
  refine ⟨fun s h => ⟨h.synced.seen, h.synced.drains⟩, fun s h => ⟨h.synced.dequeued, ?_⟩⟩
  have hfound := h.synced.hasUnprocessedEvents_iff
  unfold EventRing.dequeue
  by_cases hmore : s.dequeued.length < s.written.length
  · rw [if_neg (not_not.mpr (hfound.mpr hmore)), h.synced.next_event hmore]
    rfl
  · rw [if_pos (mt hfound.mp hmore), List.getElem?_eq_none (by rw [List.length_map]; omega)]
    rfl

theorem Interleaved.iterate {s : Transfers} (h : Interleaved s) (k : ℕ) :
    Interleaved (Transfers.consume^[k] s) ∧ (Transfers.consume^[k] s).enqueued = s.enqueued := by
  induction k with
  | zero => exact ⟨h, rfl⟩
  | succ k ih =>
    rw [Function.iterate_succ_apply']
    exact ⟨.consume ih.1, ih.2⟩

/-- Blocks are enqueued and seen in turn. -/
theorem exists_interleaved (n : ℕ) : ∃ s : Transfers, Interleaved s ∧ s.enqueued.length = n ∧
    s.consumer.seen.length = n := by
  induction n with
  | zero =>
    obtain ⟨ring, hring⟩ : ∃ ring, EnqueueRing.init (some 0x1000#64) = .ok ring := ⟨_, rfl⟩
    exact ⟨_, .init hring, rfl, rfl⟩
  | succ n ih =>
    obtain ⟨s, hs, henqueued, hseen⟩ := ih
    have hnext := Interleaved.enqueue { control := 1#32 <<< 10 } hs (by decide)
      (by simp [Transfers.outstanding, Transfers.enqueue, henqueued, hseen])
    have hlength : (s.enqueue { control := 1#32 <<< 10 }).enqueued.length = n + 1 := by
      simp [Transfers.enqueue, henqueued]
    obtain ⟨k, hk⟩ := hnext.synced.drains
    obtain ⟨hlast, hsame⟩ := hnext.iterate k
    have hall := congrArg List.length hk
    rw [List.length_map, List.length_map, hlength] at hall
    exact ⟨_, hlast, by rw [hsame, hlength], hall⟩

/-- The ring wraps around three times, and one event is dequeued. -/
theorem rings_refine_laps :
    (∃ s : Transfers, s.enqueued.length = 1000 ∧ s.consumer.seen.length = 1000 ∧
      s.consumer.seen.map TRB.content <+: s.enqueued.map TRB.content) ∧
    ∃ s : Events, s.dequeued = [] ∧
      s.ring.dequeue.1.map TRB.content = .ok { parameter := 7#64 } := by
  obtain ⟨s, hs, henqueued, hseen⟩ := exists_interleaved 1000
  obtain ⟨events, hevents⟩ : ∃ ring,
      EventRing.init (some 0x2000#64) (some 0x3000#64) {} = .ok ring := ⟨_, rfl⟩
  have hevent := Delivered.write { parameter := 7#64, control := 1#32 } (.init hevents)
    (Nat.le_of_ble_eq_true rfl)
  exact ⟨⟨s, henqueued, hseen, (rings_refine.1 _ hs).1⟩, _, rfl, (rings_refine.2 _ hevent).2⟩

end Fishix.Dev.Xhci
