import Fishix.Common.ByteMemory
import Fishix.Common.Observed
import Fishix.Common.Orbit
import Fishix.Common.Trace

/-!
# Control messages

Model of the control data of `LocalStreamSocket::sendmsg` and `LocalStreamSocket::recvmsg`
(userland/socket/local/stream.cpp:174-191, 245-254) with `CMSG_NXTHDR` (lines 9-16). `CMSG_FIRSTHDR`
is a parameter.

`sendmsg` copies `cmsg_len` bytes of a header without asking how many are left. A length is rounded
up in 64 bits, and the sum with the size of a header is compared as a signed number: a length that
makes one of them wrap lets the loop go on where it should stop, and takes it backwards or nowhere.
In `recvmsg` such a length passes the test for room.

* `nxtHdr_forward`: a step that does not wrap goes forward, to a header in the buffer.
* `controlMessages_bounded`: when the loops keep within the buffers and end.
-/

namespace Fishix.Userland

open Relation (ReflTransGen TransGen)

/-! ## Sending -/

/-- `CMSG_ALIGN`. -/
def cmsgAlign (len : U64) : U64 := (len + 7#64) &&& ~~~7#64

/-- `sizeof(struct cmsghdr)`. -/
def cmsghdrSize : ℕ := 16

def SOL_SOCKET : List (BitVec 8) := [1#8, 0#8, 0#8, 0#8]
def SCM_CREDENTIALS : List (BitVec 8) := [2#8, 0#8, 0#8, 0#8]

/-- The memory of the sender with `msg_control` and `msg_controllen`. -/
structure ControlBuffer where
  mem : ByteMemory
  control : U64
  controllen : U64

namespace ControlBuffer

variable (b : ControlBuffer)

def cmsgLen (cmsg : U64) : U64 := b.mem.loadWord cmsg

/-- `cmsg_level == SOL_SOCKET && cmsg_type == SCM_CREDENTIALS`. -/
def isCredentials (cmsg : U64) : Bool :=
  b.mem.load (cmsg + 8#64) 4 = SOL_SOCKET ∧ b.mem.load (cmsg + 12#64) 4 = SCM_CREDENTIALS

/-- `CMSG_NXTHDR` (userland/socket/local/stream.cpp:12-16). -/
def nxtHdr (cmsg : U64) : Option U64 :=
  if b.cmsgLen cmsg < BitVec.ofNat 64 cmsghdrSize ∨
      (b.control + b.controllen - cmsg).toInt ≤
        (BitVec.ofNat 64 cmsghdrSize + cmsgAlign (b.cmsgLen cmsg)).toInt then none
  else some (cmsg + cmsgAlign (b.cmsgLen cmsg))

/-- The place of a header in the buffer. -/
def place (cmsg : U64) : ℕ := (cmsg - b.control).toNat

/-- What is copied at a header (userland/socket/local/stream.cpp:246-248). -/
def copied (cmsg : U64) : Option Access :=
  if b.isCredentials cmsg then some ⟨b.place cmsg, (b.cmsgLen cmsg).toNat⟩ else none

/-- The headers that the loop comes to from the first one. -/
def Visits (first : Option U64) (cmsg : U64) : Prop :=
  ∃ start ∈ first, ReflTransGen (Leads b.nxtHdr) start cmsg

/-- The loop ends, visits only headers that lie in the buffer, and copies nothing behind it. -/
structure SendBounded (first : Option U64) : Prop where
  finishes : ∀ start ∈ first, ∃ n, stepN b.nxtHdr n start = none
  header : ∀ cmsg, b.Visits first cmsg → b.place cmsg + cmsghdrSize ≤ b.controllen.toNat
  copy : ∀ cmsg, b.Visits first cmsg → ∀ a ∈ b.copied cmsg, a.stop ≤ b.controllen.toNat

/-- A length rounded up to the alignment of a header. -/
def roundUp (n : ℕ) : ℕ := (n + 7) / 8 * 8

/-- The loop goes on though the message and one more header are not in the buffer. -/
def Wraps (cmsg : U64) : Prop :=
  (b.nxtHdr cmsg).isSome ∧
    b.controllen.toNat < b.place cmsg + roundUp (b.cmsgLen cmsg).toNat + cmsghdrSize

/-- Credentials end in the buffer. Where the length of a header wraps, the loop goes on with a
    header in the buffer and does not come back. -/
structure HeaderFits (cmsg : U64) : Prop where
  credentials : b.isCredentials cmsg →
    b.place cmsg + (b.cmsgLen cmsg).toNat ≤ b.controllen.toNat
  wrapped : b.Wraps cmsg → (∀ next ∈ b.nxtHdr cmsg,
    b.place next + cmsghdrSize ≤ b.controllen.toNat) ∧ ¬TransGen (Leads b.nxtHdr) cmsg cmsg

end ControlBuffer

/-- What `CMSG_FIRSTHDR` promises: the first header is at `msg_control`, and there is none if the
    buffer has no room for one. -/
structure IsFirstHdr (firstHdr : U64 → U64 → Option U64) : Prop where
  start : ∀ control controllen cmsg, firstHdr control controllen = some cmsg → cmsg = control
  room : ∀ control controllen, (firstHdr control controllen).isSome →
    cmsghdrSize ≤ controllen.toNat

/-! ## Receiving -/

/-- The loop of `recvmsg` (userland/socket/local/stream.cpp:177-188): the places in `msg_control`
    that have been written, `ancillary_transferred`, and `MSG_CTRUNC`. -/
structure RecvControl where
  writes : List Access := []
  transferred : U64 := 0#64
  truncated : Bool := false

/-- One header of the queue, which has the length `len`. -/
def RecvControl.take (controllen : U64) (s : RecvControl) (len : U64) : RecvControl :=
  if s.transferred + cmsgAlign len ≤ controllen then { s with
    writes := s.writes ++ [⟨s.transferred.toNat, len.toNat⟩]
    transferred := s.transferred + cmsgAlign len }
  else { s with truncated := true }

/-- The control data of `recvmsg` (userland/socket/local/stream.cpp:174-190), with the lengths of
    the headers in `ancillary_ring_buffer`. `transferred` is the new `msg_controllen`. -/
def recvControl (controllen : U64) (queue : List U64) : RecvControl :=
  if 0#64 < controllen then queue.foldl (RecvControl.take controllen) {}
  else { transferred := controllen }

/-- What has been written ends in the buffer. -/
def RecvControl.Within (controllen : U64) (s : RecvControl) : Prop :=
  ∀ a ∈ s.writes, a.stop ≤ controllen.toNat

/-- No more than `msg_controllen` bytes are written. -/
def RecvBounded (controllen : U64) (queue : List U64) : Prop :=
  (recvControl controllen queue).Within controllen

/-- A header that is taken does not make the sum wrap, or it ends in the buffer nevertheless. -/
def LengthFits (controllen : U64) (s : RecvControl) (len : U64) : Prop :=
  s.transferred + cmsgAlign len ≤ controllen →
    s.transferred.toNat + ControlBuffer.roundUp len.toNat < 2 ^ 64 ∨
      s.transferred.toNat + len.toNat ≤ controllen.toNat

/-! ## Rounding -/

section Rounding

variable (len : U64)

theorem and_not_seven (x : U64) : (x &&& ~~~7#64).toNat = x.toNat / 8 * 8 := by
  have hshift : x &&& ~~~7#64 = (x >>> 3) <<< 3 := by
    rw [show (7#64 : U64) = (BitVec.allOnes 3).setWidth 64 by decide]
    apply BitVec.eq_of_getLsbD_eq
    intro i hi
    simp only [BitVec.getLsbD_and, BitVec.getLsbD_not, BitVec.getLsbD_setWidth,
      BitVec.getLsbD_allOnes, BitVec.getLsbD_shiftLeft, BitVec.getLsbD_ushiftRight]
    grind
  have hlt := x.isLt
  rw [hshift, BitVec.toNat_shiftLeft, BitVec.toNat_ushiftRight, Nat.shiftLeft_eq,
    Nat.shiftRight_eq_div_pow]
  omega

theorem cmsgAlign_toNat : (cmsgAlign len).toNat = (len.toNat + 7) % 2 ^ 64 / 8 * 8 := by
  unfold cmsgAlign
  rw [and_not_seven, BitVec.toNat_add]
  rfl

theorem le_roundUp (n : ℕ) : n ≤ ControlBuffer.roundUp n := by
  unfold ControlBuffer.roundUp
  omega

/-- A length that is not too large is rounded up as it should be. -/
theorem cmsgAlign_eq (h : ControlBuffer.roundUp len.toNat < 2 ^ 64) :
    (cmsgAlign len).toNat = ControlBuffer.roundUp len.toNat := by
  rw [cmsgAlign_toNat]
  unfold ControlBuffer.roundUp at h ⊢
  omega

end Rounding

/-! ## The walk of `sendmsg` -/

namespace ControlBuffer

variable {b : ControlBuffer} {cmsg next : U64} {first : Option U64}

/-- What `CMSG_NXTHDR` has compared when it goes on. -/
theorem nxtHdr_eq_some_iff : b.nxtHdr cmsg = some next ↔
    cmsghdrSize ≤ (b.cmsgLen cmsg).toNat ∧
      (BitVec.ofNat 64 cmsghdrSize + cmsgAlign (b.cmsgLen cmsg)).toInt <
        (b.control + b.controllen - cmsg).toInt ∧
      cmsg + cmsgAlign (b.cmsgLen cmsg) = next := by
  unfold nxtHdr
  rw [Option.ite_none_left_eq_some, not_or, BitVec.not_lt, not_le, and_assoc, Option.some_inj]
  rfl

/-- Where the lengths of the headers do not wrap, the next one lies behind them in the buffer. -/
theorem nxtHdr_forward (hnext : b.nxtHdr cmsg = some next) (hwrap : ¬b.Wraps cmsg) :
    b.place cmsg < b.place next ∧ b.place next + cmsghdrSize ≤ b.controllen.toNat := by
  have hroom : b.place cmsg + roundUp (b.cmsgLen cmsg).toNat + cmsghdrSize ≤
      b.controllen.toNat := by
    by_contra hover
    exact hwrap ⟨Option.isSome_iff_exists.mpr ⟨next, hnext⟩, Nat.lt_of_not_le hover⟩
  obtain ⟨hlong, -, rfl⟩ := nxtHdr_eq_some_iff.mp hnext
  have hlt := b.controllen.isLt
  have halign := cmsgAlign_eq (b.cmsgLen cmsg) (by omega)
  have hround := le_roundUp (b.cmsgLen cmsg).toNat
  have hplace : b.place (cmsg + cmsgAlign (b.cmsgLen cmsg)) =
      b.place cmsg + roundUp (b.cmsgLen cmsg).toNat := by
    unfold place at hroom ⊢
    rw [show cmsg + cmsgAlign (b.cmsgLen cmsg) - b.control =
      cmsg - b.control + cmsgAlign (b.cmsgLen cmsg) by ring, BitVec.toNat_add, halign]
    exact Nat.mod_eq_of_lt (by omega)
  have hpos : 0 < cmsghdrSize := by decide
  omega

theorem copied_of_credentials (hcred : b.isCredentials cmsg) :
    b.copied cmsg = some ⟨b.place cmsg, (b.cmsgLen cmsg).toNat⟩ := by
  unfold copied
  rw [if_pos hcred]

theorem Visits.step (hvisit : b.Visits first cmsg) (hnext : b.nxtHdr cmsg = some next) :
    b.Visits first next := by
  obtain ⟨start, hfirst, hwalk⟩ := hvisit
  exact ⟨start, hfirst, hwalk.tail hnext⟩

theorem Visits.header (hstart : ∀ start ∈ first, b.place start + cmsghdrSize ≤ b.controllen.toNat)
    (hfits : ∀ cmsg, b.Visits first cmsg → b.HeaderFits cmsg) (hvisit : b.Visits first cmsg) :
    b.place cmsg + cmsghdrSize ≤ b.controllen.toNat := by
  obtain ⟨start, hfirst, hwalk⟩ := hvisit
  induction hwalk with
  | refl => exact hstart start hfirst
  | @tail cmsg next hwalk hstep ih =>
    by_cases hwrap : b.Wraps cmsg
    · exact ((hfits _ ⟨start, hfirst, hwalk⟩).wrapped hwrap).1 _ hstep
    · exact (nxtHdr_forward hstep hwrap).2

/-- The loop keeps within the buffer and ends exactly if every header that it visits fits. -/
theorem sendBounded_iff
    (hstart : ∀ start ∈ first, b.place start + cmsghdrSize ≤ b.controllen.toNat) :
    b.SendBounded first ↔ ∀ cmsg, b.Visits first cmsg → b.HeaderFits cmsg := by
  constructor
  · intro hbounded cmsg hvisit
    refine ⟨fun hcred => ?_, fun _ => ⟨fun next hnext => ?_, fun hcycle => ?_⟩⟩
    · have hcopy := hbounded.copy cmsg hvisit ⟨b.place cmsg, (b.cmsgLen cmsg).toNat⟩
      exact hcopy (copied_of_credentials hcred)
    · exact hbounded.header next (hvisit.step hnext)
    · obtain ⟨start, hfirst, hwalk⟩ := hvisit
      have hends := hbounded.finishes start hfirst
      rw [exists_stepN_eq_none_iff Set.finite_univ fun _ _ _ => Set.mem_univ _] at hends
      exact hends ⟨cmsg, hwalk, hcycle⟩
  · intro hfits
    refine ⟨fun start hfirst => ?_, fun cmsg hvisit => hvisit.header hstart hfits,
      fun cmsg hvisit a ha => ?_⟩
    · -- a step forward leaves less of the buffer
      refine exists_stepN_eq_none_of_rank_or_no_cycle (fun cmsg => 2 ^ 64 - b.place cmsg) ?_
      intro cmsg next hwalk hstep
      by_cases hwrap : b.Wraps cmsg
      · exact .inr ((hfits cmsg ⟨start, hfirst, hwalk⟩).wrapped hwrap).2
      · have hforward := (nxtHdr_forward hstep hwrap).1
        have hlt : b.place next < 2 ^ 64 := (next - b.control).isLt
        left
        omega
    · obtain ⟨hcred, hcopied⟩ := Option.ite_none_right_eq_some.mp ha
      obtain rfl := Option.some.inj hcopied
      exact (hfits cmsg hvisit).credentials hcred

end ControlBuffer

theorem IsFirstHdr.place_le {firstHdr : U64 → U64 → Option U64} (hfirst : IsFirstHdr firstHdr)
    (b : ControlBuffer) : ∀ start ∈ firstHdr b.control b.controllen,
    b.place start + cmsghdrSize ≤ b.controllen.toNat := by
  intro start hstart
  have hroom := hfirst.room b.control b.controllen (Option.isSome_iff_exists.mpr ⟨start, hstart⟩)
  obtain rfl := hfirst.start _ _ _ hstart
  unfold ControlBuffer.place
  rw [BitVec.sub_self, BitVec.toNat_zero, Nat.zero_add]
  exact hroom

/-! ## The queue of `recvmsg` -/

section Receiving

variable {controllen len : U64} {s : RecvControl} {queue : List U64}

/-- One more header is written into the buffer exactly if its length fits. -/
theorem take_within_iff : (s.take controllen len).Within controllen ↔
    s.Within controllen ∧ LengthFits controllen s len := by
  unfold RecvControl.take RecvControl.Within LengthFits
  by_cases htakes : s.transferred + cmsgAlign len ≤ controllen
  · rw [if_pos htakes, imp_iff_right htakes]
    simp only [List.forall_mem_append, List.forall_mem_singleton]
    refine and_congr_right fun _ => ⟨.inr, fun hfits => hfits.elim (fun hsum => ?_) id⟩
    -- the test for room is about the rounded length
    have hround := le_roundUp len.toNat
    have halign := cmsgAlign_eq len (by omega)
    have hle := BitVec.le_def.mp htakes
    rw [BitVec.toNat_add, halign, Nat.mod_eq_of_lt hsum] at hle
    unfold Access.stop
    show s.transferred.toNat + len.toNat ≤ controllen.toNat
    omega
  · rw [if_neg htakes]
    exact ⟨fun h => ⟨h, fun hno => absurd hno htakes⟩, fun h => h.1⟩

theorem recvBounded_iff : RecvBounded controllen queue ↔
    (0#64 < controllen → Along (RecvControl.take controllen) (LengthFits controllen) {} queue) := by
  unfold RecvBounded recvControl
  by_cases hroom : 0#64 < controllen
  · rw [if_pos hroom, imp_iff_right hroom]
    refine along_iff ?_ fun s len => take_within_iff
    exact fun a ha => absurd ha List.not_mem_nil
  · rw [if_neg hroom]
    exact ⟨fun _ hno => absurd hno hroom, fun _ a ha => absurd ha List.not_mem_nil⟩

end Receiving

/-! ## Both sides -/

/-- **Main theorem.** `sendmsg` comes to the end of the control data within the buffer exactly if
    all headers on its way fit, and `recvmsg` writes no more than `msg_controllen` bytes exactly if
    the lengths that it takes do. -/
theorem controlMessages_bounded {firstHdr : U64 → U64 → Option U64} (hfirst : IsFirstHdr firstHdr)
    (b : ControlBuffer) (controllen : U64) (queue : List U64) :
    (b.SendBounded (firstHdr b.control b.controllen) ↔
      ∀ cmsg, b.Visits (firstHdr b.control b.controllen) cmsg → b.HeaderFits cmsg) ∧
    (RecvBounded controllen queue ↔ (0#64 < controllen →
      Along (RecvControl.take controllen) (LengthFits controllen) {} queue)) :=
  ⟨ControlBuffer.sendBounded_iff (hfirst.place_le b), recvBounded_iff⟩

/-- A buffer of 32 bytes with one header, for credentials. -/
def credentialsOf (len : U64) : ControlBuffer where
  mem := ByteMemory.store (fun _ => 0#8) 0x1000#64
    (ByteMemory.wordBytes len ++ SOL_SOCKET ++ SCM_CREDENTIALS)
  control := 0x1000#64
  controllen := 32#64

/-- `CMSG_FIRSTHDR`. -/
def cmsgFirstHdr (control controllen : U64) : Option U64 :=
  if cmsghdrSize ≤ controllen.toNat then some control else none

theorem isFirstHdr_cmsgFirstHdr : IsFirstHdr cmsgFirstHdr where
  start _ _ _ h := (Option.some.inj (Option.ite_none_right_eq_some.mp h).2).symm
  room control controllen h := by
    obtain ⟨_, h⟩ := Option.isSome_iff_exists.mp h
    exact (Option.ite_none_right_eq_some.mp h).1

/-- Credentials with their own length are sent and received. -/
theorem controlMessages_bounded_credentials :
    (credentialsOf 28#64).SendBounded (cmsgFirstHdr 0x1000#64 32#64) ∧
      RecvBounded 32#64 [28#64] := by
  have hboth := controlMessages_bounded isFirstHdr_cmsgFirstHdr (credentialsOf 28#64) 32#64 [28#64]
  refine ⟨hboth.1.mpr ?_, hboth.2.mpr ?_⟩
  · rintro cmsg ⟨start, hfirst, hwalk⟩
    obtain rfl : 0x1000#64 = start := Option.some.inj hfirst
    have hlast : (credentialsOf 28#64).nxtHdr 0x1000#64 = none := by decide +kernel
    obtain rfl | ⟨next, hstep, -⟩ := hwalk.cases_head
    · refine ⟨fun _ => by decide +kernel, fun hwrap => ?_⟩
      have hgoes := hwrap.1
      rw [hlast] at hgoes
      contradiction
    · exact absurd (hlast.symm.trans hstep) (Option.some_ne_none next).symm
  · intro _
    refine along_concat_iff.mpr ⟨along_nil, fun _ => .inr ?_⟩
    decide

/-- A header whose length rounds up to zero is followed by itself, and all of the address space is
    copied at it. -/
theorem length_wraps_to_zero :
    ¬∀ b : ControlBuffer, b.SendBounded (cmsgFirstHdr b.control b.controllen) := by
  intro hall
  obtain ⟨n, hends⟩ := (hall (credentialsOf (BitVec.allOnes 64))).finishes 0x1000#64 rfl
  have hround : stepN (credentialsOf (BitVec.allOnes 64)).nxtHdr 1 0x1000#64 = some 0x1000#64 := by
    decide +kernel
  exact stepN_ne_none_of_cycle hround n hends

end Fishix.Userland
