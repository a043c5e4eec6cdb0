import Fishix.Userland.LocalStream

/-!
# `SOCK_SEQPACKET`

The packets of two connected local sockets of type `SOCK_SEQPACKET`: `sendmsg` puts the length of a
message in front of its bytes (userland/socket/local/stream.cpp:265-274), and `recvmsg` reads one
length and that many bytes (userland/socket/local/stream.cpp:201-231).

`sendmsg` waits only until the buffer is not full. With less room than the length and the message
need, it fails an assertion, or cuts the message off behind a length that promises more.

* `send_packet`, `receive_packet`: one packet.
* `Framed.keeps_iff`: a step keeps the messages apart exactly if there is room.
* `seqpacket_boundaries_iff`: when messages keep their boundaries.
* `message_too_long`: a message that does not fit.
-/

namespace Fishix.Userland

open Function (update update_self update_of_ne)
open BitVec (ofNat)

/-- A packet in the buffer. -/
def frame (m : List Byte) : List Byte := wordBytes (ofNat 32 m.length) ++ m

def frames (ms : List (List Byte)) : List Byte := ms.flatMap frame

@[simp] theorem frame_length (m : List Byte) : (frame m).length = 4 + m.length := by
  unfold frame
  rw [List.length_append, wordBytes_length]

theorem frames_append (ms ms' : List (List Byte)) : frames (ms ++ ms') = frames ms ++ frames ms' :=
  List.flatMap_append

theorem frames_singleton (m : List Byte) : frames [m] = frame m := by
  simp [frames]

/-! ## One packet -/

section Packet

variable {b b' : StreamBuffer} {written taken : List Byte}

section

variable (h : b.Carries written taken) (hbound : taken.length + streamCapacity < 2 ^ 64)

include h hbound

/-- The length in front of a packet is written, if there is room for it. -/
theorem write_header (n : BitVec 32) :
    (b.write (wordBytes n)).1 = min 4 b.freeCount.toNat ∧
      (4 ≤ b.freeCount.toNat → (b.write (wordBytes n)).2.Carries (written ++ wordBytes n) taken) := by
  have hroom := h.room
  have hfree := h.freeCount streamCapacity_lt
  have hindices : written.length + min (wordBytes n).length
      (taken.length + streamCapacity - written.length) < 2 ^ 64 := by
    rw [wordBytes_length]
    omega
  have hwrite := h.write streamCapacity_lt (wordBytes n) (.inr hindices)
  rw [wordBytes_length, ← hfree] at hwrite
  refine ⟨hwrite.1, ?_⟩
  intro hlong
  have hcarries := hwrite.2
  rwa [hwrite.1, List.take_of_length_le (by rw [wordBytes_length]; omega)] at hcarries

/-- `sendmsg` without room for the length fails. -/
theorem send_short (hshort : b.freeCount.toNat < 4) (iovs : List (List Byte)) :
    send true b iovs = .error .assertFailed := by
  have hheader := (write_header h hbound (ofNat 32 (iovs.map List.length).sum)).1
  have hret : (b.write (wordBytes (ofNat 32 (iovs.map List.length).sum))).1 ≠ 4 := by
    rw [hheader]
    omega
  unfold send
  simp only [if_true]
  rw [if_pos hret]

/-- `sendmsg` with room for the length cuts the message off where the room ends. -/
theorem send_packet (hlong : 4 ≤ b.freeCount.toNat) (iovs : List (List Byte)) :
    ∃ n b', n = min iovs.flatten.length (b.freeCount.toNat - 4) ∧ send true b iovs = .ok (n, b') ∧
      b'.Carries (written ++ (wordBytes (ofNat 32 iovs.flatten.length) ++
        iovs.flatten.take n)) taken := by
  have hfree := h.freeCount streamCapacity_lt
  obtain ⟨hheader, hcarries⟩ := write_header h hbound (ofNat 32 iovs.flatten.length)
  have hret : (b.write (wordBytes (ofNat 32 iovs.flatten.length))).1 = 4 := by
    rw [hheader]
    omega
  obtain ⟨n, hn, htransferred, hcarries'⟩ := @sendLoop_spec _ _ _ iovs 0 (hcarries hlong) hbound
  rw [List.append_assoc] at hcarries'
  refine ⟨n, _, ?_, ?_, hcarries'⟩
  · rw [hn, List.length_append, wordBytes_length, hfree]
    omega
  · unfold send
    rw [← List.length_flatten]
    simp only [if_true]
    rw [if_neg (not_not.mpr hret)]
    rw [Nat.zero_add] at htransferred
    exact congrArg Except.ok (Prod.ext htransferred rfl)

end

theorem receive_packet {m rest pre : List Byte} (h : b.Carries (pre ++ (frame m ++ rest)) pre)
    (hm : m.length < 2 ^ 32) (lens : List ℕ) :
    ∃ r b', receive true b lens = .ok (r, b') ∧ r.Of m ∧
      b'.Carries (pre ++ (frame m ++ rest)) (pre ++ frame m) := by
  have hdrop : (pre ++ (frame m ++ rest)).drop pre.length = frame m ++ rest := List.drop_left
  obtain ⟨hread, hcarries⟩ := h.read streamCapacity_lt 4
  have hheader : (b.read 4).1 = wordBytes (ofNat 32 m.length) := by
    rw [hread, hdrop]
    unfold frame
    rw [List.append_assoc, List.take_append_of_le_length (by simp),
      List.take_of_length_le (by simp)]
  have hlength : (bytesWord (b.read 4).1).toNat = m.length := by
    rw [hheader, bytesWord_wordBytes, BitVec.toNat_ofNat, Nat.mod_eq_of_lt hm]
  rw [hheader] at hcarries
  have hbody : (pre ++ (frame m ++ rest)).drop
      (pre ++ wordBytes (ofNat 32 m.length)).length = m ++ rest := by
    unfold frame
    rw [List.append_assoc, ← List.append_assoc, List.drop_left]
  obtain ⟨bytes, hbytes, hchunks, hfits, htransferred, hcarries'⟩ :=
    @recvLoop_spec _ _ _ (some m.length) lens 0 hcarries
  rw [hbody] at hbytes
  have hbytes : bytes = m.take lens.sum := by
    rw [hbytes]
    show ((m ++ rest).take (m.length - 0)).take lens.sum = m.take lens.sum
    rw [Nat.sub_zero, List.take_left]
  rw [Nat.zero_add, hbytes, List.length_take] at htransferred
  rw [hbytes] at hchunks hcarries'
  unfold receive
  simp only [if_true, hheader, wordBytes_length, ne_eq, not_true_eq_false, if_false]
  rw [← hheader, hlength, if_neg (by rw [htransferred]; omega)]
  by_cases htrunc : (recvLoop (some m.length) (b.read 4).2 lens 0).2.1 < m.length
  · rw [if_pos htrunc]
    refine ⟨_, _, rfl, ⟨hchunks, hfits, ?_, ?_⟩, ?_⟩
    · rw [htransferred, Nat.min_comm]
    · rw [htransferred] at htrunc
      exact iff_of_true rfl (show lens.sum < m.length by omega)
    · -- the rest of the message is dropped
      have hdropped := hcarries'.truncate streamCapacity_lt
        (m.length - (recvLoop (some m.length) (b.read 4).2 lens 0).2.1)
      have hrest : (pre ++ (frame m ++ rest)).drop
          (pre ++ wordBytes (ofNat 32 m.length) ++ m.take lens.sum).length =
          m.drop lens.sum ++ rest := by
        have hsplit : pre ++ (frame m ++ rest) = pre ++ wordBytes (ofNat 32 m.length) ++
            m.take lens.sum ++ (m.drop lens.sum ++ rest) := by
          unfold frame
          simp only [List.append_assoc]
          rw [← List.append_assoc (m.take lens.sum), List.take_append_drop]
        rw [hsplit, List.drop_left]
      have htail : m.length - min lens.sum m.length = (m.drop lens.sum).length := by
        rw [List.length_drop]
        omega
      rw [hrest, htransferred, htail, List.take_left, List.append_assoc _ (m.take _),
        List.take_append_drop, List.append_assoc, ← htail, ← htransferred] at hdropped
      exact hdropped
  · rw [if_neg htrunc]
    refine ⟨_, _, rfl, ⟨hchunks, hfits, ?_, ?_⟩, ?_⟩
    · rw [htransferred, Nat.min_comm]
    · rw [htransferred] at htrunc
      exact iff_of_false (by simp) (show ¬lens.sum < m.length by omega)
    · rw [htransferred] at htrunc
      rw [List.take_of_length_le (by omega), List.append_assoc] at hcarries'
      exact hcarries'

end Packet

namespace StreamWorld

/-! ## What packets are to do -/

/-- The messages that `sendmsg` at `e` has taken. -/
def messages (w : StreamWorld) (e : Bool) : List (List Byte) := (w.link.sent e).map Prod.fst

/-- Every message sent at the other end is whole, and those received at `e` are the first of them,
    in order, each once. -/
structure Bounds (w : StreamWorld) (e : Bool) : Prop where
  whole : ∀ x ∈ w.link.sent (!e), x.2 = x.1.length
  order : (w.link.received e).length ≤ (w.messages (!e)).length
  received : ∀ (k : ℕ) (hr : k < (w.link.received e).length) (hm : k < (w.messages (!e)).length),
    (w.link.received e)[k].Of (w.messages (!e))[k]

/-- The message of a `sendmsg` that finds the buffer not full fits into it, with its length. -/
def Fits (w : StreamWorld) (o : StreamOp) : Prop :=
  ∀ x ∈ w.sends o, w.link.peer x.1 = true → ∀ b ∈ w.link.ringBuffer (!x.1),
    b.isFull = false → 4 + x.2.flatten.length ≤ b.freeCount.toNat

instance (w : StreamWorld) (o : StreamOp) : Decidable (w.Fits o) :=
  inferInstanceAs (Decidable (∀ x ∈ w.sends o, w.link.peer x.1 = true → ∀ b ∈ w.link.ringBuffer (!x.1),
    b.isFull = false → 4 + x.2.flatten.length ≤ b.freeCount.toNat))

/-- What a step is to do: no assertion fails, a `sendmsg` that reports success has queued its message
    as a whole, and a `recvmsg` returns the beginning of the next message. -/
structure Keeps (w : StreamWorld) (o : StreamOp) : Prop where
  assertion : w.perform o ≠ .error .assertFailed
  sent : ∀ e m n w', w.perform o = .ok (.sent e m n, w') → n = m.length
  received : ∀ e r w', w.perform o = .ok (.received e r, w') →
    ∃ m, (w.messages (!e))[(w.link.received e).length]? = some m ∧ r.Of m

/-! ## Every step -/

/-- The buffer of `e` carries the packets sent at the other end, and what was taken out are the
    first of them. -/
def Packets (w : StreamWorld) (e : Bool) : Prop :=
  ∃ taken rest, w.messages (!e) = taken ++ rest ∧
    List.Forall₂ Receipt.Of (w.link.received e) taken ∧
    ∀ b ∈ w.link.ringBuffer e, b.Carries (frames (taken ++ rest)) (frames taken)

structure Framed (w : StreamWorld) : Prop where
  packets : w.link.isSeqpacket = true
  whole : ∀ e, ∀ x ∈ w.link.sent e, x.2 = x.1.length ∧ x.1.length < 2 ^ 32
  carries : ∀ e, w.Packets e

theorem framed_connected (pending : Bool → ℕ) : (connected true pending).Framed := by
  refine ⟨rfl, fun e x hx => by simp [connected] at hx, ?_⟩
  intro e
  refine ⟨[], [], rfl, .nil, ?_⟩
  intro b hb
  cases hb
  exact RingBuffer.carries_empty _

variable {w w' : StreamWorld} {o : StreamOp} {reply : StreamReply} {e : Bool}

theorem Framed.bounds (h : w.Framed) (e : Bool) : w.Bounds e := by
  obtain ⟨taken, rest, hmessages, hreceived, -⟩ := h.carries e
  have hlength := hreceived.length_eq
  refine ⟨fun x hx => (h.whole (!e) x hx).1, ?_, ?_⟩
  · rw [hmessages, List.length_append]
    omega
  · intro k hr hm
    have hk : k < taken.length := by omega
    have hmessage : (w.messages (!e))[k] = taken[k] := by
      simp only [hmessages]
      rw [List.getElem_append_left hk]
    rw [hmessage]
    exact (List.forall₂_iff_get.mp hreceived).2 k hr hk

/-- The bytes in the buffer are those that were sent, with their lengths. -/
theorem Framed.carried (h : w.Framed) (e : Bool) :
    w.link.carried e = (frames (w.messages e)).length := by
  have hwhole := h.whole e
  unfold StreamLink.carried messages frames
  rw [h.packets, List.length_flatMap, List.map_map]
  congr 1
  apply List.map_congr_left
  intro x hx
  show x.2 + 4 = (frame x.1).length
  rw [frame_length, (hwhole x hx).1, Nat.add_comm]

theorem Packets.congr (h : w.Packets e) (hlink : w'.link = w.link) : w'.Packets e := by
  unfold Packets messages
  rw [hlink]
  exact h

theorem messages_carry {m : List Byte} {n : ℕ} {b : StreamBuffer}
    (hlink : w'.link = w.link.carry e m n b) (x : Bool) :
    w'.messages x = if x = e then w.messages e ++ [m] else w.messages x := by
  unfold messages
  rw [hlink]
  unfold StreamLink.carry
  by_cases hx : x = e
  · subst hx
    simp
  · simp [hx]

section

variable (h : w.Framed)

include h

/-- What `sendmsg` does to a buffer of packets. -/
theorem Framed.send_cases (hbound : w.Bounded) {b : StreamBuffer}
    (hbuffer : w.link.ringBuffer (!e) = some b) (iovs : List (List Byte)) :
    (b.freeCount.toNat < 4 → send true b iovs = .error .assertFailed) ∧
    (4 ≤ b.freeCount.toNat → ∃ n b' taken rest, w.messages e = taken ++ rest ∧
      List.Forall₂ Receipt.Of (w.link.received (!e)) taken ∧
      n = min iovs.flatten.length (b.freeCount.toNat - 4) ∧ n < 2 ^ 32 ∧
      send true b iovs = .ok (n, b') ∧
      b'.Carries (frames (taken ++ rest) ++ (wordBytes (ofNat 32 iovs.flatten.length) ++
        iovs.flatten.take n)) (frames taken)) := by
  obtain ⟨taken, rest, hmessages, hreceived, hcarries⟩ := h.carries (!e)
  rw [Bool.not_not] at hmessages
  have hb := hcarries b hbuffer
  have hroom := hbound e
  have hle := hb.length_le
  have hfree := hb.freeCount streamCapacity_lt
  have hcap : streamCapacity < 2 ^ 32 := by decide
  rw [h.carried e, hmessages] at hroom
  refine ⟨fun hshort => send_short hb (by omega) hshort iovs, ?_⟩
  intro hlong
  obtain ⟨n, b', hn, hsend, hcarries'⟩ := send_packet hb (by omega) hlong iovs
  exact ⟨n, b', taken, rest, hmessages, hreceived, hn, by omega, hsend, hcarries'⟩

theorem Framed.sent (hbound : w.Bounded) {iovs : List (List Byte)} {n : ℕ} {b b' : StreamBuffer}
    (hbuffer : w.link.ringBuffer (!e) = some b)
    (hfits : 4 + iovs.flatten.length ≤ b.freeCount.toNat)
    (hsend : send w.link.isSeqpacket b iovs = .ok (n, b'))
    (hlink : w'.link = w.link.carry e iovs.flatten n b') : w'.Framed := by
  obtain ⟨count, b1, taken, rest, hmessages, hreceived, hcount, hsmall, hsend', hcarries'⟩ :=
    (h.send_cases hbound hbuffer iovs).2 (by omega)
  rw [h.packets] at hsend
  obtain ⟨rfl, rfl⟩ := pure_pair (hsend.symm.trans hsend')
  have hall : n = iovs.flatten.length := by omega
  refine ⟨?_, ?_, ?_⟩
  · rw [hlink]
    exact h.packets
  · intro x y hy
    rw [hlink] at hy
    change y ∈ update w.link.sent e (w.link.sent e ++ [(iovs.flatten, n)]) x at hy
    by_cases hx : x = e
    · rw [hx, update_self] at hy
      rcases List.mem_append.mp hy with hy | hy
      · exact h.whole e y hy
      · rw [List.mem_singleton.mp hy]
        rw [hall] at hsmall
        exact ⟨hall, hsmall⟩
    · rw [update_of_ne hx] at hy
      exact h.whole x y hy
  · intro x
    unfold Packets
    rw [messages_carry hlink, hlink]
    by_cases hx : x = !e
    · subst hx
      rw [Bool.not_not]
      refine ⟨taken, rest ++ [iovs.flatten], ?_, hreceived, ?_⟩
      · rw [if_pos rfl, hmessages, List.append_assoc]
      · intro c hc
        change update w.link.ringBuffer (!e) (some b') (!e) = some c at hc
        rw [update_self] at hc
        cases hc
        rw [hall, List.take_length] at hcarries'
        rw [← List.append_assoc, frames_append, frames_singleton]
        exact hcarries'
    · obtain ⟨taken', rest', hmessages', hreceived', hcarries⟩ := h.carries x
      refine ⟨taken', rest', ?_, hreceived', ?_⟩
      · rw [if_neg (by simpa [Bool.not_eq_eq_eq_not] using hx)]
        exact hmessages'
      · intro c hc
        change update w.link.ringBuffer (!e) (some b') x = some c at hc
        rw [update_of_ne hx] at hc
        exact hcarries c hc

/-- What `recvmsg` does to a buffer of packets. -/
theorem Framed.receive_cases {b : StreamBuffer} (hbuffer : w.link.ringBuffer e = some b)
    (hsome : b.isEmpty = false) (lens : List ℕ) :
    ∃ r b' m taken rest, receive true b lens = .ok (r, b') ∧ r.Of m ∧
      w.messages (!e) = taken ++ m :: rest ∧ List.Forall₂ Receipt.Of (w.link.received e) taken ∧
      b'.Carries (frames (taken ++ m :: rest)) (frames (taken ++ [m])) := by
  obtain ⟨taken, rest, hmessages, hreceived, hcarries⟩ := h.carries e
  have hb := hcarries b hbuffer
  cases rest with
  | nil =>
    have hempty : b.isEmpty = true := by
      rw [hb.isEmpty_iff streamCapacity_lt, List.append_nil]
    rw [hsome] at hempty
    cases hempty
  | cons m rest =>
    have hm : m.length < 2 ^ 32 := by
      have hmem : m ∈ w.messages (!e) := by simp [hmessages]
      obtain ⟨x, hx, rfl⟩ := List.mem_map.mp hmem
      exact (h.whole (!e) x hx).2
    have hsplit : frames (taken ++ m :: rest) = frames taken ++ (frame m ++ frames rest) := by
      rw [frames_append]
      rfl
    rw [hsplit] at hb
    obtain ⟨r, b', hreceive, hof, hcarries'⟩ := receive_packet hb hm lens
    refine ⟨r, b', m, taken, rest, hreceive, hof, hmessages, hreceived, ?_⟩
    rw [hsplit, frames_append, frames_singleton]
    exact hcarries'

theorem Framed.received {lens : List ℕ} {r : Receipt} {b b' : StreamBuffer}
    (hbuffer : w.link.ringBuffer e = some b) (hsome : b.isEmpty = false)
    (hreceive : receive w.link.isSeqpacket b lens = .ok (r, b'))
    (hlink : w'.link = w.link.hand e r b') : w'.Framed := by
  obtain ⟨r1, b1, m, taken, rest, hreceive', hof, hmessages, hreceived, hcarries⟩ :=
    h.receive_cases hbuffer hsome lens
  rw [h.packets] at hreceive
  obtain ⟨rfl, rfl⟩ := pure_pair (hreceive.symm.trans hreceive')
  have hsame : ∀ x, w'.messages x = w.messages x := by
    intro x
    unfold messages
    rw [hlink]
    rfl
  refine ⟨?_, ?_, ?_⟩
  · rw [hlink]
    exact h.packets
  · rw [hlink]
    exact h.whole
  · intro x
    unfold Packets
    rw [hsame, hlink]
    by_cases hx : x = e
    · subst hx
      refine ⟨taken ++ [m], rest, ?_, ?_, ?_⟩
      · rw [hmessages, List.append_assoc]
        rfl
      · show List.Forall₂ Receipt.Of (update w.link.received x _ x) _
        rw [update_self]
        exact List.rel_append hreceived (.cons hof .nil)
      · intro c hc
        change update w.link.ringBuffer x (some b') x = some c at hc
        rw [update_self] at hc
        cases hc
        rw [List.append_assoc]
        exact hcarries
    · obtain ⟨taken', rest', hmessages', hreceived', hcarries'⟩ := h.carries x
      refine ⟨taken', rest', hmessages', ?_, ?_⟩
      · show List.Forall₂ Receipt.Of (update w.link.received e _ x) _
        rw [update_of_ne hx]
        exact hreceived'
      · intro c hc
        change update w.link.ringBuffer e (some b') x = some c at hc
        rw [update_of_ne hx] at hc
        exact hcarries' c hc

theorem Framed.closed (hlink : w'.link = w.link.close e) : w'.Framed := by
  refine ⟨?_, ?_, ?_⟩
  · rw [hlink]
    exact h.packets
  · rw [hlink]
    exact h.whole
  · intro x
    obtain ⟨taken, rest, hmessages, hreceived, hcarries⟩ := h.carries x
    unfold Packets messages
    rw [hlink]
    refine ⟨taken, rest, hmessages, hreceived, ?_⟩
    intro c hc
    change update w.link.ringBuffer e none x = some c at hc
    by_cases hx : x = e
    · rw [hx, update_self] at hc
      cases hc
    · rw [update_of_ne hx] at hc
      exact hcarries c hc

theorem Framed.step (hbound : w.Bounded) (hfits : w.Fits o) (hstep : w.step o = .ok w') :
    w'.Framed := by
  obtain ⟨reply, heffect⟩ := step_effect hstep
  cases heffect with
  | quiet quiet =>
    refine ⟨?_, ?_, fun e => (h.carries e).congr quiet.link⟩
    · rw [quiet.link]
      exact h.packets
    · rw [quiet.link]
      exact h.whole
  | sent sends peer buffer room send link =>
    exact h.sent hbound buffer (hfits _ sends peer _ buffer room) send link
  | received buffer some receive link => exact h.received buffer some receive link
  | closed _ link => exact h.closed link

/-- A step keeps the messages apart exactly if there is room. -/
theorem Framed.keeps_iff (hbound : w.Bounded) (o : StreamOp) : w.Keeps o ↔ w.Fits o := by
  constructor
  · intro hk x hsends hpeer b hbuffer hroom
    obtain ⟨e, iovs⟩ := x
    obtain ⟨hshort, hlong⟩ := h.send_cases hbound hbuffer iovs
    obtain ⟨thread, hperform⟩ := perform_sends hsends hpeer hbuffer hroom
    rw [h.packets] at hperform
    by_contra hno
    dsimp only at hno
    by_cases hheader : b.freeCount.toNat < 4
    · rw [hshort hheader] at hperform
      exact hk.assertion hperform
    · obtain ⟨n, b', -, -, -, -, hn, -, hsend, -⟩ := hlong (by omega)
      rw [hsend] at hperform
      have hwhole := hk.sent e iovs.flatten n _ hperform
      omega
  · intro hf
    refine ⟨?_, ?_, ?_⟩
    · intro hassert
      rcases perform_assert hassert with ⟨e, iovs, b, hsends, hpeer, hbuffer, hroom, hsend⟩ |
        ⟨e, lens, b, hbuffer, hsome, hreceive⟩
      · have hfit := hf (e, iovs) hsends hpeer b hbuffer hroom
        obtain ⟨n, b', -, -, -, -, -, -, hsend', -⟩ := (h.send_cases hbound hbuffer iovs).2 (by omega)
        rw [h.packets, hsend'] at hsend
        cases hsend
      · obtain ⟨r, b', -, -, -, hreceive', -⟩ := h.receive_cases hbuffer hsome lens
        rw [h.packets, hreceive'] at hreceive
        cases hreceive
    · intro e m n w' hperform
      cases perform_effect hperform with
      | quiet quiet => exact absurd rfl (quiet.sent e m n)
      | sent sends peer buffer room send =>
        have hfit := hf _ sends peer _ buffer room
        dsimp only at hfit
        obtain ⟨n', b', -, -, -, -, hn, -, hsend', -⟩ :=
          (h.send_cases hbound buffer _).2 (by omega)
        rw [h.packets, hsend'] at send
        cases send
        omega
    · intro e r w' hperform
      cases perform_effect hperform with
      | quiet quiet => exact absurd rfl (quiet.received e r)
      | received buffer some receive =>
        obtain ⟨r', b', m, taken, rest, hreceive', hof, hmessages, hreceived, -⟩ :=
          h.receive_cases buffer some _
        rw [h.packets, hreceive'] at receive
        cases receive
        refine ⟨m, ?_, hof⟩
        rw [hmessages, hreceived.length_eq, List.getElem?_append_right le_rfl, Nat.sub_self]
        rfl

end

end StreamWorld

/-- **Main theorem.** In every run of two connected `SOCK_SEQPACKET` sockets in which every message
    fits into the buffer that `sendmsg` finds, and fewer than about `2 ^ 64` bytes are sent, the
    messages received are the first of those sent, in order and each once; and a step keeps them
    apart exactly if its message fits. -/
theorem seqpacket_boundaries_iff {pending : Bool → ℕ} {w : StreamWorld}
    (h : Run StreamWorld.step (fun w o => w.Bounded ∧ w.Fits o) (.connected true pending) w) :
    (∀ e, w.Bounds e) ∧ (w.Bounded → ∀ o, w.Keeps o ↔ w.Fits o) := by
  have hs : w.Framed := h.invariant (fun _ _ _ hs hok hstep => hs.step hok.1 hok.2 hstep)
    (StreamWorld.framed_connected pending)
  exact ⟨hs.bounds, hs.keeps_iff⟩

/-- Two messages, one of them empty, and a buffer that is too small for the first. -/
theorem seqpacket_boundaries_iff_truncated : ∃ w,
    Run StreamWorld.step (fun w o => w.Bounded ∧ w.Fits o) (.connected true fun _ => 0) w ∧
    w.messages false = [[1#8, 2#8, 3#8], []] ∧
    w.link.received true = [⟨[2], [[1#8, 2#8]], 2, true⟩, ⟨[2], [], 0, false⟩] ∧ w.Bounds true := by
  obtain ⟨w, hw, hread⟩ := exists_ok_of_map
    (show (([.recvmsg 1 true [2] false, .sendmsg 2 false false [[1#8], [], [2#8, 3#8]] false,
        .sendmsg 2 false false [] false, .resume 1 [] [2] false, .recvmsg 1 true [2] false] :
        List StreamOp).foldlM (guarded StreamWorld.step (fun w o => w.Bounded ∧ w.Fits o) .impossible)
        (.connected true fun _ => 0)).map (fun w => (w.messages false, w.link.received true)) =
      .ok ([[1#8, 2#8, 3#8], []], [⟨[2], [[1#8, 2#8]], 2, true⟩, ⟨[2], [], 0, false⟩])
      by decide +kernel)
  obtain ⟨hmessages, hreceived⟩ := Prod.mk.inj hread
  have hrun := Run.of_guarded hw
  exact ⟨w, hrun, hmessages, hreceived, (seqpacket_boundaries_iff hrun).1 true⟩

/-- A message of the size of the buffer into an empty one: `sendmsg` reports less. -/
theorem message_too_long : ¬∀ w o,
    Run StreamWorld.step (fun _ _ => True) (.connected true fun _ => 0) w → w.Keeps o := by
  intro h
  let message : List Byte := List.replicate streamCapacity 0#8
  have hkeeps := ((StreamWorld.framed_connected fun _ => 0).keeps_iff (by decide)
    (.sendmsg 1 false false [message] false)).mp (h _ _ .start)
  have hsends : (StreamWorld.connected true fun _ => 0).sends
      (.sendmsg 1 false false [message] false) = some (false, [message]) := by
    simp [StreamWorld.sends, StreamWorld.connected]
  have hfits := hkeeps (false, [message]) hsends rfl _ rfl (by decide)
  have hfree := (@RingBuffer.carries_empty Byte streamCapacity fun _ => 0#8).freeCount
    streamCapacity_lt
  rw [hfree, List.flatten_singleton, List.length_replicate] at hfits
  simp at hfits

end Fishix.Userland
