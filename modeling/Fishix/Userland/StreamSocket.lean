import Fishix.Userland.LocalStream

/-!
# `SOCK_STREAM`

Two connected local sockets of type `SOCK_STREAM` as a byte stream.

What is received at one end is always the beginning of what was accepted at the other
(userland/socket/local/stream.cpp:168-287). But `recvmsg` asks `!peer` before it looks for data, and
`close` takes the peer away and wakes nobody.

* `receives_iff`: a call of `recvmsg` does what it should exactly if the other end is open.
* `stream_reliable_iff`: when the sockets are a reliable stream.
* `closed_with_data`: a byte that nobody gets.
-/

namespace Fishix.Userland

open Function (update update_self update_of_ne)

namespace StreamWorld

/-! ## What a stream is to do -/

/-- The bytes that `sendmsg` at `e` has accepted. -/
def acceptedBytes (w : StreamWorld) (e : Bool) : List Byte :=
  (w.link.sent e).flatMap fun x => x.1.take x.2

/-- The bytes that `recvmsg` at `e` has returned. -/
def receivedBytes (w : StreamWorld) (e : Bool) : List Byte :=
  (w.link.received e).flatMap fun r => r.chunks.flatten

/-- What is still to be received at `e`. -/
def pendingBytes (w : StreamWorld) (e : Bool) : List Byte :=
  (w.acceptedBytes (!e)).drop (w.receivedBytes e).length

/-- The end and the vectors of a `recvmsg` that begins or goes on. -/
def receives (w : StreamWorld) : StreamOp → Option (Bool × List ℕ)
  | .recvmsg thread e lens _ =>
    if w.phase thread = .running ∧ w.link.closed e = false then some (e, lens) else none
  | .resume thread _ lens _ =>
    match w.phase thread with
    | .woken e .recv => if w.link.closed e = false then some (e, lens) else none
    | _ => none
  | _ => none

/-- The end that is closed. -/
def closes (w : StreamWorld) : StreamOp → Option Bool
  | .close e => if w.link.closed e = false then some e else none
  | _ => none

/-- `recvmsg` returns bytes as long as there are any, and then end of file if the other end is
    closed. -/
structure Received (w : StreamWorld) (e : Bool) (lens : List ℕ) (reply : StreamReply) : Prop where
  data : w.pendingBytes e ≠ [] → ∃ r, reply = .received e r ∧
    r.chunks.flatten = (w.pendingBytes e).take lens.sum ∧ r.transferred = r.chunks.flatten.length
  eof : w.pendingBytes e = [] → w.link.closed (!e) = true →
    ∃ r, reply = .received e r ∧ r.transferred = 0

/-- The end and the call that goes on. -/
def resumes (w : StreamWorld) : StreamOp → Option (Bool × StreamCall)
  | .resume thread _ _ _ =>
    match w.phase thread with
    | .woken e c => some (e, c)
    | _ => none
  | _ => none

/-- What a step is to do: it uses no null pointer, a `recvmsg` returns what it should, and a close
    wakes the receivers at the other end. -/
structure Delivers (w : StreamWorld) (o : StreamOp) : Prop where
  survives : w.perform o ≠ .error .nullPointer
  received : ∀ e lens, w.receives o = some (e, lens) →
    ∃ reply w', w.perform o = .ok (reply, w') ∧ w.Received e lens reply
  woken : ∀ e, w.closes o = some e → ∀ thread, w.phase thread = .asleep (!e) .recv →
    ∃ reply w', w.perform o = .ok (reply, w') ∧ w'.phase thread = .woken (!e) .recv

/-- No `recvmsg` begins or goes on with the other end closed, and none is asleep when the other end
    is closed. No `sendmsg` goes on whose peer has gone, and no `recvmsg` at an end that is closed. -/
structure Peaceful (w : StreamWorld) (o : StreamOp) : Prop where
  sender : ∀ e, w.resumes o = some (e, .send) →
    w.link.peer e = true ∧ w.link.closed (!e) = false
  receiver : ∀ e, w.resumes o = some (e, .recv) → w.link.closed e = false
  receives : ∀ e lens, w.receives o = some (e, lens) → w.link.closed (!e) = false
  closes : ∀ e, w.closes o = some e → ∀ thread, w.phase thread ≠ .asleep (!e) .recv

/-! ## Every step -/

/-- The buffer of each end carries what was accepted at the other. -/
structure Streamed (w : StreamWorld) : Prop where
  stream : w.link.isSeqpacket = false
  ordered : ∀ e, w.receivedBytes e <+: w.acceptedBytes (!e)
  carries : ∀ e, ∀ b ∈ w.link.ringBuffer e, b.Carries (w.acceptedBytes (!e)) (w.receivedBytes e)
  buffer : ∀ e, (w.link.ringBuffer e).isSome = !w.link.closed e
  peer : ∀ e, w.link.closed e = false → w.link.peer e = !w.link.closed (!e)

theorem streamed_connected (pending : Bool → ℕ) : (connected false pending).Streamed := by
  refine ⟨rfl, fun _ => List.prefix_refl _, ?_, fun _ => rfl, fun _ _ => rfl⟩
  intro e b hb
  cases hb
  exact RingBuffer.carries_empty _

variable {w w' : StreamWorld} {o : StreamOp} {reply : StreamReply} {e : Bool}

theorem Streamed.congr (h : w.Streamed) (hlink : w'.link = w.link) : w'.Streamed := by
  have haccepted : ∀ e, w'.acceptedBytes e = w.acceptedBytes e := by
    intro e
    unfold acceptedBytes
    rw [hlink]
  have hreceived : ∀ e, w'.receivedBytes e = w.receivedBytes e := by
    intro e
    unfold receivedBytes
    rw [hlink]
  refine ⟨?_, ?_, ?_, ?_, ?_⟩
  · rw [hlink]
    exact h.stream
  · intro e
    rw [haccepted, hreceived]
    exact h.ordered e
  · intro e
    rw [hlink, haccepted, hreceived]
    exact h.carries e
  · rw [hlink]
    exact h.buffer
  · rw [hlink]
    exact h.peer

theorem acceptedBytes_length_le (h : w.Streamed) (e : Bool) :
    (w.acceptedBytes e).length ≤ w.link.carried e := by
  unfold acceptedBytes StreamLink.carried
  rw [h.stream, List.length_flatMap]
  apply List.sum_le_sum
  intro x _
  simp

/-- What a `recvmsg` takes out of a buffer of bytes. -/
theorem receive_stream {b b' : StreamBuffer} {written taken : List Byte} {lens : List ℕ} {r : Receipt}
    (h : b.Carries written taken) (hreceive : receive false b lens = .ok (r, b')) :
    r.chunks.flatten = (written.drop taken.length).take lens.sum ∧
      r.transferred = r.chunks.flatten.length ∧ b'.Carries written (taken ++ r.chunks.flatten) := by
  unfold receive at hreceive
  simp only [Bool.false_eq_true, if_false] at hreceive
  cases hreceive
  obtain ⟨bytes, hbytes, hchunks, -, htransferred, hcarries⟩ :=
    @recvLoop_spec _ _ _ none lens 0 h
  refine ⟨hchunks.trans hbytes, ?_, ?_⟩
  · rw [hchunks]
    simpa using htransferred
  · rw [hchunks]
    exact hcarries

theorem acceptedBytes_carry {m : List Byte} {n : ℕ} {b : StreamBuffer}
    (hlink : w'.link = w.link.carry e m n b) (x : Bool) :
    w'.acceptedBytes x = if x = e then w.acceptedBytes e ++ m.take n else w.acceptedBytes x := by
  unfold acceptedBytes
  rw [hlink]
  unfold StreamLink.carry
  by_cases hx : x = e
  · subst hx
    simp
  · simp [hx]

theorem receivedBytes_hand {r : Receipt} {b : StreamBuffer} (hlink : w'.link = w.link.hand e r b)
    (x : Bool) : w'.receivedBytes x =
      if x = e then w.receivedBytes e ++ r.chunks.flatten else w.receivedBytes x := by
  unfold receivedBytes
  rw [hlink]
  unfold StreamLink.hand
  by_cases hx : x = e
  · subst hx
    simp
  · simp [hx]

theorem Streamed.sent (h : w.Streamed) (hbound : w.Bounded) {iovs : List (List Byte)} {n : ℕ}
    {b b' : StreamBuffer} (hbuffer : w.link.ringBuffer (!e) = some b)
    (hsend : send w.link.isSeqpacket b iovs = .ok (n, b'))
    (hlink : w'.link = w.link.carry e iovs.flatten n b') : w'.Streamed := by
  have hcarries := h.carries (!e) b hbuffer
  rw [Bool.not_not] at hcarries
  have hle := hcarries.length_le
  have hlength := acceptedBytes_length_le h e
  have hroom := hbound e
  obtain ⟨count, -, htransferred, hcarries'⟩ :=
    @sendLoop_spec _ _ _ iovs 0 hcarries (by omega)
  rw [h.stream] at hsend
  unfold send at hsend
  simp only [Bool.false_eq_true, if_false] at hsend
  obtain ⟨hn, rfl⟩ := pure_pair hsend
  rw [hn, Nat.zero_add] at htransferred
  rw [← htransferred] at hcarries'
  have hreceived : ∀ x, w'.receivedBytes x = w.receivedBytes x := by
    intro x
    unfold receivedBytes
    rw [hlink]
    rfl
  refine ⟨?_, ?_, ?_, ?_, ?_⟩
  · rw [hlink]
    exact h.stream
  · intro x
    rw [acceptedBytes_carry hlink, hreceived]
    split_ifs with hx
    · rw [← hx]
      exact (h.ordered x).trans (List.prefix_append _ _)
    · exact h.ordered x
  · intro x c hc
    rw [acceptedBytes_carry hlink, hreceived]
    rw [hlink] at hc
    by_cases hx : x = !e
    · subst hx
      rw [if_pos (Bool.not_not e)]
      change update w.link.ringBuffer (!e) (some (sendLoop b iovs 0).2) (!e) = some c at hc
      rw [update_self] at hc
      cases hc
      exact hcarries'
    · rw [if_neg (by simpa [Bool.not_eq_eq_eq_not] using hx)]
      apply h.carries x c
      change update w.link.ringBuffer (!e) (some (sendLoop b iovs 0).2) x = some c at hc
      rwa [update_of_ne hx] at hc
  · intro x
    rw [hlink]
    show (update w.link.ringBuffer (!e) (some (sendLoop b iovs 0).2) x).isSome = !w.link.closed x
    rw [← h.buffer x]
    by_cases hxe : x = !e
    · rw [hxe, update_self, hbuffer]
      rfl
    · rw [update_of_ne hxe]
  · rw [hlink]
    exact h.peer

theorem Streamed.received (h : w.Streamed) {lens : List ℕ} {r : Receipt} {b b' : StreamBuffer}
    (hbuffer : w.link.ringBuffer e = some b)
    (hreceive : receive w.link.isSeqpacket b lens = .ok (r, b'))
    (hlink : w'.link = w.link.hand e r b') : w'.Streamed := by
  rw [h.stream] at hreceive
  obtain ⟨-, -, hcarries⟩ := receive_stream (h.carries e b hbuffer) hreceive
  have haccepted : ∀ x, w'.acceptedBytes x = w.acceptedBytes x := by
    intro x
    unfold acceptedBytes
    rw [hlink]
    rfl
  refine ⟨?_, ?_, ?_, ?_, ?_⟩
  · rw [hlink]
    exact h.stream
  · intro x
    rw [haccepted, receivedBytes_hand hlink]
    split_ifs with hx
    · rw [hx]
      exact hcarries.taken
    · exact h.ordered x
  · intro x c hc
    rw [haccepted, receivedBytes_hand hlink]
    rw [hlink] at hc
    change update w.link.ringBuffer e (some b') x = some c at hc
    by_cases hx : x = e
    · subst hx
      rw [update_self] at hc
      cases hc
      rw [if_pos rfl]
      exact hcarries
    · rw [update_of_ne hx] at hc
      rw [if_neg hx]
      exact h.carries x c hc
  · intro x
    rw [hlink]
    show (update w.link.ringBuffer e (some b') x).isSome = !w.link.closed x
    rw [← h.buffer x]
    by_cases hxe : x = e
    · rw [hxe, update_self, hbuffer]
      rfl
    · rw [update_of_ne hxe]
  · rw [hlink]
    exact h.peer

theorem Streamed.closed (h : w.Streamed) (hlive : w.link.closed e = false)
    (hlink : w'.link = w.link.close e) : w'.Streamed := by
  have haccepted : ∀ x, w'.acceptedBytes x = w.acceptedBytes x := by
    intro x
    unfold acceptedBytes
    rw [hlink]
    rfl
  have hreceived : ∀ x, w'.receivedBytes x = w.receivedBytes x := by
    intro x
    unfold receivedBytes
    rw [hlink]
    rfl
  have hother : ∀ x, w'.link.closed x = false → x = !e ∧ w.link.closed x = false := by
    intro x hx
    rw [hlink] at hx
    change update w.link.closed e true x = false at hx
    by_cases hxe : x = e
    · rw [hxe, update_self] at hx
      cases hx
    · rw [update_of_ne hxe] at hx
      exact ⟨Bool.eq_not_of_ne hxe, hx⟩
  refine ⟨?_, ?_, ?_, ?_, ?_⟩
  · rw [hlink]
    exact h.stream
  · intro x
    rw [haccepted, hreceived]
    exact h.ordered x
  · intro x c hc
    rw [haccepted, hreceived]
    rw [hlink] at hc
    change update w.link.ringBuffer e none x = some c at hc
    by_cases hx : x = e
    · rw [hx, update_self] at hc
      cases hc
    · rw [update_of_ne hx] at hc
      exact h.carries x c hc
  · intro x
    rw [hlink]
    show (update w.link.ringBuffer e none x).isSome = !update w.link.closed e true x
    by_cases hx : x = e
    · rw [hx, update_self, update_self]
      rfl
    · rw [update_of_ne hx, update_of_ne hx]
      exact h.buffer x
  · intro x hx
    obtain ⟨rfl, hopen⟩ := hother x hx
    have hpeer := h.peer _ hopen
    rw [Bool.not_not] at hpeer ⊢
    rw [hlink]
    show (if w.link.peer e then update w.link.peer (!e) false else w.link.peer) (!e) =
      !update w.link.closed e true e
    rw [update_self]
    split_ifs with hpe
    · exact update_self ..
    · -- the other end is open, so that `e` still points to it
      have hpeer' := h.peer e hlive
      rw [hopen] at hpeer'
      exact absurd hpeer' hpe

theorem Streamed.step (h : w.Streamed) (hbound : w.Bounded) (hstep : w.step o = .ok w') :
    w'.Streamed := by
  obtain ⟨reply, heffect⟩ := step_effect hstep
  cases heffect with
  | quiet quiet => exact h.congr quiet.link
  | sent _ _ buffer _ send link => exact h.sent hbound buffer send link
  | received buffer _ receive link => exact h.received buffer receive link
  | closed live link => exact h.closed live link

/-! ## What is delivered -/

theorem Streamed.isSome_buffer (h : w.Streamed) (hopen : w.link.closed e = false) :
    (w.link.ringBuffer e).isSome = true := by
  rw [h.buffer, hopen]
  rfl

theorem Streamed.pending_eq_nil_iff (h : w.Streamed) {b : StreamBuffer}
    (hbuffer : w.link.ringBuffer e = some b) : w.pendingBytes e = [] ↔ b.isEmpty = true := by
  have hcarries := h.carries e b hbuffer
  rw [hcarries.isEmpty_iff streamCapacity_lt]
  unfold pendingBytes
  rw [List.drop_eq_nil_iff]
  constructor
  · intro hle
    exact hcarries.taken.eq_of_length_le hle
  · intro heq
    rw [heq]

theorem Streamed.recvTurn_open (h : w.Streamed) (hopen : w.link.closed e = false)
    (hpeer : w.link.closed (!e) = false) (thread : ℕ) (lens : List ℕ) (nonblock : Bool) :
    ∃ reply w', w.recvTurn thread e lens nonblock = .ok (reply, w') ∧ w.Received e lens reply := by
  obtain ⟨b, hbuffer⟩ := Option.isSome_iff_exists.mp (h.isSome_buffer hopen)
  have hpoints := h.peer e hopen
  rw [hpeer] at hpoints
  have hpending := h.pending_eq_nil_iff hbuffer
  unfold recvTurn
  simp only [hbuffer]
  by_cases hempty : b.isEmpty = true
  · have hreceived : ∀ reply, w.Received e lens reply := by
      intro reply
      refine ⟨fun hsome => absurd (hpending.mpr hempty) hsome, ?_⟩
      intro _ hclosed
      rw [hpeer] at hclosed
      cases hclosed
    rw [if_pos hempty]
    split_ifs
    · exact ⟨_, _, rfl, hreceived _⟩
    · exact ⟨_, _, rfl, hreceived _⟩
  · rw [if_neg hempty, h.stream]
    cases hreceive : receive false b lens with
    | error f =>
      unfold receive at hreceive
      simp at hreceive
    | ok x =>
      obtain ⟨hchunks, htransferred, -⟩ := receive_stream (h.carries e b hbuffer) hreceive
      simp only [hpoints, Bool.not_false, not_true_eq_false, if_false]
      refine ⟨_, _, rfl, ?_, ?_⟩
      · intro _
        exact ⟨x.1, rfl, hchunks, htransferred⟩
      · intro hnone
        exact absurd (hpending.mp hnone) hempty

theorem Streamed.recvTurn_closed (h : w.Streamed) (hopen : w.link.closed e = false)
    (hpeer : w.link.closed (!e) = true) (thread : ℕ) (lens : List ℕ) (nonblock : Bool) :
    ¬∃ reply w', w.recvTurn thread e lens nonblock = .ok (reply, w') ∧ w.Received e lens reply := by
  obtain ⟨b, hbuffer⟩ := Option.isSome_iff_exists.mp (h.isSome_buffer hopen)
  have hpoints := h.peer e hopen
  rw [hpeer] at hpoints
  have hpending := h.pending_eq_nil_iff hbuffer
  rintro ⟨reply, w', hturn, hreceived⟩
  unfold recvTurn at hturn
  simp only [hbuffer] at hturn
  by_cases hempty : b.isEmpty = true
  · -- it goes on waiting
    obtain ⟨r, hr, -⟩ := hreceived.eof (hpending.mpr hempty) hpeer
    rw [if_pos hempty] at hturn
    split_ifs at hturn
    · have hreply := (pure_pair hturn).1
      rw [← hreply] at hr
      cases hr
    · have hreply := (pure_pair hturn).1
      rw [← hreply] at hr
      cases hr
  · -- it uses the peer
    rw [if_neg hempty] at hturn
    split at hturn
    · cases hturn
    · simp [hpoints] at hturn

/-- A call of `recvmsg` delivers exactly if the other end is open. -/
theorem Streamed.receives_iff (h : w.Streamed) {lens : List ℕ}
    (hreceives : w.receives o = some (e, lens)) :
    (∃ reply w', w.perform o = .ok (reply, w') ∧ w.Received e lens reply) ↔
      w.link.closed (!e) = false := by
  cases o with
  | recvmsg thread i lens' nonblock =>
    simp only [receives] at hreceives
    split_ifs at hreceives with hbegins
    obtain ⟨rfl, rfl⟩ := Prod.mk.inj (Option.some.inj hreceives)
    obtain ⟨hrunning, hopen⟩ := hbegins
    have hpoints := h.peer i hopen
    have hsome := h.isSome_buffer hopen
    simp only [perform, hrunning, hopen]
    by_cases hpeer : w.link.closed (!i) = false
    · rw [hpeer] at hpoints
      have hturn := h.recvTurn_open hopen hpeer thread lens' nonblock
      simpa [hpoints, hpeer, Option.isSome_iff_ne_none.mp hsome] using hturn
    · have hpeer : w.link.closed (!i) = true := by simpa using hpeer
      rw [hpeer] at hpoints
      rw [hpeer]
      simp only [hpoints]
      refine iff_of_false ?_ (by simp)
      rintro ⟨reply, w', hperform, hreceived⟩
      have hreply : .failed .notConn = reply := (pure_pair hperform).1
      by_cases hpending : w.pendingBytes i = []
      · obtain ⟨r, hr, -⟩ := hreceived.eof hpending hpeer
        rw [← hreply] at hr
        cases hr
      · obtain ⟨r, hr, -⟩ := hreceived.data hpending
        rw [← hreply] at hr
        cases hr
  | resume thread iovs lens' nonblock =>
    simp only [receives] at hreceives
    split at hreceives
    · rename_i i hphase
      split_ifs at hreceives with hopen
      obtain ⟨rfl, rfl⟩ := Prod.mk.inj (Option.some.inj hreceives)
      simp only [perform, hphase]
      by_cases hpeer : w.link.closed (!i) = false
      · exact iff_of_true (h.recvTurn_open hopen hpeer thread lens' nonblock) hpeer
      · exact iff_of_false (h.recvTurn_closed hopen (by simpa using hpeer) thread lens' nonblock) hpeer
    · cases hreceives
  | sendmsg thread e named iovs nonblock => cases hreceives
  | interrupt thread => cases hreceives
  | close e => cases hreceives

/-- A close wakes the receivers at the other end exactly if there are none. -/
theorem closes_iff (hcloses : w.closes o = some e) :
    (∀ thread, w.phase thread = .asleep (!e) .recv →
      ∃ reply w', w.perform o = .ok (reply, w') ∧ w'.phase thread = .woken (!e) .recv) ↔
    ∀ thread, w.phase thread ≠ .asleep (!e) .recv := by
  cases o with
  | close i =>
    simp only [closes] at hcloses
    split_ifs at hcloses with hopen
    obtain rfl := Option.some.inj hcloses
    constructor
    · intro hwakes thread hasleep
      obtain ⟨reply, w', hperform, hwoken⟩ := hwakes thread hasleep
      simp only [perform, hopen, Bool.false_eq_true, if_false] at hperform
      obtain ⟨-, rfl⟩ := pure_pair hperform
      change w.phase thread = .woken (!i) .recv at hwoken
      rw [hasleep] at hwoken
      cases hwoken
    · intro hnone thread hasleep
      exact absurd hasleep (hnone thread)
  | sendmsg thread e named iovs nonblock => cases hcloses
  | recvmsg thread e lens nonblock => cases hcloses
  | resume thread iovs lens nonblock => cases hcloses
  | interrupt thread => cases hcloses

/-- A `sendmsg` that goes on finds the buffer of its peer exactly if the peer is there. -/
theorem Streamed.sendTurn_survives (h : w.Streamed) (thread : ℕ) (iovs : List (List Byte))
    (nonblock : Bool) : w.sendTurn thread e iovs nonblock ≠ .error .nullPointer ↔
      w.link.peer e = true ∧ w.link.closed (!e) = false := by
  have hsome := h.buffer (!e)
  unfold sendTurn
  by_cases hpeer : w.link.peer e = true
  · rw [if_neg (not_not.mpr hpeer), and_iff_right hpeer]
    cases hbuffer : w.link.ringBuffer (!e) with
    | none =>
      rw [hbuffer] at hsome
      exact iff_of_false (fun hne => hne rfl) fun hopen => by simp [hopen] at hsome
    | some b =>
      rw [hbuffer] at hsome
      refine iff_of_true ?_ (by simpa using hsome.symm)
      unfold send
      rw [h.stream]
      simp only [Bool.false_eq_true, if_false]
      split_ifs <;> simp
  · rw [if_pos hpeer]
    exact iff_of_false (fun hne => hne rfl) fun hp => hpeer hp.1

theorem Streamed.survives (h : w.Streamed) (hp : w.Peaceful o) :
    w.perform o ≠ .error .nullPointer := by
  have hrecv : ∀ thread e lens nonblock, w.link.closed e = false → w.link.closed (!e) = false →
      w.recvTurn thread e lens nonblock ≠ .error .nullPointer := by
    intro thread e lens nonblock hopen hother
    obtain ⟨reply, w', hturn, -⟩ := h.recvTurn_open hopen hother thread lens nonblock
    rw [hturn]
    simp
  cases o with
  | sendmsg thread e named iovs nonblock =>
    simp only [perform]
    split_ifs with hidle hnamed hpeer
    · simp
    · simp
    · simp
    · obtain ⟨hpeer, hbuffer⟩ := not_or.mp hpeer
      refine (h.sendTurn_survives ..).mpr ⟨not_not.mp hpeer, ?_⟩
      have hsome := h.buffer (!e)
      rw [Bool.eq_false_iff]
      intro hclosed
      rw [hclosed, Bool.not_true, Option.isSome_eq_false_iff] at hsome
      exact hbuffer hsome
  | recvmsg thread e lens nonblock =>
    simp only [perform]
    split_ifs with hidle hpeer
    · simp
    · simp
    · have hopen : w.link.closed e = false := by simpa using (not_or.mp hidle).2
      have hpoints := h.peer e hopen
      rw [not_not.mp (not_or.mp hpeer).1] at hpoints
      exact hrecv _ _ _ _ hopen (by simpa using hpoints.symm)
  | resume thread iovs lens nonblock =>
    simp only [perform]
    split
    · rename_i e hphase
      exact (h.sendTurn_survives ..).mpr (hp.sender e (by simp [resumes, hphase]))
    · rename_i e hphase
      have hopen := hp.receiver e (by simp [resumes, hphase])
      exact hrecv _ _ _ _ hopen (hp.receives e lens (by simp [receives, hphase, hopen]))
    · simp
  | interrupt thread =>
    simp only [perform]
    split_ifs <;> simp
  | close e =>
    simp only [perform]
    split_ifs <;> simp

/-- A call that goes on and uses no null pointer has what it uses. -/
theorem Streamed.resumes_of (h : w.Streamed) {c : StreamCall} (hresumes : w.resumes o = some (e, c))
    (hsurvives : w.perform o ≠ .error .nullPointer) :
    (c = .send → w.link.peer e = true ∧ w.link.closed (!e) = false) ∧
      (c = .recv → w.link.closed e = false) := by
  unfold resumes at hresumes
  split at hresumes
  · rename_i thread iovs lens nonblock
    split at hresumes
    · rename_i hphase
      cases hresumes
      simp only [perform, hphase] at hsurvives
      refine ⟨?_, ?_⟩ <;> rintro rfl
      · exact (h.sendTurn_survives ..).mp hsurvives
      · by_contra hclosed
        have hnone := h.buffer e
        rw [Bool.eq_true_of_not_eq_false hclosed, Bool.not_true, Option.isSome_eq_false_iff,
          Option.isNone_iff_eq_none] at hnone
        apply hsurvives
        show w.recvTurn thread e lens nonblock = _
        unfold recvTurn
        rw [hnone]
    · cases hresumes
  · cases hresumes

theorem Streamed.delivers_iff (h : w.Streamed) (o : StreamOp) : w.Delivers o ↔ w.Peaceful o := by
  constructor
  · intro hd
    exact ⟨fun e hr => (h.resumes_of hr hd.survives).1 rfl,
      fun e hr => (h.resumes_of hr hd.survives).2 rfl,
      fun e lens hr => (h.receives_iff hr).mp (hd.received e lens hr),
      fun e hc => (closes_iff hc).mp (hd.woken e hc)⟩
  · intro hp
    exact ⟨h.survives hp, fun e lens hr => (h.receives_iff hr).mpr (hp.receives e lens hr),
      fun e hc => (closes_iff hc).mpr (hp.closes e hc)⟩

end StreamWorld

/-- **Main theorem.** In every run of two connected `SOCK_STREAM` sockets in which fewer than about
    `2 ^ 64` bytes are sent, what is received is the beginning of what was accepted; and a step
    delivers what it should, or wakes whom it should, exactly if it is `Peaceful`. -/
theorem stream_reliable_iff {pending : Bool → ℕ} {w : StreamWorld}
    (h : Run StreamWorld.step (fun w _ => w.Bounded) (.connected false pending) w) :
    (∀ e, w.receivedBytes e <+: w.acceptedBytes (!e)) ∧ ∀ o, w.Delivers o ↔ w.Peaceful o := by
  have hs : w.Streamed := h.invariant (fun _ _ _ hs hbound hstep => hs.step hbound hstep)
    (StreamWorld.streamed_connected pending)
  exact ⟨hs.ordered, hs.delivers_iff⟩

/-- One end sends three bytes in two vectors, and the other, which waits, gets two of them. -/
theorem stream_reliable_iff_sent : ∃ w,
    Run StreamWorld.step (fun w _ => w.Bounded) (.connected false fun _ => 0) w ∧
    w.acceptedBytes false = [1#8, 2#8, 3#8] ∧ w.receivedBytes true = [1#8, 2#8] ∧
    w.receivedBytes true <+: w.acceptedBytes false := by
  obtain ⟨w, hw, hread⟩ := exists_ok_of_map
    (show (([.recvmsg 1 true [2] false, .sendmsg 2 false false [[1#8], [2#8, 3#8]] false,
        .resume 1 [] [2] false] : List StreamOp).foldlM
        (guarded StreamWorld.step (fun w _ => w.Bounded) .impossible)
        (.connected false fun _ => 0)).map (fun w => (w.acceptedBytes false, w.receivedBytes true)) =
      .ok ([1#8, 2#8, 3#8], [1#8, 2#8]) by decide +kernel)
  obtain ⟨haccepted, hreceived⟩ := Prod.mk.inj hread
  have hrun := Run.of_guarded hw
  exact ⟨w, hrun, haccepted, hreceived, (stream_reliable_iff hrun).1 true⟩

/-- One end sends a byte and closes: `recvmsg` at the other returns `-ENOTCONN`. -/
theorem closed_with_data : ¬∀ w o,
    Run StreamWorld.step (fun w _ => w.Bounded) (.connected false fun _ => 0) w → w.Delivers o := by
  intro h
  obtain ⟨w, hw, hread⟩ := exists_ok_of_map
    (show (([.sendmsg 1 false false [[1#8]] false, .close false] : List StreamOp).foldlM
        (guarded StreamWorld.step (fun w _ => w.Bounded) .impossible)
        (.connected false fun _ => 0)).map
        (fun w => (w.pendingBytes true, w.receives (.recvmsg 2 true [8] false),
          (w.perform (.recvmsg 2 true [8] false)).toOption.map fun x =>
            match x.1 with | .failed e => some e | _ => none)) =
      .ok ([1#8], some (true, [8]), some (some .notConn)) by decide +kernel)
  obtain ⟨hpending, hreceives, hperform⟩ : w.pendingBytes true = [1#8] ∧
      w.receives (.recvmsg 2 true [8] false) = some (true, [8]) ∧ _ := by simpa using hread
  obtain ⟨reply, w', hreply, hreceived⟩ :=
    (h w (.recvmsg 2 true [8] false) (Run.of_guarded hw)).received true [8] hreceives
  obtain ⟨r, rfl, -⟩ := hreceived.data (by simp [hpending])
  simp [hreply, Except.toOption] at hperform

end Fishix.Userland
