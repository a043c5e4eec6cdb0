import Fishix.Common.RingBuffer

/-!
# A ring buffer is a bounded queue

The queue is the list of its elements, of which there are at most `size`. A sequence of calls gets
the same replies from the buffer as from the queue, as long as fewer than `2 ^ 64` elements have
been moved: the indices of a buffer never start again, and its size need not divide `2 ^ 64`.

* `runCalls_simulates`: two machines that agree on every call agree on a sequence of calls, where
  the calls may use something up.
* `ringBuffer_isQueue`: the buffer and the queue.
-/

namespace Fishix

/-! ## Sequences of calls -/

section Calls

variable {σ τ ι ρ : Type}

/-- Calls one after the other: the replies and the last state. -/
def runCalls (step : σ → ι → ρ × σ) (s : σ) : List ι → List ρ × σ
  | [] => ([], s)
  | c :: cs =>
    let (r, s) := step s c
    let (rs, s) := runCalls step s cs
    (r :: rs, s)

theorem runCalls_cons (step : σ → ι → ρ × σ) (s : σ) (c : ι) (cs : List ι) :
    runCalls step s (c :: cs) =
      ((step s c).1 :: (runCalls step (step s c).2 cs).1, (runCalls step (step s c).2 cs).2) := rfl

/-- Two machines that reply the same to every call, while there is something left of what the
    replies cost, reply the same to a sequence of calls. -/
theorem runCalls_simulates {f : σ → ι → ρ × σ} {g : τ → ι → ρ × τ} (cost : ρ → ℕ)
    {R : ℕ → σ → τ → Prop}
    (hstep : ∀ n s t c, R (cost (g t c).1 + n) s t →
      (f s c).1 = (g t c).1 ∧ R n (f s c).2 (g t c).2)
    {cs : List ι} {n : ℕ} {s : σ} {t : τ}
    (h : R ((((runCalls g t cs).1).map cost).sum + n) s t) :
    (runCalls f s cs).1 = (runCalls g t cs).1 ∧ R n (runCalls f s cs).2 (runCalls g t cs).2 := by
  induction cs generalizing s t with
  | nil =>
    rw [show (((runCalls g t []).1).map cost).sum = 0 from rfl, Nat.zero_add] at h
    exact ⟨rfl, h⟩
  | cons c cs ih =>
    rw [runCalls_cons, List.map_cons, List.sum_cons, Nat.add_assoc] at h
    obtain ⟨hreply, hnext⟩ := hstep _ _ _ _ h
    obtain ⟨hreplies, hlast⟩ := ih hnext
    rw [runCalls_cons, runCalls_cons, hreply, hreplies]
    exact ⟨rfl, hlast⟩

end Calls

/-! ## The queue -/

/-- A call on a queue. -/
inductive QueueCall (α : Type)
  | read (count : ℕ)
  | write (buffer : List α)
  | truncate (count : ℕ)
  | peek

/-- What a call returns. -/
inductive QueueReply (α : Type)
  | elements (buffer : List α)
  | count (n : ℕ)
  | first (x : Option α)

/-- The elements that have been moved. -/
def QueueReply.moved {α : Type} : QueueReply α → ℕ
  | .elements buffer => buffer.length
  | .count n => n
  | .first _ => 0

variable {α : Type} {size : ℕ}

/-- A queue of at most `size` elements. -/
def queueStep (size : ℕ) (q : List α) : QueueCall α → QueueReply α × List α
  | .read count => (.elements (q.take count), q.drop count)
  | .write buffer =>
    (.count (min buffer.length (size - q.length)), q ++ buffer.take (size - q.length))
  | .truncate count => (.count (min count q.length), q.drop count)
  | .peek => (.first q.head?, q)

namespace RingBuffer

/-- `peek` (klib/ring_buffer.hpp:67-73). -/
def peek (b : RingBuffer α size) : Option α :=
  if b.isEmpty then none else some (b.data (b.readIndex.toNat % size))

/-- A call on a buffer. -/
def step (b : RingBuffer α size) : QueueCall α → QueueReply α × RingBuffer α size
  | .read count => let (buffer, b) := b.read count; (.elements buffer, b)
  | .write buffer => let (n, b) := b.write buffer; (.count n, b)
  | .truncate count => let (n, b) := b.truncate count; (.count n, b)
  | .peek => (.first b.peek, b)

variable {b : RingBuffer α size} {written taken q : List α}

theorem Carries.peek (h : b.Carries written taken) (hsize : size < 2 ^ 64) :
    b.peek = (written.drop taken.length).head? := by
  have hempty := h.isEmpty_iff hsize
  unfold RingBuffer.peek
  split_ifs with hnone
  · rw [hempty.mp hnone, List.drop_length]
    rfl
  · have hlt : taken.length < written.length := by
      refine lt_of_le_of_ne h.length_le fun hsame => hnone (hempty.mpr ?_)
      exact h.taken.eq_of_length hsame
    have hbefore : size ∣ 2 ^ 64 ∨ taken.length < 2 ^ 64 :=
      h.counts.imp_right (fun hcount => by omega)
    rw [h.readIndex, toNat_ofNat_mod hbefore, h.cell taken.length (Nat.le_refl _) hlt,
      List.head?_drop, List.getElem?_eq_getElem hlt]

/-- The buffer holds `q`, and `n` more elements may be moved. -/
def Holds (n : ℕ) (b : RingBuffer α size) (q : List α) : Prop :=
  ∃ written taken, b.Carries written taken ∧ q = written.drop taken.length ∧
    written.length + n < 2 ^ 64

theorem Holds.length_le {n : ℕ} (h : b.Holds n q) : q.length ≤ size := by
  obtain ⟨written, taken, hcarries, rfl, -⟩ := h
  have := hcarries.room
  rw [List.length_drop]
  omega

theorem Holds.counts {n : ℕ} (h : b.Holds n q) (hsize : size < 2 ^ 64) :
    b.dataCount.toNat = q.length ∧ b.freeCount.toNat = size - q.length := by
  obtain ⟨written, taken, hcarries, rfl, -⟩ := h
  have hle := hcarries.length_le
  rw [hcarries.dataCount hsize, hcarries.freeCount hsize, List.length_drop]
  exact ⟨rfl, by omega⟩

theorem drop_drop_min (l : List α) (i n : ℕ) :
    (l.drop i).drop n = l.drop (i + min n (l.length - i)) := by
  rw [List.drop_drop]
  by_cases h : n ≤ l.length - i
  · rw [Nat.min_eq_left h]
  · rw [List.drop_eq_nil_of_le (by omega), List.drop_eq_nil_of_le (by omega)]

/-- A call gets the same reply from the buffer and from the queue. -/
theorem Holds.step (hsize : size < 2 ^ 64) (n : ℕ) (b : RingBuffer α size) (q : List α)
    (c : QueueCall α) (h : b.Holds ((queueStep size q c).1.moved + n) q) :
    (b.step c).1 = (queueStep size q c).1 ∧ (b.step c).2.Holds n (queueStep size q c).2 := by
  obtain ⟨written, taken, hcarries, rfl, htotal⟩ := h
  have hle := hcarries.length_le
  have hroom := hcarries.room
  cases c with
  | read count =>
    obtain ⟨hread, hnext⟩ := hcarries.read hsize count
    refine ⟨congrArg QueueReply.elements hread, written, _, hnext, ?_, by omega⟩
    rw [hread, List.length_append, List.length_take, List.length_drop]
    exact drop_drop_min written taken.length count
  | write buffer =>
    have hlength : (written.drop taken.length).length = written.length - taken.length :=
      List.length_drop
    have hfree : taken.length + size - written.length =
        size - (written.drop taken.length).length := by omega
    have hmoved : (queueStep size (written.drop taken.length) (.write buffer)).1.moved =
        min buffer.length (size - (written.drop taken.length).length) := rfl
    rw [hmoved] at htotal
    obtain ⟨hcount, hnext⟩ := hcarries.write hsize buffer (.inr (by rw [hfree]; omega))
    rw [hfree] at hcount
    rw [hcount] at hnext
    refine ⟨congrArg QueueReply.count hcount, _, taken, hnext, ?_, ?_⟩
    · rw [List.drop_append_of_le_length hle, Nat.min_comm, ← List.take_eq_take_min]
      rfl
    · rw [List.length_append, List.length_take]
      omega
  | truncate count =>
    have hlength : (written.drop taken.length).length = written.length - taken.length :=
      List.length_drop
    refine ⟨congrArg QueueReply.count ?_, written, _, hcarries.truncate hsize count, ?_, by omega⟩
    · show min count b.dataCount.toNat = _
      rw [hcarries.dataCount hsize, hlength]
    · rw [List.length_append, List.length_take, List.length_drop]
      exact drop_drop_min written taken.length count
  | peek =>
    exact ⟨congrArg QueueReply.first (hcarries.peek hsize), written, taken, hcarries, rfl, by omega⟩

end RingBuffer

/-- **Main theorem.** A buffer that was empty replies to a sequence of calls as the queue does, and
    counts its elements. -/
theorem ringBuffer_isQueue (hsize : size < 2 ^ 64) (data : ℕ → α) (calls : List (QueueCall α))
    (htotal : (((runCalls (queueStep size) [] calls).1).map QueueReply.moved).sum < 2 ^ 64) :
    (runCalls RingBuffer.step ({ data } : RingBuffer α size) calls).1 =
        (runCalls (queueStep size) [] calls).1 ∧
      (runCalls RingBuffer.step ({ data } : RingBuffer α size) calls).2.dataCount.toNat =
        (runCalls (queueStep size) [] calls).2.length ∧
      (runCalls RingBuffer.step ({ data } : RingBuffer α size) calls).2.freeCount.toNat =
        size - (runCalls (queueStep size) [] calls).2.length ∧
      (runCalls (queueStep size) [] calls).2.length ≤ size := by
  have hstart : RingBuffer.Holds
      ((((runCalls (queueStep size) [] calls).1).map QueueReply.moved).sum + 0)
      ({ data } : RingBuffer α size) [] :=
    ⟨[], [], RingBuffer.carries_empty data, rfl, by simpa using htotal⟩
  obtain ⟨hreplies, hlast⟩ := runCalls_simulates QueueReply.moved
    (RingBuffer.Holds.step hsize) hstart
  obtain ⟨hdata, hfree⟩ := hlast.counts hsize
  exact ⟨hreplies, hdata, hfree, hlast.length_le⟩

/-- Three places, with a write around the end. -/
def threePlaces : List (QueueCall ℕ) :=
  [.write [1, 2, 3, 4], .read 2, .write [5, 6], .peek, .truncate 1, .read 7]

theorem ringBuffer_isQueue_threePlaces :
    (runCalls RingBuffer.step ({ data := fun _ => 0 } : RingBuffer ℕ 3) threePlaces).1 =
      [.count 3, .elements [1, 2], .count 2, .first (some 3), .count 1, .elements [5, 6]] :=
  (ringBuffer_isQueue (by decide) (fun _ => 0) threePlaces (by decide)).1

end Fishix
