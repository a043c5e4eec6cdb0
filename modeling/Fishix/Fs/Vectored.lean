import Fishix.Common.ByteMemory
import Fishix.Fs.Tmpfs

/-!
# Vectored transfers of regular files

Model of `VNode::readv` and `VNode::writev` (fs/vfs.cpp:80-110) over a regular file of `tmpfs`: one
loop over the `iovec`s that transfers each at an offset which moves on, passes over empty ones, and
stops at a short transfer. The vectors and what is read of them stand in the memory of the caller,
the file in the kernel heap.

* `vectored_yields`: the loop rule.
* `Refines.writev`, `Refines.readv`: what the loop does to the array that the file stands for.
* `vectored_contiguous`: the same as one transfer of the concatenation.
-/

namespace Fishix.Userland.Reference

variable {a b : Reference}

@[ext] theorem ext (hsize : a.size = b.size) (hbyte : ∀ i, a.byte i = b.byte i) : a = b := by
  cases a
  cases b
  obtain rfl := hsize
  obtain rfl := funext hbyte
  rfl

/-- A list is written. -/
def put (a : Reference) (bytes : List Byte) (offset : ℕ) : Reference :=
  a.write (fun i => bytes.getD i 0#8) bytes.length offset

theorem put_size (bytes : List Byte) (offset : ℕ) : (a.put bytes offset).size =
    if bytes.length = 0 then a.size else max a.size (offset + bytes.length) := rfl

theorem put_byte (bytes : List Byte) (offset i : ℕ) : (a.put bytes offset).byte i =
    if offset ≤ i ∧ i < offset + bytes.length then bytes.getD (i - offset) 0#8 else a.byte i := rfl

@[simp] theorem put_nil (offset : ℕ) : a.put [] offset = a := by
  refine ext rfl ?_
  intro i
  rw [put_byte, if_neg]
  simp

/-- Two lists one behind the other. -/
theorem put_append (xs ys : List Byte) (offset : ℕ) :
    a.put (xs ++ ys) offset = (a.put xs offset).put ys (offset + xs.length) := by
  refine ext ?_ ?_
  · simp only [put_size, List.length_append]
    split_ifs <;> omega
  · intro i
    have hsub : i - offset - xs.length = i - (offset + xs.length) := by omega
    simp only [put_byte, List.length_append, List.getD_eq_getElem?_getD, List.getElem?_append, hsub]
    split_ifs <;> first | rfl | omega

theorem read_take (n k offset : ℕ) : (a.read (n + k) offset).take n = a.read n offset := by
  unfold read
  rw [← List.map_take, List.take_range]
  congr 2
  omega

/-- Behind it is what stands behind. -/
theorem read_drop (n k offset : ℕ) : (a.read (n + k) offset).drop n = a.read k (offset + n) := by
  refine List.ext_getElem (by simp [read]; omega) ?_
  intro i _ _
  simp [read, Nat.add_assoc]

@[simp] theorem length_read (n offset : ℕ) :
    (a.read n offset).length = min n (a.size - offset) := by
  simp [read]

end Fishix.Userland.Reference

namespace Fishix.Fs.Tmpfs

open Fishix.Mem (Heap Panic)
open Fishix.Userland (Byte Reference)
open ByteMemory
open BitVec (ofNat toNat_ofNat le_def lt_def)

/-! ## The loop -/

/-- `iovec`: a buffer of the caller. -/
structure Iovec where
  iovBase : U64
  iovLen : U64
  deriving DecidableEq

/-- The buffer as a part of the memory. -/
def Iovec.part (iov : Iovec) : U64 × ℕ := (iov.iovBase, iov.iovLen.toNat)

/-- The length of all buffers. -/
def totalLength (iovs : List Iovec) : ℕ := (iovs.map fun iov => iov.iovLen.toNat).sum

section Loop

variable {σ : Type}

/-- The loop of `readv` and of `writev` (fs/vfs.cpp:81-93, 97-109). The two differ in what transfers
    one buffer. -/
def vectored (transfer : Iovec → U64 → σ → Except Panic (U64 × σ)) :
    List Iovec → (transferred offset : U64) → σ → Except Panic (U64 × σ)
  | [], transferred, _, s => .ok (transferred, s)
  | iov :: iovs, transferred, offset, s =>
    if iov.iovLen = 0#64 then vectored transfer iovs transferred offset s
    else do
      let (ret, s) ← transfer iov offset s
      if ret.slt 0#64 then .ok (if transferred ≠ 0#64 then transferred else ret, s)
      else if ret.slt iov.iovLen then .ok (transferred + ret, s)
      else vectored transfer iovs (transferred + ret) (offset + ret) s

/-- The loop rule: `R` holds of the buffers to come, of what has been transferred and of the state,
    until a short transfer reaches the end. -/
theorem vectored_yields {transfer : Iovec → U64 → σ → Except Panic (U64 × σ)}
    {R : List Iovec → ℕ → σ → Prop} {E : Panic → Prop} {base total : ℕ}
    (hstep : ∀ iov iovs n s, iov.iovLen ≠ 0#64 → n + totalLength (iov :: iovs) = total →
      R (iov :: iovs) n s → Yields (fun r => r.1.toNat ≤ iov.iovLen.toNat ∧
        if r.1.toNat < iov.iovLen.toNat then R [] (n + r.1.toNat) r.2
        else R iovs (n + r.1.toNat) r.2) E (transfer iov (ofNat 64 (base + n)) s))
    (hskip : ∀ iov iovs n s, iov.iovLen = 0#64 → R (iov :: iovs) n s → R iovs n s)
    (htotal : total < 2 ^ 62) :
    ∀ {iovs : List Iovec} {n : ℕ} {s : σ}, n + totalLength iovs = total → R iovs n s →
      Yields (fun r => ∃ k, r.1 = ofNat 64 k ∧ R [] k r.2) E
        (vectored transfer iovs (ofNat 64 n) (ofNat 64 (base + n)) s)
  | [], n, s, _, hR => ⟨n, rfl, hR⟩
  | iov :: iovs, n, s, hn, hR => by
    have hsum : totalLength (iov :: iovs) = iov.iovLen.toNat + totalLength iovs := by
      simp [totalLength]
    unfold vectored
    by_cases hz : iov.iovLen = 0#64
    · rw [if_pos hz]
      refine vectored_yields hstep hskip htotal ?_ (hskip iov iovs n s hz hR)
      rw [hsum, hz] at hn
      simpa using hn
    rw [if_neg hz]
    refine (hstep iov iovs n s hz hn hR).bind ?_
    rintro ⟨ret, s'⟩ ⟨hle, hret⟩
    simp only at hle hret ⊢
    -- lengths are far below the sign bit
    have hpos : ¬ret.slt 0#64 := by
      rw [BitVec.slt_iff_toInt_lt]
      have := BitVec.toInt_eq_toNat_of_lt (x := ret) (by omega)
      simp
      omega
    have hshort : ret.slt iov.iovLen ↔ ret.toNat < iov.iovLen.toNat := by
      rw [BitVec.slt_iff_toInt_lt, BitVec.toInt_eq_toNat_of_lt (by omega),
        BitVec.toInt_eq_toNat_of_lt (by omega)]
      omega
    have hadd : ∀ i : ℕ, ofNat 64 i + ret = ofNat 64 (i + ret.toNat) := by
      intro i
      rw [BitVec.ofNat_add, BitVec.ofNat_toNat, BitVec.setWidth_eq]
    rw [if_neg hpos, hadd, hadd, Nat.add_assoc]
    by_cases hlt : ret.toNat < iov.iovLen.toNat
    · rw [if_pos (hshort.mpr hlt)]
      rw [if_pos hlt] at hret
      exact ⟨_, rfl, hret⟩
    · rw [if_neg (fun h => hlt (hshort.mp h))]
      rw [if_neg hlt] at hret
      exact vectored_yields hstep hskip htotal (by omega) hret

end Loop

namespace State

/-- `readv` (fs/vfs.cpp:80-94): into the caller's memory. -/
def readv (s : State) (m : ByteMemory) (iovs : List Iovec) (offset : U64) :
    Except Panic (U64 × ByteMemory) :=
  vectored (fun iov offset m =>
    let bytes := s.read iov.iovLen offset
    .ok (ofNat 64 bytes.length, m.store iov.iovBase bytes)) iovs 0#64 offset m

/-- `writev` (fs/vfs.cpp:96-110): out of the caller's memory. -/
def writev (s : State) (m : ByteMemory) (iovs : List Iovec) (offset : U64) :
    Except Panic (U64 × State) :=
  vectored (fun iov offset s => s.write (fun i => m (iov.iovBase + ofNat 64 i)) iov.iovLen
    offset) iovs 0#64 offset s

end State

/-! ## Files and arrays -/

/-- What the file holds. -/
def State.contents (s : State) : List Byte :=
  (List.range s.node.size.toNat).map fun i => s.heap.byte (s.addr i)

theorem Refines.contents {s : State} {a : Reference} (h : Refines s a) :
    s.contents = (List.range a.size).map a.byte := by
  unfold State.contents
  rw [h.size]
  refine List.map_congr_left ?_
  intro i hi
  exact h.bytes i (List.mem_range.mp hi)

/-- The array that a file stands for. -/
def State.array (s : State) : Reference where
  size := s.node.size.toNat
  byte := fun i => if i < s.node.size.toNat then s.heap.byte (s.addr i) else 0#8
  zero_of_le := fun i hi => if_neg (by omega)

theorem Stored.refines {s : State} (h : Stored s) : Refines s s.array :=
  ⟨h, rfl, fun _ hi => (if_pos hi).symm⟩

theorem nextCapacity_isCapacity {size : U64} : ∀ {turns : ℕ} {c c' : U64}, IsCapacity c →
    nextCapacity size turns c = .ok c' →
      IsCapacity c' ∧ size ≤ c' ∧ c'.toNat ≤ max c.toNat (4 * size.toNat)
  | 0, c, c', _, h => by simp [nextCapacity] at h
  | turns + 1, c, c', hc, h => by
    unfold nextCapacity at h
    split_ifs at h with hlt
    · have hlt' := lt_def.mp hlt
      have hnext : IsCapacity (klibMax 1#64 (c * 4#64)) ∧
          (klibMax 1#64 (c * 4#64)).toNat ≤ 4 * size.toNat := by
        unfold klibMax
        split_ifs with hone
        · have hone' := lt_def.mp hone
          have hmul : (c * 4#64).toNat = c.toNat * 4 % 2 ^ 64 := BitVec.toNat_mul _ _
          refine ⟨?_, by omega⟩
          obtain rfl | ⟨n, hn, hc⟩ := hc
          · simp at hone'
          · by_cases htop : n = 31
            · subst htop
              rw [hmul, hc] at hone'
              norm_num at hone'
            · have hpow : 4 ^ (n + 1) ≤ 4 ^ 31 := Nat.pow_le_pow_right (by norm_num) (by omega)
              refine .inr ⟨n + 1, by omega, ?_⟩
              rw [hmul, hc, ← pow_succ, Nat.mod_eq_of_lt]
              norm_num at hpow ⊢
              omega
        · exact ⟨.inr ⟨0, by omega, rfl⟩, by simp; omega⟩
      obtain ⟨hcap, hsize, hle⟩ := nextCapacity_isCapacity hnext.1 h
      exact ⟨hcap, hsize, by omega⟩
    · cases h
      exact ⟨hc, BitVec.not_lt.mp hlt, le_max_left _ _⟩

theorem IsCapacity.toNat_le {c : U64} (hc : IsCapacity c) : c.toNat ≤ 2 ^ 62 := by
  obtain rfl | ⟨n, hn, hc⟩ := hc
  · simp
  · have hpow : 4 ^ n ≤ 4 ^ 31 := Nat.pow_le_pow_right (by norm_num) hn
    norm_num at hpow ⊢
    omega

namespace Stored

variable {s s' : State}

/-- What `grow_to` cannot store makes it loop. -/
theorem growTo {length : U64} (h : Stored s) (hgrow : s.growTo length = .ok s') :
    Stored s' ∧ s'.node.size = length := by
  have hlength : length.toNat ≤ 2 ^ 62 := by
    unfold State.growTo at hgrow
    simp only at hgrow
    split_ifs at hgrow with hmore
    · obtain ⟨c, hnext, -⟩ := bind_ok hgrow
      obtain ⟨hcap, hle, -⟩ := nextCapacity_isCapacity h.capacity hnext
      exact (le_def.mp hle).trans hcap.toNat_le
    · exact (le_def.mp (BitVec.not_lt.mp hmore)).trans h.capacity.toNat_le
  obtain ⟨hroom, -⟩ := (growTo_yields h hlength).ok hgrow
  obtain ⟨s'', hgrow', hsize, hstored, -⟩ := growTo_ok h hlength hroom
  obtain rfl := Except.ok.inj (hgrow'.symm.trans hgrow)
  exact ⟨hstored, hsize⟩

/-- Whatever is called, also where it leaves a gap. -/
theorem step {o : Op} {replies : List Userland.Reply} (h : Stored s)
    (hstep : Tmpfs.step s o = .ok (replies, s')) : Stored s' := by
  cases o with
  | elsewhere byte allocated =>
    cases hstep
    exact h.elsewhere byte allocated
  | file o =>
    cases o with
    | read count offset =>
      cases hstep
      exact h
    | write buf count offset =>
      obtain ⟨⟨n, s1⟩, hwrite, heq⟩ := bind_ok hstep
      cases heq
      unfold State.write at hwrite
      split_ifs at hwrite with hz hmore
      · cases hwrite
        exact h
      · obtain ⟨s2, hgrow, heq⟩ := bind_ok hwrite
        cases heq
        obtain ⟨h2, -⟩ := h.growTo hgrow
        exact ⟨h2.capacity, h2.size_le, h2.block, h2.empty⟩
      · cases hwrite
        exact ⟨h.capacity, h.size_le, h.block, h.empty⟩
    | truncate length =>
      obtain ⟨s1, htruncate, heq⟩ := bind_ok hstep
      cases heq
      unfold State.truncate at htruncate
      split_ifs at htruncate with hmore
      · obtain ⟨s2, hgrown, rfl⟩ := bind_pure_ok htruncate
        obtain ⟨s3, hgrow, rfl⟩ := bind_pure_ok hgrown
        obtain ⟨h3, hsize⟩ := h.growTo hgrow
        exact ⟨h3.capacity, hsize ▸ h3.size_le, h3.block, h3.empty⟩
      · cases htruncate
        exact ⟨h.capacity, BitVec.le_trans (BitVec.not_lt.mp hmore) h.size_le, h.block, h.empty⟩

theorem run {os : List Op} {replies : List Userland.Reply} (h : Stored s)
    (hrun : Tmpfs.run os s = .ok (replies, s')) : Stored s' := by
  induction os generalizing s replies with
  | nil =>
    cases hrun
    exact h
  | cons o os ih =>
    obtain ⟨⟨reply, s1⟩, hstep, hrest⟩ := bind_ok hrun
    obtain ⟨⟨replies', s2⟩, htail, heq⟩ := bind_ok hrest
    cases heq
    exact ih (h.step hstep) htail

end Stored

/-! ## Writing -/

section

variable {s : State} {n size : ℕ} (h : Stored s) (hroom : s.heap.RoomFor (n + 1) size)

include h hroom

theorem growTo_roomFor {s' : State} {length : U64} (hsize : 4 * length.toNat ≤ size)
    (hgrow : s.growTo length = .ok s') : s'.heap.RoomFor n size := by
  unfold State.growTo at hgrow
  simp only at hgrow
  split_ifs at hgrow with hmore
  · have hmore' := lt_def.mp hmore
    obtain ⟨c, hnext, hgrow⟩ := bind_ok hgrow
    obtain ⟨⟨storage, heap⟩, hrealloc, rfl⟩ := bind_pure_ok hgrow
    obtain ⟨-, hle, hbound⟩ := nextCapacity_isCapacity h.capacity hnext
    have hle' := le_def.mp hle
    exact hroom.reallocate (k := c.toNat) (by omega) (by omega) hrealloc
  · cases hgrow
    exact hroom.pred

theorem room_of_roomFor {length : U64} (hsize : 4 * length.toNat ≤ size) : s.Room length := by
  intro c hmore hnext
  have hmore' := lt_def.mp hmore
  obtain ⟨-, -, hbound⟩ := nextCapacity_isCapacity h.capacity hnext
  exact hroom.room (by omega)

theorem write_roomFor {buf : ℕ → Byte} {count offset : U64} {r : U64 × State}
    (hsize : 4 * (offset + count).toNat ≤ size) (hwrite : s.write buf count offset = .ok r) :
    r.2.heap.RoomFor n size := by
  unfold State.write at hwrite
  split_ifs at hwrite with hz hmore
  · cases hwrite
    exact hroom.pred
  · obtain ⟨s1, hgrow, rfl⟩ := bind_pure_ok hwrite
    have hgrown : s1.heap.RoomFor n size := growTo_roomFor h hroom hsize hgrow
    exact hgrown
  · cases hwrite
    exact hroom.pred

end

/-- One buffer is written, in the file or at its end. -/
theorem Refines.put {s : State} {a : Reference} (h : Refines s a) {bytes : List Byte}
    {buf : ℕ → Byte} {count offset : U64} {n size : ℕ} (hcount : bytes.length = count.toNat)
    (hbuf : ∀ i < count.toNat, buf i = bytes.getD i 0#8)
    (hbounds : offset.toNat + count.toNat < 2 ^ 62) (hoffset : offset ≤ s.node.size)
    (hsize : 4 * (offset.toNat + count.toNat) ≤ size) :
    Yields (fun r => r.1 = count ∧ Refines r.2 (a.put bytes offset.toNat) ∧
        (s.heap.RoomFor (n + 1) size → r.2.heap.RoomFor n size))
      (fun e => e = .assertion ∧ ¬s.heap.RoomFor (n + 1) size) (s.write buf count offset) := by
  have hsum : (offset + count).toNat = offset.toNat + count.toNat := by
    rw [BitVec.toNat_add]
    omega
  have hput : a.write buf count.toNat offset.toNat = a.put bytes offset.toNat := by
    unfold Reference.put
    rw [hcount]
    refine Reference.ext rfl ?_
    intro i
    show (if Reference.Window _ _ i then _ else _) = if Reference.Window _ _ i then _ else _
    split_ifs with hin
    · unfold Reference.Window at hin
      exact hbuf _ (by omega)
    · rfl
  have hyields := @Refines.write_yields _ _ h buf _ _ hbounds hoffset
  cases hwrite : s.write buf count offset with
  | error e =>
    rw [hwrite] at hyields
    refine ⟨hyields, ?_⟩
    intro hroom
    obtain ⟨s', hok, -⟩ := @Refines.write _ _ h buf _ _ hbounds
      (.inr ⟨hoffset, room_of_roomFor h.toStored hroom (by omega)⟩)
    rw [hok] at hwrite
    cases hwrite
  | ok r =>
    obtain ⟨hrefines, -⟩ := hyields.ok hwrite
    refine ⟨?_, hput ▸ hrefines, fun hroom => write_roomFor h.toStored hroom (by omega) hwrite⟩
    unfold State.write at hwrite
    split_ifs at hwrite with hz
    · cases hwrite
      exact hz.symm
    · obtain ⟨s1, -, rfl⟩ := bind_pure_ok hwrite
      rfl
    · cases hwrite
      rfl

/-- The bytes of the buffers. -/
abbrev gathered (m : ByteMemory) (iovs : List Iovec) : List Byte := m.gather (iovs.map Iovec.part)

@[simp] theorem length_gathered (m : ByteMemory) (iovs : List Iovec) :
    (gathered m iovs).length = totalLength iovs := by
  simp [gathered, totalLength, Function.comp_def, Iovec.part]

theorem gathered_cons (m : ByteMemory) (iov : Iovec) (iovs : List Iovec) :
    gathered m (iov :: iovs) = m.load iov.iovBase iov.iovLen.toNat ++ gathered m iovs := rfl

/-- `writev` writes the buffers one behind the other, where the heap has room. -/
theorem Refines.writev {s : State} {a : Reference} (h : Refines s a) (m : ByteMemory)
    {iovs : List Iovec} {offset : U64} (hbounds : offset.toNat + totalLength iovs < 2 ^ 62)
    (hoffset : offset ≤ s.node.size) :
    Yields (fun r => r.1 = ofNat 64 (totalLength iovs) ∧
        Refines r.2 (a.put (gathered m iovs) offset.toNat))
      (fun e => e = .assertion ∧
        ¬s.heap.RoomFor iovs.length (4 * (offset.toNat + totalLength iovs)))
      (s.writev m iovs offset) := by
  have hoffset' := le_def.mp hoffset
  set size := 4 * (offset.toNat + totalLength iovs) with hsize
  have hstart : offset = ofNat 64 (offset.toNat + 0) := by simp
  -- what has been written is the first part of the bytes
  let R : List Iovec → ℕ → State → Prop := fun rest n s' => ∃ done,
    done ++ gathered m rest = gathered m iovs ∧ done.length = n ∧
      Refines s' (a.put done offset.toNat) ∧
      (s.heap.RoomFor iovs.length size → s'.heap.RoomFor rest.length size)
  have hloop := @vectored_yields _ (fun iov offset s =>
      s.write (fun i => m (iov.iovBase + ofNat 64 i)) iov.iovLen offset) R
    (fun e => e = .assertion ∧ ¬s.heap.RoomFor iovs.length size) offset.toNat (totalLength iovs)
    ?step ?skip (by omega) iovs 0 s (Nat.zero_add _) ⟨[], rfl, rfl, by simpa using h, id⟩
  case step =>
    rintro iov rest n s' hz htotal ⟨done, hdone, rfl, hrefines, hroom⟩
    have hsum : totalLength (iov :: rest) = iov.iovLen.toNat + totalLength rest := by
      simp [totalLength]
    have hat : (ofNat 64 (offset.toNat + done.length)).toNat =
        offset.toNat + done.length := by
      rw [toNat_ofNat]
      omega
    have hend : ofNat 64 (offset.toNat + done.length) ≤ s'.node.size := by
      rw [le_def, hat, hrefines.size, Reference.put_size, ← h.size]
      split_ifs <;> omega
    refine (@Refines.put _ _ hrefines (m.load iov.iovBase iov.iovLen.toNat) _ _ _ rest.length size
      (by simp) ?_ (by omega) hend (by omega)).mono ?_ ?_
    · intro i hi
      rw [List.getD_eq_getElem _ _ (by simpa using hi), getElem_load]
    · rintro ⟨ret, s''⟩ ⟨hret, hrefines', hroom'⟩
      have hret : ret = iov.iovLen := hret
      subst hret
      refine ⟨Nat.le_refl _, ?_⟩
      rw [if_neg (Nat.lt_irrefl _)]
      refine ⟨done ++ m.load iov.iovBase iov.iovLen.toNat, ?_, by simp, ?_, fun hr => ?_⟩
      · rw [List.append_assoc, ← gathered_cons, hdone]
      · rw [Reference.put_append, ← hat]
        exact hrefines'
      · exact hroom' (hroom hr)
    · rintro e ⟨he, hfull⟩
      exact ⟨he, fun hr => hfull (hroom hr)⟩
  case skip =>
    rintro iov rest n s' hz ⟨done, hdone, hlen, hrefines, hroom⟩
    refine ⟨done, ?_, hlen, hrefines, fun hr => (hroom hr).pred⟩
    rw [← hdone, gathered_cons, hz]
    rfl
  unfold State.writev
  rw [hstart]
  refine hloop.mono ?_ (fun _ he => he)
  rintro ⟨ret, s'⟩ ⟨k, hret, done, hdone, hlen, hrefines, -⟩
  have hall : done = gathered m iovs := by simpa [gathered, gather] using hdone
  have hk : k = totalLength iovs := by rw [← hlen, hall, length_gathered]
  refine ⟨hk ▸ hret, ?_⟩
  simpa [hall] using hrefines

/-! ## Reading -/

theorem Refines.readv {s : State} {a : Reference} (h : Refines s a) (m : ByteMemory)
    {iovs : List Iovec} {offset : U64} (hbounds : offset.toNat + totalLength iovs < 2 ^ 62) :
    s.readv m iovs offset = .ok
      (ofNat 64 (a.read (totalLength iovs) offset.toNat).length,
        m.scatter (iovs.map Iovec.part) (a.read (totalLength iovs) offset.toNat)) := by
  have hstart : offset = ofNat 64 (offset.toNat + 0) := by simp
  -- the buffers to come get what one read returns for them
  let rest : List Iovec → ℕ → List Byte := fun iovs n =>
    a.read (totalLength iovs) (offset.toNat + n)
  let R : List Iovec → ℕ → ByteMemory → Prop := fun iovs' n m' =>
    m.scatter (iovs.map Iovec.part) (rest iovs 0) =
      m'.scatter (iovs'.map Iovec.part) (rest iovs' n) ∧
      (rest iovs 0).length = n + (rest iovs' n).length
  have hloop := @vectored_yields _ (fun iov offset (m : ByteMemory) =>
      let bytes := s.read iov.iovLen offset
      .ok (ofNat 64 bytes.length, m.store iov.iovBase bytes)) R (fun _ => False)
    offset.toNat (totalLength iovs) ?step ?skip (by omega) iovs 0 m (Nat.zero_add _)
    ⟨rfl, (Nat.zero_add _).symm⟩
  case step =>
    rintro iov iovs' n m' hz htotal ⟨hscatter, hlen⟩
    have hsum : totalLength (iov :: iovs') = iov.iovLen.toNat + totalLength iovs' := by
      simp [totalLength]
    have hat : (ofNat 64 (offset.toNat + n)).toNat = offset.toNat + n := by
      rw [toNat_ofNat]
      omega
    have hread : s.read iov.iovLen (ofNat 64 (offset.toNat + n)) =
        a.read iov.iovLen.toNat (offset.toNat + n) := by
      rw [h.read (by omega), hat]
    have hret : (ofNat 64 (a.read iov.iovLen.toNat (offset.toNat + n)).length).toNat =
        (a.read iov.iovLen.toNat (offset.toNat + n)).length := by
      rw [toNat_ofNat, Reference.length_read]
      omega
    have hscatter' : m.scatter (iovs.map Iovec.part) (rest iovs 0) =
        (m'.store iov.iovBase (a.read iov.iovLen.toNat (offset.toNat + n))).scatter
          (iovs'.map Iovec.part) (rest iovs' (n + iov.iovLen.toNat)) := by
      rw [hscatter]
      show (m'.store iov.iovBase
        ((a.read (totalLength (iov :: iovs')) _).take iov.iovLen.toNat)).scatter _
          ((a.read (totalLength (iov :: iovs')) _).drop iov.iovLen.toNat) = _
      rw [hsum, Reference.read_take, Reference.read_drop, Nat.add_assoc]
    have hlen' : (rest iovs 0).length = n + (a.read iov.iovLen.toNat (offset.toNat + n)).length +
        (rest iovs' (n + iov.iovLen.toNat)).length := by
      rw [hlen]
      simp only [rest, Reference.length_read, hsum]
      omega
    simp only [Yields, hread, hret]
    refine ⟨by simp, ?_⟩
    split_ifs with hshort
    · -- the file ends in this buffer
      have hnil : rest iovs' (n + iov.iovLen.toNat) = [] := by
        rw [Reference.length_read] at hshort
        apply List.eq_nil_of_length_eq_zero
        rw [Reference.length_read]
        omega
      have hnil' : rest [] (n + (a.read iov.iovLen.toNat (offset.toNat + n)).length) = [] := by
        simp [rest, totalLength, Reference.read]
      rw [hnil] at hscatter' hlen'
      refine ⟨?_, by rw [hnil']; exact hlen'⟩
      rw [hscatter', hnil', scatter_nil, scatter_nil]
    · have hfull : (a.read iov.iovLen.toNat (offset.toNat + n)).length = iov.iovLen.toNat := by
        rw [Reference.length_read] at hshort ⊢
        omega
      refine ⟨?_, ?_⟩
      · rw [hscatter', hfull]
      · rw [hlen', hfull]
  case skip =>
    rintro iov iovs' n m' hz ⟨hscatter, hlen⟩
    have hzero : iov.iovLen.toNat = 0 := by rw [hz]; rfl
    have hsame : rest (iov :: iovs') n = rest iovs' n := by simp [rest, totalLength, hzero]
    rw [hsame] at hscatter hlen
    refine ⟨?_, hlen⟩
    rw [hscatter]
    simp [scatter, Iovec.part, hzero]
  unfold State.readv
  rw [← hstart] at hloop
  cases hrun : vectored (fun iov offset (m : ByteMemory) =>
      let bytes := s.read iov.iovLen offset
      .ok (ofNat 64 bytes.length, m.store iov.iovBase bytes)) iovs 0#64 offset m with
  | error e =>
    rw [hrun] at hloop
    exact hloop.elim
  | ok r =>
    obtain ⟨k, hret, hscatter, hlen⟩ := hloop.ok hrun
    have hnil : rest [] k = [] := by simp [rest, totalLength, Reference.read]
    rw [hnil] at hscatter hlen
    have hk : (rest iovs 0).length = k := hlen
    refine congrArg Except.ok (Prod.ext ?_ hscatter.symm)
    rw [hret, ← hk]
    rfl

/-! ## Contiguous transfers -/

/-- The buffers have no byte in common. -/
def Separate (iovs : List Iovec) : Prop :=
  (iovs.map Iovec.part).Pairwise fun p q => Apart p.1 p.2 q.1 q.2

/-- **Main theorem.** A file in any state that it reaches, and any list of buffers. `writev` within
    the file or at its end returns what one `write` of the concatenation returns and leaves the file
    with the same contents; it stops only where the heap is too full for the blocks it may need.
    `readv` always returns: what one `read` of the whole length returns, with its bytes distributed
    to the buffers in order, so that buffers apart from each other hold them one behind the
    other. -/
theorem vectored_contiguous {heap : Heap} {os : List Op} {replies : List Userland.Reply} {s : State}
    (hrun : run os (.created heap) = .ok (replies, s)) (m : ByteMemory) (iovs : List Iovec)
    (offset : U64) (hbounds : offset.toNat + totalLength iovs < 2 ^ 62) :
    (offset ≤ s.node.size →
      (s.heap.RoomFor iovs.length (4 * (offset.toNat + totalLength iovs)) →
        ∃ r, s.writev m iovs offset = .ok r) ∧
      (∀ e, s.writev m iovs offset = .error e → e = .assertion) ∧
      ∀ r r', s.writev m iovs offset = .ok r →
        s.write (fun i => (gathered m iovs).getD i 0#8) (ofNat 64 (totalLength iovs))
          offset = .ok r' →
        r.1 = r'.1 ∧ r.2.node.size = r'.2.node.size ∧ r.2.contents = r'.2.contents) ∧
    ∃ r, s.readv m iovs offset = .ok r ∧
      let bytes := s.read (ofNat 64 (totalLength iovs)) offset
      r.1 = ofNat 64 bytes.length ∧
      r.2 = m.scatter (iovs.map Iovec.part) bytes ∧
      (Separate iovs → gathered r.2 iovs = bytes ++ (gathered m iovs).drop bytes.length) := by
  have h : Refines s s.array := ((refines_created heap).toStored.run hrun).refines
  have htotal : (ofNat 64 (totalLength iovs)).toNat = totalLength iovs := by
    rw [toNat_ofNat]
    omega
  constructor
  · intro hoffset
    have hwritev := h.writev m hbounds hoffset
    refine ⟨?_, ?_, ?_⟩
    · intro hroom
      cases hw : s.writev m iovs offset with
      | ok r => exact ⟨r, rfl⟩
      | error e =>
        rw [hw] at hwritev
        exact absurd hroom hwritev.2
    · intro e hw
      rw [hw] at hwritev
      exact hwritev.1
    · intro r r' hw hw'
      obtain ⟨hret, hrefines⟩ := hwritev.ok hw
      obtain ⟨hret', hrefines', -⟩ := (@Refines.put _ _ h (gathered m iovs)
        (fun i => (gathered m iovs).getD i 0#8) _ _ 0 _ (by rw [length_gathered, htotal])
        (fun _ _ => rfl) (by omega) hoffset (Nat.le_refl _)).ok hw'
      refine ⟨hret.trans hret'.symm, ?_, ?_⟩
      · apply BitVec.eq_of_toNat_eq
        rw [hrefines.size, hrefines'.size]
      · rw [hrefines.contents, hrefines'.contents]
  · have hread : s.read (ofNat 64 (totalLength iovs)) offset =
        s.array.read (totalLength iovs) offset.toNat := by
      rw [h.read (by omega), htotal]
    refine ⟨_, h.readv m hbounds, ?_⟩
    simp only [hread]
    refine ⟨trivial, trivial, ?_⟩
    intro hseparate
    refine gather_scatter ?_ ?_ hseparate
    · rw [Reference.length_read]
      simp [totalLength, Function.comp_def, Iovec.part]
    · intro p hp
      obtain ⟨iov, -, rfl⟩ := List.mem_map.mp hp
      exact iov.iovLen.isLt.le

/-- Five bytes at the end of a file of two, in three buffers of which one is empty. -/
def appended : List Iovec := [⟨0x1000#64, 2#64⟩, ⟨0x2000#64, 0#64⟩, ⟨0x1001#64, 3#64⟩]

theorem vectored_contiguous_appended : ∃ (s : State) (r : U64 × State) (s' : State),
    s.writev (fun a => a.setWidth 8) appended 2#64 = .ok r ∧
      s.write (fun i => (gathered (fun a => a.setWidth 8) appended).getD i 0#8) 5#64 2#64 =
        .ok (5#64, s') ∧
      r.1 = 5#64 ∧ r.2.contents = s'.contents := by
  obtain ⟨⟨replies, s⟩, hrun⟩ : ∃ x, run [.file (.write (fun _ => 7#8) 2#64 0#64)]
      (.created emptyHeap) = .ok x := ⟨_, rfl⟩
  obtain ⟨-, hs⟩ := pure_pair hrun
  obtain ⟨r, hr⟩ : ∃ r, s.writev (fun a => a.setWidth 8) appended 2#64 = .ok r := by
    rw [← hs]
    exact ⟨_, rfl⟩
  obtain ⟨s', hs'⟩ : ∃ s', s.write (fun i => (gathered (fun a => a.setWidth 8) appended).getD i 0#8)
      5#64 2#64 = .ok (5#64, s') := by
    rw [← hs]
    exact ⟨_, rfl⟩
  have hsize : 2#64 ≤ s.node.size := by
    rw [← hs]
    exact BitVec.le_refl _
  obtain ⟨hret, -, hcontents⟩ := ((vectored_contiguous hrun (fun a => a.setWidth 8) appended 2#64
    (by decide)).1 hsize).2.2 r _ hr hs'
  exact ⟨s, r, s', hr, hs', hret, hcontents⟩

end Fishix.Fs.Tmpfs
