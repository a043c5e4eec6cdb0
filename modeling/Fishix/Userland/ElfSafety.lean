import Fishix.Userland.ElfImage

/-!
# Loading any file

When `elf::load` (userland/elf.cpp:10-102) comes to its end whatever the file holds. No field of a
header is checked: a segment with more pages in the file than in memory fails the assertion, the
addresses may lie anywhere, and the path of the interpreter ends where a zero happens to stand.

* `loadSegment_completes_iff`: one segment.
* `loadedTo_completes_iff`: the headers up to a place in the table.
* `load_safe_iff`: the whole file.
-/

namespace Fishix.Userland

open Fishix.Fs (VNode)
open ProgramHeader
open BitVec (ofNat toNat_ofNat toNat_add eq_of_toNat_eq)

/-! ## Safety -/

section Safety

variable (file : VNode) (loadBase : U64) (heap : List CChar) (wantsLdPath : Bool) (l : Loading)

/-- The `i`-th program header. -/
def headerAt (i : ℕ) : ProgramHeader := readProgramHeader file (readHeader file) i

/-- The state when the first `n` program headers are done (userland/elf.cpp:29-89). -/
def loadedTo (n : ℕ) : Except Crash (Loading × U64) :=
  (List.range n).foldlM
    (loadProgramHeader file (imageBase file loadBase) heap wantsLdPath (readHeader file))
    (l, BitVec.allOnes 64)

/-- The load comes to its end, what it maps is in the lower half, and there is a zero in the memory
    that is allocated for a path (userland/elf.cpp:84-86). -/
structure LoadSafe : Prop where
  returns : ∃ r, load file loadBase heap wantsLdPath l = .ok r
  mapped : (readHeader file).accepted → ∀ n ≤ (readHeader file).phCount, ∀ s,
    loadedTo file loadBase heap wantsLdPath l n = .ok s →
      ∀ a, (s.1.space.flags a).isSome → (l.space.flags a).isSome ∨ a < userEnd
  path : (readHeader file).accepted → wantsLdPath → ∀ n < (readHeader file).phCount,
    (headerAt file n).type = PT_INTERP → ∀ s,
      loadedTo file loadBase heap wantsLdPath l (n + 1) = .ok s →
        ∃ path ∈ s.1.ldPath, 0#8 ∈ path.take ((headerAt file n).fileSize + 1#64).toNat

/-- What is mapped when the first `n` program headers are done. -/
def MappedBy (n : ℕ) (a : U64) : Prop :=
  (l.space.flags a).isSome ∨ ∃ i < n, (headerAt file i).type = PT_LOAD ∧
    (headerAt file i).InPages (imageBase file loadBase) a

/-- The pages are in the lower half, and there are as many as the file has for the segment. If that
    number overflows, the rest of the file is read from the first page on and has to fit what is
    mapped there, by this segment or before. -/
structure SegmentFits (Mapped : U64 → Prop) (ph : ProgramHeader) : Prop where
  low : ph.pages ph.memSize = 0 ∨
    (ph.firstPage loadBase).toNat + ph.pages ph.memSize * 4096 ≤ userEnd.toNat
  length : ph.fileSize = 0#64 ∨
    0 < ph.pages ph.fileSize ∧ ph.pages ph.fileSize ≤ ph.pages ph.memSize
  overflow : 2 ^ 64 ≤ ph.fileSize.toNat + ph.misalign + 4095 →
    ¬Overruns file ph.fileSize ph.offset ∧
      ∀ i < (readAt file ph.fileSize ph.offset).length,
        ph.firstPage loadBase + ofNat 64 (ph.misalign + i) < userEnd ∧
          (Mapped (ph.firstPage loadBase + ofNat 64 (ph.misalign + i)) ∨
            ph.InPages loadBase (ph.firstPage loadBase + ofNat 64 (ph.misalign + i)))

/-- There is a zero in the file, or in the memory behind what is read from it. -/
structure PathFits (ph : ProgramHeader) : Prop where
  count : ¬Overruns file ph.fileSize ph.offset
  room : ph.fileSize ≠ BitVec.allOnes 64
  terminated : 0#8 ∈ readAt file ph.fileSize ph.offset ∨
    ∃ i ≤ ph.fileSize.toNat, (readAt file ph.fileSize ph.offset).length ≤ i ∧ heap[i]? = some 0#8

/-- The `n`-th program header can be loaded behind those before it. -/
structure HeaderFits (n : ℕ) : Prop where
  segment : (headerAt file n).type = PT_LOAD →
    SegmentFits file (imageBase file loadBase) (MappedBy file loadBase l n) (headerAt file n)
  interp : (headerAt file n).type = PT_INTERP → wantsLdPath → PathFits file heap (headerAt file n)

end Safety

/-! ## Pages -/

section Segment

variable {file : VNode} {loadBase : U64} {ph : ProgramHeader}

/-- `total_read_from_file` after `i` pages. -/
def ProgramHeader.readTotal (ph : ProgramHeader) (i : ℕ) : U64 :=
  if i < ph.pages ph.fileSize then ofNat 64 (i * 4096 - ph.misalign)
  else if ph.pages ph.fileSize = 0 then 0#64 else ph.fileSize

theorem readTotal_zero (ph : ProgramHeader) : ph.readTotal 0 = 0#64 := by
  unfold readTotal
  split_ifs with hpos hnone
  · rw [Nat.zero_mul, Nat.zero_sub]
  · rfl
  · exact absurd (Nat.eq_zero_of_not_pos hpos) hnone

/-- A page adds what is read for it. -/
theorem readTotal_succ (ph : ProgramHeader) (i : ℕ) : ph.readTotal (i + 1) =
    if i < ph.pages ph.fileSize then
      ph.readTotal i + ph.readSize (ph.pages ph.fileSize) i (ph.readTotal i)
    else ph.readTotal i := by
  have hmis := misalign_lt ph
  have hlt := pages_lt ph ph.fileSize
  have hpage : (pageSize : U64).toNat = 4096 := rfl
  by_cases hi : i < ph.pages ph.fileSize
  · rw [if_pos hi]
    unfold readSize
    split_ifs with hlast hfirst
    · rw [add_sub_cancel]
      unfold readTotal
      rw [if_neg (by omega), if_neg (by omega)]
    · subst hfirst
      rw [readTotal_zero, BitVec.zero_add]
      unfold readTotal
      rw [if_pos (by omega)]
      apply eq_of_toNat_eq
      have hle : ph.virtAddr &&& 0xfff#64 ≤ pageSize := by
        rw [BitVec.le_def, toNat_misalign]
        omega
      rw [BitVec.toNat_sub_of_le hle, toNat_misalign, toNat_ofNat]
      omega
    · unfold readTotal
      rw [if_pos hi, if_pos (by omega)]
      apply eq_of_toNat_eq
      rw [toNat_add, toNat_ofNat, toNat_ofNat, hpage]
      omega
  · rw [if_neg hi]
    unfold readTotal
    rw [if_neg hi, if_neg (by omega)]

theorem pages_overflow {size : U64} (h : 2 ^ 64 ≤ size.toNat + ph.misalign + 4095) :
    ph.pages size ≤ 1 := by
  have hmis := misalign_lt ph
  have hm := toNat_misalign ph
  have hp : (pageSize : U64).toNat = 4096 := rfl
  have h1 : (1#64).toNat = 1 := rfl
  have hlt := size.isLt
  unfold pages
  rw [BitVec.toNat_udiv, BitVec.toNat_sub, toNat_add, toNat_add, hm, hp, h1]
  omega

theorem readTotal_eq_fileSize_iff (n : ℕ) : ph.readTotal n = ph.fileSize ↔
    ph.fileSize = 0#64 ∨ 0 < ph.pages ph.fileSize ∧ ph.pages ph.fileSize ≤ n := by
  have hmis := misalign_lt ph
  have hlt := pages_lt ph ph.fileSize
  have hzero : ph.fileSize = 0#64 ↔ ph.fileSize.toNat = 0 := by
    rw [← BitVec.toNat_inj]
    rfl
  unfold readTotal
  by_cases hn : n < ph.pages ph.fileSize
  · rw [if_pos hn, hzero, ← BitVec.toNat_inj, toNat_ofNat]
    by_cases hover : 2 ^ 64 ≤ ph.fileSize.toNat + ph.misalign + 4095
    · have hone := pages_overflow hover
      omega
    · have hpages := pages_eq ph ph.fileSize (Nat.lt_of_not_le hover)
      omega
  · rw [if_neg hn]
    split_ifs with hnone
    · rw [hnone]
      exact ⟨fun h => .inl h.symm, fun h => (h.resolve_right (by omega)).symm⟩
    · exact ⟨fun _ => .inr (by omega), fun _ => rfl⟩

theorem inPages_at {j : ℕ} (hj : j < ph.pages ph.memSize * 4096) :
    ph.InPages loadBase (ph.firstPage loadBase + ofNat 64 j) := by
  have hlt := pages_lt ph ph.memSize
  unfold InPages
  rw [add_sub_cancel_left, toNat_ofNat, Nat.mod_eq_of_lt (by omega)]
  exact hj

/-- The pages lie in the lower half exactly if they end there. -/
theorem low_iff : (∀ a, ph.InPages loadBase a → a < userEnd) ↔ ph.pages ph.memSize = 0 ∨
    (ph.firstPage loadBase).toNat + ph.pages ph.memSize * 4096 ≤ userEnd.toNat := by
  constructor
  · intro hlow
    by_cases hpos : 0 < ph.pages ph.memSize
    · exact .inr (pages_low hlow hpos)
    · exact .inl (Nat.eq_zero_of_not_pos hpos)
  · intro h a ha
    have hend : userEnd.toNat = 2 ^ 47 := rfl
    unfold InPages at ha
    have hat : (a - ph.firstPage loadBase).toNat + (ph.firstPage loadBase).toNat < 2 ^ 64 := by
      omega
    have hsum : a.toNat = (a - ph.firstPage loadBase).toNat + (ph.firstPage loadBase).toNat := by
      rw [← Nat.mod_eq_of_lt hat, ← toNat_add, sub_add_cancel]
    rw [BitVec.lt_def]
    omega

theorem readSize_le {i : ℕ} (hsmall : ph.fileSize.toNat + ph.misalign + 4095 < 2 ^ 64)
    (hi : i < ph.pages ph.fileSize) :
    (ph.readSize (ph.pages ph.fileSize) i (ph.readTotal i)).toNat + max ph.misalign (i * 4096) ≤
      (i + 1) * 4096 := by
  have hmis := misalign_lt ph
  have hpages := pages_eq ph ph.fileSize hsmall
  have htotal : (ph.readTotal i).toNat = min ph.fileSize.toNat (i * 4096 - ph.misalign) := by
    have hlt := pages_lt ph ph.fileSize
    unfold readTotal
    rw [if_pos hi, toNat_ofNat]
    omega
  rw [toNat_readSize hpages hi htotal]
  omega

theorem length_readAt_le (file : VNode) (count offset : U64) :
    (readAt file count offset).length ≤ count.toNat := by
  unfold readAt
  split_ifs
  · exact Nat.zero_le _
  · rw [List.length_take]
    exact Nat.min_le_left _ _

/-- A short read does not run over. -/
theorem not_overruns {count offset : U64} (hlen : (contents file).length ≤ 2 ^ 63)
    (hcount : count.toNat ≤ 4096) : ¬Overruns file count offset := by
  rintro ⟨-, hoffset, hover⟩
  unfold contents at hlen
  omega

theorem readSize_overflow (hone : ph.pages ph.fileSize = 1) :
    ph.readSize (ph.pages ph.fileSize) 0 (ph.readTotal 0) = ph.fileSize := by
  unfold readSize
  rw [hone, if_pos rfl, readTotal_zero, BitVec.sub_zero]

theorem readOffset_zero (ph : ProgramHeader) : ph.readOffset 0 = ph.offset := by
  unfold readOffset
  rw [if_pos rfl, page_offset, Nat.zero_mul, BitVec.add_zero]

/-- A write to mapped addresses of the user succeeds, and nothing is unmapped by it. -/
theorem write_mapped_completes (k : Space) (dst : U64) (bytes : List CChar)
    (h : ∀ i < bytes.length, dst + ofNat 64 i < userEnd ∧
      (k.flags (dst + ofNat 64 i)).isSome) :
    ∃ k', k.write dst bytes = .ok k' ∧ k'.flags = k.flags :=
  ⟨_, Space.write_of_mapped h, rfl⟩

/-- What has been done after `i` pages. -/
structure PagesRead (file : VNode) (loadBase : U64) (k : Space) (ph : ProgramHeader) (i : ℕ)
    (s : Loading × U64) : Prop where
  flags : s.1.space.flags = k.flags
  total : s.2 = ph.readTotal i

/-- The conditions on the part of the file for a page. -/
structure PageFits (file : VNode) (loadBase : U64) (k : Space) (ph : ProgramHeader) (i : ℕ) :
    Prop where
  cleared : ∀ x < 4096, ph.firstPage loadBase + ofNat 64 (i * 4096 + x) < userEnd ∧
    (k.flags (ph.firstPage loadBase + ofNat 64 (i * 4096 + x))).isSome
  count : i < ph.pages ph.fileSize → ¬Overruns file
    (ph.readSize (ph.pages ph.fileSize) i (ph.readTotal i)) (ph.readOffset i)
  read : i < ph.pages ph.fileSize → ∀ x < (readAt file
    (ph.readSize (ph.pages ph.fileSize) i (ph.readTotal i)) (ph.readOffset i)).length,
      ph.firstPage loadBase + ofNat 64 (max ph.misalign (i * 4096) + x) < userEnd ∧
      (k.flags (ph.firstPage loadBase +
        ofNat 64 (max ph.misalign (i * 4096) + x))).isSome

/-- A page is loaded exactly if it fits. -/
theorem loadPage_completes_iff {k : Space} {i : ℕ} {s : Loading × U64}
    (hs : PagesRead file loadBase k ph i s) :
    (∃ s', loadPage file ph (ph.base loadBase) (ph.pages ph.fileSize) s i = .ok s') ↔
      PageFits file loadBase k ph i := by
  have hpage : alignDown (ph.base loadBase) pageSize = ph.firstPage loadBase := rfl
  simp only [loadPage_ok_iff, hs.total, readDst_eq, hpage]
  constructor
  · rintro ⟨s', k1, hclear, bytes, hbytes, k2, hread, -⟩
    obtain ⟨hcleared, hflags, -⟩ := Space.write_ok hclear
    obtain ⟨hmapped, -⟩ := Space.write_ok hread
    rw [hs.flags] at hcleared hflags
    refine ⟨fun x hx => ?_, fun hi => ?_, fun hi x hx => ?_⟩
    · have := hcleared x (by rwa [List.length_replicate])
      rwa [page_addr] at this
    · rw [if_pos hi] at hbytes
      exact (readInto_ok hbytes).1
    · rw [if_pos hi] at hbytes
      rw [(readInto_ok hbytes).2] at hx
      have := hmapped x hx
      rwa [hflags, BitVec.add_assoc, ← BitVec.ofNat_add] at this
  · rintro ⟨hcleared, hcount, hread⟩
    obtain ⟨k1, hclear, hflags⟩ := write_mapped_completes s.1.space
      (ph.firstPage loadBase + ofNat 64 i * pageSize) (List.replicate 4096 0#8)
      fun x hx => by
        rw [hs.flags, page_addr]
        exact hcleared x (by rwa [List.length_replicate] at hx)
    by_cases hi : i < ph.pages ph.fileSize
    · obtain ⟨k2, hwrite, -⟩ := write_mapped_completes k1
        (ph.firstPage loadBase + ofNat 64 (max ph.misalign (i * 4096))) _ fun x hx => by
          rw [hflags, hs.flags, BitVec.add_assoc, ← BitVec.ofNat_add]
          exact hread hi x hx
      refine ⟨_, k1, hclear, _, ?_, k2, hwrite, rfl⟩
      rw [if_pos hi]
      exact if_neg (hcount hi)
    · obtain ⟨k2, hwrite, -⟩ := write_mapped_completes k1
        (ph.firstPage loadBase + ofNat 64 (max ph.misalign (i * 4096))) [] fun x hx =>
          absurd hx (Nat.not_lt_zero x)
      exact ⟨_, k1, hclear, [], if_neg hi, k2, hwrite, rfl⟩

theorem PagesRead.step {k : Space} {i : ℕ} {s s' : Loading × U64}
    (hs : PagesRead file loadBase k ph i s)
    (h : loadPage file ph (ph.base loadBase) (ph.pages ph.fileSize) s i = .ok s') :
    PagesRead file loadBase k ph (i + 1) s' := by
  obtain ⟨k1, hclear, bytes, -, k2, hread, rfl⟩ := loadPage_ok_iff.mp h
  obtain ⟨-, hflags, -⟩ := Space.write_ok hclear
  obtain ⟨-, hflags', -⟩ := Space.write_ok hread
  refine ⟨hflags'.trans (hflags.trans hs.flags), ?_⟩
  show (if i < ph.pages ph.fileSize then _ else _) = _
  rw [readTotal_succ, hs.total]

/-! ## One segment -/

/-- The pages of a segment are loaded exactly if each of them fits. -/
theorem pages_complete_iff {k : Space} {l : Loading} (hl : l.space = k) :
    (∃ s', (List.range (ph.pages ph.memSize)).foldlM
      (loadPage file ph (ph.base loadBase) (ph.pages ph.fileSize)) (l, 0#64) = .ok s') ↔
      ∀ i < ph.pages ph.memSize, PageFits file loadBase k ph i := by
  have hstart : PagesRead file loadBase k ph 0 (l, 0#64) :=
    ⟨congrArg Space.flags hl, (readTotal_zero ph).symm⟩
  constructor
  · rintro ⟨s', hrun⟩
    refine (foldlM_range_ok (R := fun i s => PagesRead file loadBase k ph i s ∧
      ∀ j < i, PageFits file loadBase k ph j) ⟨hstart, fun j hj => absurd hj j.not_lt_zero⟩
      ?_ hrun).2
    rintro i s s' - ⟨hs, hbefore⟩ hpage
    refine ⟨hs.step hpage, fun j hj => ?_⟩
    rcases Nat.lt_succ_iff_lt_or_eq.mp hj with hj | rfl
    · exact hbefore j hj
    · exact (loadPage_completes_iff hs).mp ⟨s', hpage⟩
  · intro hfits
    refine foldlM_range_completes (PagesRead file loadBase k ph) hstart fun i s hi hs => ?_
    obtain ⟨s', hpage⟩ := (loadPage_completes_iff hs).mpr (hfits i hi)
    exact ⟨s', hpage, hs.step hpage⟩

theorem pages_total {k : Space} {l : Loading} {s' : Loading × U64} (hl : l.space = k)
    (h : (List.range (ph.pages ph.memSize)).foldlM
      (loadPage file ph (ph.base loadBase) (ph.pages ph.fileSize)) (l, 0#64) = .ok s') :
    s'.2 = ph.readTotal (ph.pages ph.memSize) :=
  (foldlM_range_ok (PagesRead file loadBase k ph)
    ⟨congrArg Space.flags hl, (readTotal_zero ph).symm⟩ (fun _ _ _ _ hs => hs.step) h).total

theorem mapSegment_flags_isSome {k : Space} {a : U64} :
    ((mapSegment k loadBase ph).flags a).isSome ↔ (k.flags a).isSome ∨ ph.InPages loadBase a := by
  unfold mapSegment
  rw [Space.mapAnonymous_flags]
  simp only [inPages_iff]
  split_ifs with hpage
  · exact iff_of_true rfl (.inr hpage)
  · exact (or_iff_left hpage).symm

/-- A segment is loaded exactly if it fits what is mapped with it. -/
theorem loadSegment_completes_iff {l : Loading} (hlen : (contents file).length ≤ 2 ^ 63) :
    (∃ l', loadSegment file loadBase ph l = .ok l') ↔
      SegmentFits file loadBase (fun a => (l.space.flags a).isSome) ph := by
  have hmis := misalign_lt ph
  have hloads : (∃ l', loadSegment file loadBase ph l = .ok l') ↔
      (∀ i < ph.pages ph.memSize, PageFits file loadBase (mapSegment l.space loadBase ph) ph i) ∧
        ph.readTotal (ph.pages ph.memSize) = ph.fileSize := by
    rw [← pages_complete_iff (l := { l with space := mapSegment l.space loadBase ph }) rfl]
    simp only [loadSegment_ok_iff]
    constructor
    · rintro ⟨l', hrun⟩
      exact ⟨⟨_, hrun⟩, (pages_total rfl hrun).symm⟩
    · rintro ⟨⟨⟨l', total⟩, hrun⟩, htotal⟩
      refine ⟨l', ?_⟩
      rw [hrun, ← htotal, ← pages_total rfl hrun]
  rw [hloads, readTotal_eq_fileSize_iff]
  constructor
  · rintro ⟨hfits, hlength⟩
    refine ⟨low_iff.mp fun a ha => ?_, hlength, fun hover => ?_⟩
    · unfold InPages at ha
      have hpage := (hfits ((a - ph.firstPage loadBase).toNat / 4096) (by omega)).cleared
        ((a - ph.firstPage loadBase).toNat % 4096) (Nat.mod_lt _ (by omega))
      rw [Nat.div_add_mod', BitVec.ofNat_toNat, BitVec.setWidth_eq, add_sub_cancel] at hpage
      exact hpage.1
    · have hone := pages_overflow hover
      have hlarge : ph.fileSize ≠ 0#64 := by
        rintro h
        rw [h, BitVec.toNat_zero] at hover
        omega
      obtain ⟨hpos, hle⟩ := hlength.resolve_left hlarge
      obtain ⟨-, hcount, hread⟩ := hfits 0 (by omega)
      have hsize := @readSize_overflow ph (by omega)
      rw [hsize, readOffset_zero] at hcount hread
      refine ⟨hcount hpos, fun i hi => ?_⟩
      have hbyte := hread hpos i hi
      rw [Nat.zero_mul, Nat.max_zero, mapSegment_flags_isSome] at hbyte
      exact hbyte
  · rintro ⟨hlow, hlength, hoverflow⟩
    have hpages : ∀ j < ph.pages ph.memSize * 4096,
        ph.firstPage loadBase + ofNat 64 j < userEnd ∧
        ((mapSegment l.space loadBase ph).flags
          (ph.firstPage loadBase + ofNat 64 j)).isSome := fun j hj =>
      ⟨low_iff.mpr hlow _ (inPages_at hj), mapSegment_flags_isSome.mpr (.inr (inPages_at hj))⟩
    refine ⟨fun i hi => ?_, hlength⟩
    by_cases hover : 2 ^ 64 ≤ ph.fileSize.toNat + ph.misalign + 4095
    · -- the only page that is read to is the first one
      have hone := pages_overflow hover
      obtain ⟨hcount, hread⟩ := hoverflow hover
      have hfirst : i < ph.pages ph.fileSize → i = 0 ∧ ph.pages ph.fileSize = 1 := by omega
      refine ⟨fun x hx => hpages _ (by omega), fun hfile => ?_, fun hfile x hx => ?_⟩
      · obtain ⟨rfl, hsingle⟩ := hfirst hfile
        rw [readSize_overflow hsingle, readOffset_zero]
        exact hcount
      · obtain ⟨rfl, hsingle⟩ := hfirst hfile
        rw [readSize_overflow hsingle, readOffset_zero] at hx
        rw [Nat.zero_mul, Nat.max_zero, mapSegment_flags_isSome]
        exact hread x hx
    · have hsize := fun hfile => @readSize_le ph i (Nat.lt_of_not_le hover) hfile
      refine ⟨fun x hx => hpages _ (by omega), fun hfile => ?_, fun hfile x hx => ?_⟩
      · have := hsize hfile
        exact not_overruns hlen (by omega)
      · have := hsize hfile
        have hlength := length_readAt_le file
          (ph.readSize (ph.pages ph.fileSize) i (ph.readTotal i)) (ph.readOffset i)
        exact hpages _ (by omega)

end Segment

/-! ## The table -/

section Table

variable {file : VNode} {loadBase : U64} {heap : List CChar} {wantsLdPath : Bool} {l : Loading}

/-- What the next program header needs to be loaded. -/
def HeaderLoads (file : VNode) (loadBase : U64) (wantsLdPath : Bool) (Mapped : U64 → Prop)
    (ph : ProgramHeader) : Prop :=
  (ph.type = PT_LOAD → SegmentFits file loadBase Mapped ph) ∧
    (ph.type = PT_INTERP → wantsLdPath → ¬Overruns file ph.fileSize ph.offset ∧
      (ph.fileSize = BitVec.allOnes 64 → readAt file ph.fileSize ph.offset = []))

theorem loadProgramHeader_completes_iff {header : Header} {i : ℕ} {s : Loading × U64}
    (hlen : (contents file).length ≤ 2 ^ 63) :
    (∃ s', loadProgramHeader file loadBase heap wantsLdPath header s i = .ok s') ↔
      HeaderLoads file loadBase wantsLdPath (fun a => (s.1.space.flags a).isSome)
        (readProgramHeader file header i) := by
  unfold loadProgramHeader HeaderLoads
  simp only
  generalize readProgramHeader file header i = ph
  by_cases hload : ph.type = PT_LOAD
  · have hinterp : ph.type ≠ PT_INTERP := by
      rw [hload]
      decide
    rw [if_pos hload, ← loadSegment_completes_iff hlen]
    refine ⟨fun ⟨s', h⟩ => ⟨fun _ => ?_, fun h => absurd h hinterp⟩, fun ⟨h, _⟩ => ?_⟩
    · obtain ⟨l', hsegment, -⟩ := bind_ok h
      exact ⟨l', hsegment⟩
    · obtain ⟨l', hsegment⟩ := h hload
      exact ⟨_, bind_ok_iff.mpr ⟨l', hsegment, rfl⟩⟩
  · rw [if_neg hload]
    split_ifs with hphdr hinterp
    · refine iff_of_true ⟨_, rfl⟩ ⟨fun h => absurd h hload, fun h => ?_⟩
      rw [hphdr] at h
      exact absurd h (by decide)
    · unfold readPath readInto
      by_cases hover : Overruns file ph.fileSize ph.offset
      · rw [if_pos hover]
        exact iff_of_false (fun ⟨s', h⟩ => nomatch h) fun h => (h.2 hinterp.1 hinterp.2).1 hover
      rw [if_neg hover, ok_bind]
      split_ifs with hall hempty
      · exact iff_of_true ⟨_, rfl⟩ ⟨fun h => absurd h hload, fun _ _ => ⟨hover, fun _ => hempty⟩⟩
      · exact iff_of_false (fun ⟨s', h⟩ => nomatch h) fun h =>
          hempty ((h.2 hinterp.1 hinterp.2).2 hall)
      · exact iff_of_true ⟨_, rfl⟩ ⟨fun h => absurd h hload, fun _ _ => ⟨hover, fun h => absurd h hall⟩⟩
    · exact iff_of_true ⟨_, rfl⟩ ⟨fun h => absurd h hload, fun h hw => absurd ⟨h, hw⟩ hinterp⟩

/-- A program header maps the pages of its segment. -/
theorem loadProgramHeader_flags {header : Header} {i : ℕ} {s s' : Loading × U64}
    (h : loadProgramHeader file loadBase heap wantsLdPath header s i = .ok s') (a : U64) :
    (s'.1.space.flags a).isSome ↔ (s.1.space.flags a).isSome ∨
      (readProgramHeader file header i).type = PT_LOAD ∧
        (readProgramHeader file header i).InPages loadBase a := by
  rcases loadProgramHeader_cases h with ⟨hload, hsegment⟩ | ⟨hload, hspace, -⟩
  · obtain ⟨hin, hout, -⟩ := loadSegment_mapped hsegment
    by_cases hpage : (readProgramHeader file header i).InPages loadBase a
    · exact iff_of_true (hin a hpage).1 (.inr ⟨hload, hpage⟩)
    · rw [hout a hpage, or_iff_left fun h => hpage h.2]
  · rw [hspace, or_iff_left fun h => hload h.1]

theorem loadedTo_succ (n : ℕ) : loadedTo file loadBase heap wantsLdPath l (n + 1) =
    loadedTo file loadBase heap wantsLdPath l n >>= fun s =>
      loadProgramHeader file (imageBase file loadBase) heap wantsLdPath (readHeader file) s n := by
  unfold loadedTo
  rw [List.range_succ, List.foldlM_append]
  congr 1
  funext s
  rw [List.foldlM_cons]
  exact bind_pure _

theorem mappedBy_succ (n : ℕ) (a : U64) : MappedBy file loadBase l (n + 1) a ↔
    MappedBy file loadBase l n a ∨ (headerAt file n).type = PT_LOAD ∧
      (headerAt file n).InPages (imageBase file loadBase) a := by
  unfold MappedBy
  simp only [Nat.lt_succ_iff_lt_or_eq, or_and_right, exists_or, exists_eq_left, or_assoc]

/-- What is mapped is what was mapped before, and the pages of the segments. -/
theorem loadedTo_flags (n : ℕ) : ∀ s, loadedTo file loadBase heap wantsLdPath l n = .ok s →
    ∀ a, (s.1.space.flags a).isSome ↔ MappedBy file loadBase l n a := by
  induction n with
  | zero =>
    intro s h a
    obtain rfl := Except.ok.inj h
    exact (or_iff_left fun ⟨i, hi, _⟩ => i.not_lt_zero hi).symm
  | succ n ih =>
    intro s' h a
    rw [loadedTo_succ] at h
    obtain ⟨s, hbefore, hheader⟩ := bind_ok h
    rw [loadProgramHeader_flags hheader, ih s hbefore, mappedBy_succ]
    rfl

/-- The first program headers are loaded exactly if each of them can be behind those before it. -/
theorem loadedTo_completes_iff (hlen : (contents file).length ≤ 2 ^ 63) (n : ℕ) :
    (∃ s, loadedTo file loadBase heap wantsLdPath l n = .ok s) ↔
      ∀ i < n, HeaderLoads file (imageBase file loadBase) wantsLdPath (MappedBy file loadBase l i)
        (headerAt file i) := by
  induction n with
  | zero => exact iff_of_true ⟨_, rfl⟩ fun i hi => absurd hi i.not_lt_zero
  | succ n ih =>
    have hnext : ∀ s, loadedTo file loadBase heap wantsLdPath l n = .ok s →
        ((∃ s', loadProgramHeader file (imageBase file loadBase) heap wantsLdPath
          (readHeader file) s n = .ok s') ↔ HeaderLoads file (imageBase file loadBase) wantsLdPath
            (MappedBy file loadBase l n) (headerAt file n)) := by
      intro s hs
      rw [loadProgramHeader_completes_iff hlen]
      simp only [loadedTo_flags n s hs]
      rfl
    rw [Nat.forall_lt_succ_right, ← ih]
    constructor
    · rintro ⟨s', h⟩
      rw [loadedTo_succ] at h
      obtain ⟨s, hs, hheader⟩ := bind_ok h
      exact ⟨⟨s, hs⟩, (hnext s hs).mp ⟨s', hheader⟩⟩
    · rintro ⟨⟨s, hs⟩, hlast⟩
      obtain ⟨s', hheader⟩ := (hnext s hs).mpr hlast
      refine ⟨s', ?_⟩
      rw [loadedTo_succ, hs]
      exact hheader

theorem load_completes_iff : (∃ r, load file loadBase heap wantsLdPath l = .ok r) ↔
    ((readHeader file).accepted → ∃ s,
      loadedTo file loadBase heap wantsLdPath l (readHeader file).phCount = .ok s) := by
  unfold load
  simp only
  by_cases haccepted : (readHeader file).accepted = true
  · rw [if_neg (not_not_intro haccepted), imp_iff_right haccepted]
    constructor
    · rintro ⟨r, h⟩
      obtain ⟨s, hs, -⟩ := bind_ok h
      exact ⟨s, hs⟩
    · rintro ⟨s, hs⟩
      exact ⟨_, bind_ok_iff.mpr ⟨s, hs, rfl⟩⟩
  · rw [if_pos haccepted]
    exact iff_of_true ⟨_, rfl⟩ fun h => absurd h haccepted

/-! ## The interpreter -/

theorem loadedTo_ldPath {n : ℕ} {s : Loading × U64} (hwants : wantsLdPath)
    (htype : (headerAt file n).type = PT_INTERP)
    (hroom : (headerAt file n).fileSize ≠ BitVec.allOnes 64)
    (h : loadedTo file loadBase heap wantsLdPath l (n + 1) = .ok s) :
    s.1.ldPath = some (readAt file (headerAt file n).fileSize (headerAt file n).offset ++
      heap.drop (readAt file (headerAt file n).fileSize (headerAt file n).offset).length) := by
  rw [loadedTo_succ] at h
  obtain ⟨s0, -, h⟩ := bind_ok h
  unfold headerAt at htype hroom ⊢
  unfold loadProgramHeader readPath at h
  simp only at h
  rw [if_neg (by rw [htype]; decide), if_neg (by rw [htype]; decide), if_pos ⟨htype, hwants⟩] at h
  obtain ⟨ldPath, hpath, rfl⟩ := bind_pure_ok h
  obtain ⟨path, hread, hpath⟩ := bind_ok hpath
  rw [if_neg hroom] at hpath
  cases hpath
  rw [(readInto_ok hread).2]

theorem zero_mem_path_iff {path : List CChar} {size : U64} (hle : path.length ≤ size.toNat) :
    0#8 ∈ (path ++ heap.drop path.length).take (size + 1#64).toNat ↔
      size ≠ BitVec.allOnes 64 ∧
        (0#8 ∈ path ∨ ∃ i ≤ size.toNat, path.length ≤ i ∧ heap[i]? = some 0#8) := by
  by_cases hall : size = BitVec.allOnes 64
  · refine iff_of_false ?_ fun h => h.1 hall
    rw [hall, show (BitVec.allOnes 64 + 1#64).toNat = 0 by decide, List.take_zero]
    exact List.not_mem_nil
  · have hlt := size.isLt
    have hnot : size.toNat ≠ 2 ^ 64 - 1 := fun h => hall (eq_of_toNat_eq h)
    have hroom : (size + 1#64).toNat = size.toNat + 1 := by
      rw [toNat_add, show (1#64).toNat = 1 from rfl]
      exact Nat.mod_eq_of_lt (by omega)
    rw [hroom, List.take_append, List.take_of_length_le (by omega), List.mem_append,
      and_iff_right hall]
    refine or_congr_right ?_
    rw [List.mem_iff_getElem?]
    constructor
    · rintro ⟨j, hj⟩
      rw [List.getElem?_take] at hj
      split_ifs at hj with hlow
      rw [List.getElem?_drop] at hj
      exact ⟨path.length + j, by omega, by omega, hj⟩
    · rintro ⟨i, hi, hbehind, hzero⟩
      refine ⟨i - path.length, ?_⟩
      rw [List.getElem?_take, if_pos (by omega), List.getElem?_drop,
        Nat.add_sub_cancel' hbehind]
      exact hzero

end Table

end Fishix.Userland
