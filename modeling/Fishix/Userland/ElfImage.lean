import Fishix.Userland.Exec

/-!
# The image of an ELF file

What `elf::load` (userland/elf.cpp:29-102) leaves in memory. A segment is loaded page by page, and
each page is cleared before it is read into: the bytes of an earlier segment on the same page are
lost. The end of the program goes up with the pages, so that a segment without bytes at a page
boundary does not move it.

* `loadSegment_space`: one segment.
* `bytes_law_iff`: all of them, one after the other.
* `image_law_iff`: when the image is that of the file.
-/

namespace Fishix.Userland

open Fishix.Fs (VNode)
open BitVec (ofNat toNat_ofNat toNat_add le_def lt_def ofNat_add toNat_sub ofNat_toNat)

/-! ## Segments -/

/-- What a file holds. -/
def contents (file : VNode) : List CChar := file.data.getD []

/-- The program headers with `PT_LOAD`, in the order of the table. -/
def segments (file : VNode) : List ProgramHeader :=
  ((List.range (readHeader file).phCount).map (readProgramHeader file (readHeader file))).filter
    fun ph => ph.type = PT_LOAD

/-- The base of an executable is 0 (userland/elf.cpp:26-27). -/
def imageBase (file : VNode) (loadBase : U64) : U64 :=
  if (readHeader file).type = ET_EXEC then 0#64 else loadBase

namespace ProgramHeader

variable (loadBase : U64) (ph : ProgramHeader)

/-- `base`. -/
def base : U64 := loadBase + ph.virtAddr

/-- `misalign`. -/
def misalign : ℕ := ph.virtAddr.toNat % 4096

/-- `aligned_base`. -/
def firstPage : U64 := alignDown (ph.base loadBase) pageSize

/-- `mem_page_count` and, for the size in the file, `file_page_count`. -/
def pages (size : U64) : ℕ :=
  ((size + (ph.virtAddr &&& 0xfff#64) + pageSize - 1#64) / pageSize).toNat

/-- The pages that are mapped and cleared. -/
def InPages (a : U64) : Prop := (a - ph.firstPage loadBase).toNat < ph.pages ph.memSize * 4096

instance (a : U64) : Decidable (ph.InPages loadBase a) := inferInstanceAs (Decidable (_ < _))

/-- What the pages of a segment hold, from the first one on. -/
def imageByte (file : VNode) (k : ℕ) : CChar :=
  if ph.misalign ≤ k ∧ k < ph.misalign + ph.fileSize.toNat then
    (contents file).getD (ph.offset.toNat + (k - ph.misalign)) 0#8
  else 0#8

/-- The number of pages does not overflow. -/
def Fits : Prop := ph.memSize.toNat + ph.misalign + 4095 < 2 ^ 64

instance : Decidable ph.Fits := inferInstanceAs (Decidable (_ < _))

/-- No more in the file than in memory, and all of that in the file. -/
structure WellFormed (file : VNode) : Prop where
  size : ph.fileSize ≤ ph.memSize
  inFile : ph.offset.toNat + ph.fileSize.toNat ≤ (contents file).length

/-- Two segments have no byte in common. -/
def Apart (s t : ProgramHeader) : Prop :=
  ∀ i < s.memSize.toNat, ∀ j < t.memSize.toNat,
    s.base loadBase + ofNat 64 i ≠ t.base loadBase + ofNat 64 j

end ProgramHeader

open ProgramHeader

section Segment

variable {file : VNode} {loadBase : U64} {ph : ProgramHeader}

theorem toNat_misalign (ph : ProgramHeader) :
    (ph.virtAddr &&& 0xfff#64).toNat = ph.misalign := by
  rw [BitVec.toNat_and]
  exact Nat.and_two_pow_sub_one_eq_mod ph.virtAddr.toNat 12

theorem misalign_lt (ph : ProgramHeader) : ph.misalign < 4096 := Nat.mod_lt _ (by omega)

theorem pages_eq (ph : ProgramHeader) (size : U64) (h : size.toNat + ph.misalign + 4095 < 2 ^ 64) :
    ph.pages size = (size.toNat + ph.misalign + 4095) / 4096 := by
  have hm := toNat_misalign ph
  have hp : (pageSize : U64).toNat = 4096 := rfl
  have h1 : (1#64).toNat = 1 := rfl
  unfold pages
  rw [BitVec.toNat_udiv, toNat_sub, toNat_add, toNat_add, hm, hp, h1]
  omega

/-- A segment begins `misalign` bytes into its first page. -/
theorem base_eq (hbase : PageAligned loadBase) (ph : ProgramHeader) :
    ph.base loadBase = ph.firstPage loadBase + ofNat 64 ph.misalign := by
  apply BitVec.eq_of_toNat_eq
  have hdown := toNat_alignDown (ph.base loadBase)
  have hsum : (ph.base loadBase).toNat = (loadBase.toNat + ph.virtAddr.toNat) % 2 ^ 64 :=
    toNat_add _ _
  have hlt := (ph.base loadBase).isLt
  unfold PageAligned at hbase
  unfold firstPage misalign
  rw [toNat_add, hdown, toNat_ofNat]
  omega

theorem offset_sub {a : U64} {i k : ℕ} (hi : i < 2 ^ 64) (hk : k < 2 ^ 64) :
    (a + ofNat 64 k - (a + ofNat 64 i)).toNat =
      if i ≤ k then k - i else 2 ^ 64 - (i - k) := by
  have hdiff : a + ofNat 64 k - (a + ofNat 64 i) =
      ofNat 64 k - ofNat 64 i := by bv_omega
  rw [hdiff, toNat_sub, toNat_ofNat, toNat_ofNat]
  split_ifs <;> omega

theorem page_offset (i : ℕ) : ofNat 64 i * pageSize = ofNat 64 (i * 4096) := by
  have hp : (pageSize : U64) = ofNat 64 4096 := rfl
  rw [hp, ← BitVec.ofNat_mul]

theorem page_addr (a : U64) (i x : ℕ) :
    a + ofNat 64 i * pageSize + ofNat 64 x = a + ofNat 64 (i * 4096 + x) := by
  rw [page_offset, BitVec.add_assoc, ← ofNat_add]

theorem loadPage_low {filePageCount i : ℕ} {s s' : Loading × U64}
    (h : loadPage file ph (ph.base loadBase) filePageCount s i = .ok s') :
    s'.1.space.flags = s.1.space.flags ∧ s'.1.space.ranges = s.1.space.ranges ∧
      ∀ x < 4096, ph.firstPage loadBase + ofNat 64 (i * 4096 + x) < userEnd := by
  obtain ⟨k1, hclear, bytes, -, k2, hread, rfl⟩ := loadPage_ok_iff.mp h
  obtain ⟨hlow, hflags, hranges, -⟩ := Space.write_ok hclear
  obtain ⟨-, hflags', hranges', -⟩ := Space.write_ok hread
  refine ⟨hflags'.trans hflags, hranges'.trans hranges, ?_⟩
  intro x hx
  rw [← page_addr]
  exact (hlow x (by rw [List.length_replicate]; exact hx)).1

end Segment

/-! ## One segment -/

section Segment

variable {file : VNode} {loadBase : U64} {ph : ProgramHeader}

theorem getD_readAt (hfile : file.nodeType ≠ .directory) (count offset : U64)
    (hin : offset.toNat + count.toNat ≤ (contents file).length) :
    (readAt file count offset).length = count.toNat ∧
      ∀ y < count.toNat, (readAt file count offset).getD y 0#8 =
        (contents file).getD (offset.toNat + y) 0#8 := by
  unfold readAt
  rw [if_neg hfile]
  have hlen : (((contents file).drop offset.toNat).take count.toNat).length = count.toNat := by
    rw [List.length_take, List.length_drop]
    omega
  refine ⟨hlen, ?_⟩
  intro y hy
  show (((contents file).drop offset.toNat).take count.toNat).getD y 0#8 = _
  rw [List.getD_eq_getElem _ _ (by omega), List.getD_eq_getElem _ _ (by omega), List.getElem_take,
    List.getElem_drop]

/-- After `i` pages. -/
structure PagesDone (file : VNode) (loadBase : U64) (ph : ProgramHeader) (k : Space) (i : ℕ)
    (s : Loading × U64) : Prop where
  bytes : ∀ j < i * 4096,
    s.1.space.byte (ph.firstPage loadBase + ofNat 64 j) = ph.imageByte file j
  frame : ∀ a, i * 4096 ≤ (a - ph.firstPage loadBase).toNat → s.1.space.byte a = k.byte a
  total : s.2.toNat = min ph.fileSize.toNat (i * 4096 - ph.misalign)

/-- How long a page of the file is. -/
theorem toNat_readSize {i m : ℕ} {total : U64}
    (hm : m = (ph.fileSize.toNat + ph.misalign + 4095) / 4096) (hi : i < m)
    (htotal : total.toNat = min ph.fileSize.toNat (i * 4096 - ph.misalign)) :
    (ph.readSize m i total).toNat =
      min (ph.misalign + ph.fileSize.toNat) ((i + 1) * 4096) - max ph.misalign (i * 4096) := by
  have hmis := misalign_lt ph
  have hpage : (pageSize : U64).toNat = 4096 := rfl
  have hmis' := toNat_misalign ph
  unfold readSize
  split_ifs with hlast hfirst
  · have hle : total ≤ ph.fileSize := by
      rw [le_def]
      omega
    rw [BitVec.toNat_sub_of_le hle]
    omega
  · have hle : ph.virtAddr &&& 0xfff#64 ≤ pageSize := by
      rw [le_def]
      omega
    rw [BitVec.toNat_sub_of_le hle, hmis', hpage]
    omega
  · rw [hpage]
    omega

/-- Where a page of the file begins. -/
theorem toNat_readOffset {i : ℕ}
    (hsmall : ph.offset.toNat + (max ph.misalign (i * 4096) - ph.misalign) < 2 ^ 64) :
    (ph.readOffset i).toNat = ph.offset.toNat + (max ph.misalign (i * 4096) - ph.misalign) := by
  have hmis := misalign_lt ph
  have hpage : (pageSize : U64).toNat = 4096 := rfl
  have hpages : (ofNat 64 i * pageSize).toNat = i * 4096 % 2 ^ 64 := by
    rw [BitVec.toNat_mul, hpage, toNat_ofNat, Nat.mod_mul_mod]
  unfold readOffset
  split_ifs with hfirst
  · rw [toNat_add, hpages]
    omega
  · have hsum : (ph.offset + ofNat 64 i * pageSize).toNat =
        (ph.offset.toNat + i * 4096) % 2 ^ 64 := by
      rw [toNat_add, hpages, Nat.add_mod_mod]
    rw [toNat_sub, hsum, toNat_misalign]
    omega

theorem readDst_eq (i : ℕ) : ph.readDst (ph.base loadBase) i =
    ph.firstPage loadBase + ofNat 64 (max ph.misalign (i * 4096)) := by
  have hmis := misalign_lt ph
  have hfirst : alignDown (ph.base loadBase) pageSize = ph.firstPage loadBase := rfl
  have hword : (ph.virtAddr &&& 0xfff#64) = ofNat 64 ph.misalign := by
    rw [← toNat_misalign, ofNat_toNat, BitVec.setWidth_eq]
  unfold readDst
  rw [hfirst]
  split_ifs with h0
  · rw [hword, page_addr, show i * 4096 + ph.misalign = max ph.misalign (i * 4096) by omega]
  · rw [page_offset, show max ph.misalign (i * 4096) = i * 4096 by omega]

/-- One page: it is cleared, and what the file has for it is read. -/
theorem PagesDone.step {k : Space} {i : ℕ} {s s' : Loading × U64}
    (h : PagesDone file loadBase ph k i s) (hfile : file.nodeType ≠ .directory)
    (hlen : (contents file).length < 2 ^ 64) (hwell : ph.WellFormed file) (hfits : ph.Fits)
    (hi : i < ph.pages ph.memSize)
    (hstep : loadPage file ph (ph.base loadBase) (ph.pages ph.fileSize) s i = .ok s') :
    PagesDone file loadBase ph k (i + 1) s' := by
  obtain ⟨l, total⟩ := s
  obtain ⟨hbytes, hframe, htotal⟩ := h
  have hmis := misalign_lt ph
  have hsize := le_def.mp hwell.size
  have hin := hwell.inFile
  unfold Fits at hfits
  have hmem := pages_eq _ _ hfits
  have hpages := pages_eq ph ph.fileSize (by omega)
  rw [hmem] at hi
  obtain ⟨k1, hclear, bytes, hpart, k2, hread, rfl⟩ := loadPage_ok_iff.mp hstep
  obtain ⟨-, -, -, hclear⟩ := Space.write_ok hclear
  obtain ⟨-, -, -, hread⟩ := Space.write_ok hread
  have hcount : i < ph.pages ph.fileSize → _ ∧ _ := fun hfirst =>
    ⟨toNat_readSize hpages hfirst htotal, @toNat_readOffset ph i (by omega)⟩
  simp only at hpart hread
  generalize ph.readSize (ph.pages ph.fileSize) i total = count at *
  generalize ph.readOffset i = offset at *
  obtain rfl : (if i < ph.pages ph.fileSize then readAt file count offset else []) = bytes := by
    split_ifs at hpart ⊢
    · exact (readInto_ok hpart).2
    · exact Except.ok.inj hpart
  clear hpart
  -- the window of the page that is read
  obtain ⟨lo, hlo⟩ : ∃ lo, lo = max ph.misalign (i * 4096) := ⟨_, rfl⟩
  have hfirst : alignDown (ph.base loadBase) pageSize = ph.firstPage loadBase := rfl
  rw [hfirst] at hclear
  rw [readDst_eq, ← hlo] at hread
  obtain ⟨size, hsize', hlength, hget⟩ : ∃ size, (size = if i < ph.pages ph.fileSize then
      min (ph.misalign + ph.fileSize.toNat) ((i + 1) * 4096) - lo else 0) ∧
      (if i < ph.pages ph.fileSize then readAt file count offset else []).length = size ∧
      ∀ y < size, (if i < ph.pages ph.fileSize then readAt file count offset else []).getD y 0#8 =
        (contents file).getD (ph.offset.toNat + (lo - ph.misalign) + y) 0#8 := by
    refine ⟨_, rfl, ?_⟩
    split_ifs with hlast
    · obtain ⟨hc, ho⟩ := hcount hlast
      rw [← hlo] at hc ho
      obtain ⟨hl, hg⟩ := getD_readAt hfile count offset (by omega)
      rw [← hc, ← ho]
      exact ⟨hl, hg⟩
    · exact ⟨rfl, fun y hy => absurd hy (Nat.not_lt_zero y)⟩
  have hpart : i < ph.pages ph.fileSize →
      size = min (ph.misalign + ph.fileSize.toNat) ((i + 1) * 4096) - lo := fun h => by
    rw [hsize', if_pos h]
  have hnone : ¬i < ph.pages ph.fileSize → size = 0 := fun h => by rw [hsize', if_neg h]
  clear hsize'
  have hle : lo + size ≤ (i + 1) * 4096 := by
    by_cases h : i < ph.pages ph.fileSize
    · have := hpart h
      omega
    · have := hnone h
      omega
  rw [page_offset] at hclear
  -- a byte at a distance from the first page
  have hbyte : ∀ j, j < 2 ^ 64 → k2.byte (ph.firstPage loadBase + ofNat 64 j) =
      if lo ≤ j ∧ j < lo + size then
        (contents file).getD (ph.offset.toNat + (lo - ph.misalign) + (j - lo)) 0#8
      else if i * 4096 ≤ j ∧ j < (i + 1) * 4096 then 0#8
      else l.space.byte (ph.firstPage loadBase + ofNat 64 j) := by
    intro j hj
    rw [hread, hclear]
    unfold ByteMemory.store
    rw [hlength, List.length_replicate, offset_sub (by omega) hj, offset_sub (by omega) hj]
    by_cases hin : lo ≤ j ∧ j < lo + size
    · rw [if_pos hin.1, if_pos (by omega), if_pos hin]
      exact hget _ (by omega)
    · rw [if_neg hin, if_neg (by split_ifs <;> omega)]
      by_cases hpage : i * 4096 ≤ j ∧ j < (i + 1) * 4096
      · rw [if_pos hpage.1, if_pos (by omega), if_pos hpage]
        exact List.getD_replicate _ (by omega)
      · rw [if_neg hpage, if_neg (by split_ifs <;> omega)]
  refine ⟨?_, ?_, ?_⟩
  · intro j hj
    show k2.byte _ = _
    rw [hbyte j (by omega)]
    unfold imageByte
    by_cases hin : lo ≤ j ∧ j < lo + size
    · have hlast : i < ph.pages ph.fileSize := by
        by_contra hlast
        have := hnone hlast
        omega
      have hsize'' := hpart hlast
      have hwhere : ph.offset.toNat + (lo - ph.misalign) + (j - lo) =
          ph.offset.toNat + (j - ph.misalign) := by omega
      rw [if_pos hin, if_pos (by omega), hwhere]
    · rw [if_neg hin]
      by_cases hpage : i * 4096 ≤ j
      · rw [if_pos ⟨hpage, hj⟩, if_neg]
        by_cases hlast : i < ph.pages ph.fileSize
        · have := hpart hlast
          omega
        · omega
      · rw [if_neg (by omega)]
        exact hbytes j (Nat.lt_of_not_le hpage)
  · intro a ha
    show k2.byte a = k.byte a
    obtain ⟨d, hd, hlt, hda⟩ : ∃ d, (a - ph.firstPage loadBase).toNat = d ∧ d < 2 ^ 64 ∧
        ph.firstPage loadBase + ofNat 64 d = a := by
      refine ⟨_, rfl, (a - ph.firstPage loadBase).isLt, ?_⟩
      rw [ofNat_toNat, BitVec.setWidth_eq, add_sub_cancel]
    have hkept := hframe a
    rw [hd] at ha hkept
    have hbehind : i * 4096 ≤ d := Nat.le_trans (Nat.mul_le_mul_right 4096 (Nat.le_succ i)) ha
    rw [← hkept hbehind, ← hda, hbyte d hlt, if_neg (by omega), if_neg (by omega)]
  · show (if i < ph.pages ph.fileSize then total + count else total).toNat = _
    by_cases hlast : i < ph.pages ph.fileSize
    · obtain ⟨hc, -⟩ := hcount hlast
      rw [if_pos hlast, toNat_add, htotal, hc]
      omega
    · rw [if_neg hlast, htotal]
      omega

/-- What `loadSegment` does to the address space. -/
structure SegmentLoaded (file : VNode) (loadBase : U64) (ph : ProgramHeader) (k k' : Space) :
    Prop where
  mapped : ∀ a, ph.InPages loadBase a → (k'.flags a).isSome ∧ a < userEnd
  flags : ∀ a, ¬ph.InPages loadBase a → k'.flags a = k.flags a
  byte : ∀ a, k'.byte a = if ph.InPages loadBase a then
    ph.imageByte file (a - ph.firstPage loadBase).toNat else k.byte a

/-- The address space when a segment has been mapped. -/
def mapSegment (k : Space) (loadBase : U64) (ph : ProgramHeader) : Space :=
  k.mapAnonymous (ph.firstPage loadBase) (ofNat 64 (ph.pages ph.memSize) * pageSize)
    (PAGE_PRESENT ||| PAGE_USER ||| PAGE_WRITABLE)

/-- A segment is loaded exactly if its pages are, and `total_read_from_file` is then its size in
    the file. -/
theorem loadSegment_ok_iff {l l' : Loading} : loadSegment file loadBase ph l = .ok l' ↔
    (List.range (ph.pages ph.memSize)).foldlM
      (loadPage file ph (ph.base loadBase) (ph.pages ph.fileSize))
      ({ l with space := mapSegment l.space loadBase ph }, 0#64) = .ok (l', ph.fileSize) := by
  unfold loadSegment mapSegment pages firstPage base
  simp only [ofNat_toNat, BitVec.setWidth_eq]
  rw [bind_ok_iff]
  constructor
  · rintro ⟨⟨l1, total⟩, hpages, h⟩
    simp only at h
    split_ifs at h with htotal
    obtain rfl := Except.ok.inj h
    rw [hpages, htotal]
  · intro hpages
    refine ⟨_, hpages, ?_⟩
    simp only
    rw [if_true]
    rfl

theorem pages_lt (ph : ProgramHeader) (size : U64) : ph.pages size * 4096 < 2 ^ 64 := by
  have hp : (pageSize : U64).toNat = 4096 := rfl
  unfold pages
  rw [BitVec.toNat_udiv, hp]
  have := (size + (ph.virtAddr &&& 0xfff#64) + pageSize - 1#64).isLt
  omega

theorem inPages_iff {a : U64} : a - ph.firstPage loadBase <
    ofNat 64 (ph.pages ph.memSize) * pageSize ↔ ph.InPages loadBase a := by
  rw [page_offset, lt_def, toNat_ofNat, Nat.mod_eq_of_lt (pages_lt _ _)]
  rfl

/-- Pages in the lower half do not wrap around. -/
theorem pages_low (hlow : ∀ a, ph.InPages loadBase a → a < userEnd)
    (hpos : 0 < ph.pages ph.memSize) :
    (ph.firstPage loadBase).toNat + ph.pages ph.memSize * 4096 ≤ 2 ^ 47 := by
  have hat : ∀ j < ph.pages ph.memSize * 4096, j < 2 ^ 64 →
      ((ph.firstPage loadBase).toNat + j) % 2 ^ 64 < 2 ^ 47 := by
    intro j hj hlt
    have hin : ph.InPages loadBase (ph.firstPage loadBase + ofNat 64 j) := by
      unfold InPages
      rw [add_sub_cancel_left, toNat_ofNat, Nat.mod_eq_of_lt hlt]
      exact hj
    have := lt_def.mp (hlow _ hin)
    rw [toNat_add, toNat_ofNat, Nat.add_mod_mod] at this
    exact this
  have hfirst := hat 0 (by omega) (by omega)
  have := (ph.firstPage loadBase).isLt
  by_contra hbeyond
  have := hat (2 ^ 47 - (ph.firstPage loadBase).toNat) (by omega) (by omega)
  omega

theorem loadSegment_mapped {l l' : Loading} (h : loadSegment file loadBase ph l = .ok l') :
    (∀ a, ph.InPages loadBase a → (l'.space.flags a).isSome ∧ a < userEnd) ∧
      (∀ a, ¬ph.InPages loadBase a → l'.space.flags a = l.space.flags a) ∧
      l'.space.ranges = (mapSegment l.space loadBase ph).ranges := by
  have hrun := loadSegment_ok_iff.mp h
  have hlow := foldlM_range_ok (R := fun i s =>
    s.1.space.flags = (mapSegment l.space loadBase ph).flags ∧
      s.1.space.ranges = (mapSegment l.space loadBase ph).ranges ∧
      ∀ j < i * 4096, ph.firstPage loadBase + ofNat 64 j < userEnd)
    ⟨rfl, rfl, by omega⟩ ?_ hrun
  · obtain ⟨hflags, hranges, hlow⟩ := hlow
    have hat : ∀ a, l'.space.flags a = if ph.InPages loadBase a then
        some (PAGE_PRESENT ||| PAGE_USER ||| PAGE_WRITABLE) else l.space.flags a := by
      intro a
      rw [show l'.space.flags a = _ from congrFun hflags a]
      unfold mapSegment
      rw [Space.mapAnonymous_flags]
      simp only [inPages_iff]
    refine ⟨?_, ?_, hranges⟩
    · intro a ha
      refine ⟨by rw [hat, if_pos ha]; rfl, ?_⟩
      have := hlow _ ha
      rwa [ofNat_toNat, BitVec.setWidth_eq, add_sub_cancel] at this
    · intro a ha
      rw [hat, if_neg ha]
  · rintro i s s' hi ⟨hflags, hranges, hlow⟩ hstep
    obtain ⟨hsame, hsame', hpage⟩ := loadPage_low hstep
    refine ⟨hsame.trans hflags, hsame'.trans hranges, ?_⟩
    intro j hj
    by_cases hold : j < i * 4096
    · exact hlow j hold
    · have := hpage (j - i * 4096) (by omega)
      rwa [Nat.add_sub_cancel' (Nat.le_of_not_lt hold)] at this

theorem loadSegment_inOrder {l l' : Loading} (hranges : l.space.InOrder)
    (h : loadSegment file loadBase ph l = .ok l') : l'.space.InOrder := by
  obtain ⟨hmapped, -, hsame⟩ := loadSegment_mapped h
  have hwindow : (ph.firstPage loadBase).toNat +
      (ofNat 64 (ph.pages ph.memSize) * pageSize : U64).toNat < 2 ^ 64 := by
    have hlt := (ph.firstPage loadBase).isLt
    have hsize : (ofNat 64 (ph.pages ph.memSize) * pageSize : U64).toNat ≤
        ph.pages ph.memSize * 4096 := by
      rw [page_offset, toNat_ofNat]
      exact Nat.mod_le _ _
    by_cases hpos : 0 < ph.pages ph.memSize
    · have := pages_low (fun a ha => (hmapped a ha).2) hpos
      omega
    · omega
  intro r hr
  rw [hsame] at hr
  exact hranges.mapAnonymous hwindow r hr

/-- The pages of a segment are what the file says, wherever it can be loaded. -/
theorem loadSegment_space {l l' : Loading} (hranges : l.space.InOrder)
    (hfile : file.nodeType ≠ .directory) (hlen : (contents file).length < 2 ^ 64) (hwell : ph.WellFormed file) (hfits : ph.Fits)
    (h : loadSegment file loadBase ph l = .ok l') :
    SegmentLoaded file loadBase ph l.space l'.space := by
  obtain ⟨hmapped, hflags, -⟩ := loadSegment_mapped h
  have hrun := loadSegment_ok_iff.mp h
  have hdone := foldlM_range_ok (PagesDone file loadBase ph
    (mapSegment l.space loadBase ph)) ⟨by omega, fun _ _ => rfl, by simp⟩
    (fun i s s' hi hdone hstep => hdone.step hfile hlen hwell hfits hi hstep) hrun
  refine ⟨hmapped, hflags, ?_⟩
  intro a
  by_cases ha : ph.InPages loadBase a
  · rw [if_pos ha, ← hdone.bytes _ ha, ofNat_toNat, BitVec.setWidth_eq, add_sub_cancel]
  · rw [if_neg ha, show l'.space.byte a = _ from hdone.frame a (Nat.le_of_not_lt ha)]
    exact Space.mapAnonymous_byte_outside hranges (by rwa [inPages_iff])

end Segment

/-! ## All segments -/

section Table

variable {file : VNode} {loadBase : U64} {heap : List CChar} {wantsLdPath : Bool} {l l' : Loading}

/-- What the segments leave at an address, one after the other. -/
def lastByte (file : VNode) (loadBase a : U64) (b : CChar) (segs : List ProgramHeader) : CChar :=
  segs.foldl (fun b ph => if ph.InPages loadBase a then
    ph.imageByte file (a - ph.firstPage loadBase).toNat else b) b

/-- The end of the program after a segment. -/
def segmentEnd (loadBase : U64) (end_ : U64) (ph : ProgramHeader) : U64 :=
  (List.range (ph.pages ph.memSize)).foldl (pageEnd (ph.base loadBase)) end_

/-- Where a program ends, by the table of its program headers. -/
def tableEnd (file : VNode) (loadBase end_ : U64) : U64 :=
  alignUp ((segments file).foldl (segmentEnd (imageBase file loadBase)) end_) pageSize

/-- The later of two segments does not lose bytes of the earlier one. -/
def Spares (file : VNode) (loadBase : U64) (s t : ProgramHeader) : Prop :=
  ∀ j < s.fileSize.toNat, t.InPages loadBase (s.base loadBase + ofNat 64 j) →
    (contents file).getD (s.offset.toNat + j) 0#8 = 0#8

/-- What a segment ought to leave at its `j`-th byte. -/
def segmentByte (file : VNode) (ph : ProgramHeader) (j : ℕ) : CChar :=
  if j < ph.fileSize.toNat then (contents file).getD (ph.offset.toNat + j) 0#8 else 0#8

theorem inPages_of_lt {ph : ProgramHeader} (hbase : PageAligned loadBase) (hfits : ph.Fits) {j : ℕ}
    (hj : j < ph.memSize.toNat) :
    (ph.base loadBase + ofNat 64 j - ph.firstPage loadBase).toNat = ph.misalign + j ∧
      ph.InPages loadBase (ph.base loadBase + ofNat 64 j) := by
  have hpages := pages_eq _ _ hfits
  unfold Fits at hfits
  have hat : (ph.base loadBase + ofNat 64 j - ph.firstPage loadBase).toNat =
      ph.misalign + j := by
    rw [base_eq hbase, BitVec.add_assoc, ← ofNat_add, add_sub_cancel_left,
      toNat_ofNat, Nat.mod_eq_of_lt (by omega)]
  refine ⟨hat, ?_⟩
  unfold InPages
  rw [hat, hpages]
  omega

theorem imageByte_at {ph : ProgramHeader} (j : ℕ) :
    ph.imageByte file (ph.misalign + j) = segmentByte file ph j := by
  unfold imageByte segmentByte
  rw [Nat.add_sub_cancel_left]
  by_cases hj : j < ph.fileSize.toNat
  · rw [if_pos (by omega), if_pos hj]
  · rw [if_neg (by omega), if_neg hj]

/-- On its pages a segment has zeros wherever it has no bytes. -/
theorem imageByte_of_apart {s t : ProgramHeader} (hbase : PageAligned loadBase)
    (hwell : t.WellFormed file) (happart : s.Apart loadBase t) {j : ℕ}
    (hj : j < s.memSize.toNat) :
    t.imageByte file (s.base loadBase + ofNat 64 j - t.firstPage loadBase).toNat = 0#8 := by
  have hsize := le_def.mp hwell.size
  unfold imageByte
  rw [if_neg]
  rintro ⟨hlow, hhigh⟩
  apply happart j hj
    ((s.base loadBase + ofNat 64 j - t.firstPage loadBase).toNat - t.misalign) (by omega)
  rw [base_eq hbase t, BitVec.add_assoc, ← ofNat_add, Nat.add_sub_cancel' hlow,
    ofNat_toNat, BitVec.setWidth_eq, add_sub_cancel]

/-- Later segments leave a byte, or clear it. -/
theorem lastByte_eq {a : U64} {segs : List ProgramHeader}
    (hzero : ∀ t ∈ segs, t.InPages loadBase a →
      t.imageByte file (a - t.firstPage loadBase).toNat = 0#8) (b : CChar) :
    lastByte file loadBase a b segs = if ∃ t ∈ segs, t.InPages loadBase a then 0#8 else b := by
  induction segs generalizing b with
  | nil => simp [lastByte]
  | cons t segs ih =>
    show lastByte file loadBase a (if t.InPages loadBase a then _ else b) segs = _
    rw [ih (fun u hu => hzero u (List.mem_cons_of_mem _ hu))]
    by_cases hlater : ∃ u ∈ segs, u.InPages loadBase a
    · rw [if_pos hlater, if_pos (by obtain ⟨u, hu, ha⟩ := hlater; exact ⟨u, .tail _ hu, ha⟩)]
    · rw [if_neg hlater]
      by_cases ht : t.InPages loadBase a
      · rw [if_pos ht, if_pos ⟨t, List.mem_cons_self, ht⟩, hzero t List.mem_cons_self ht]
      · rw [if_neg ht, if_neg]
        rintro ⟨u, hu, ha⟩
        rcases List.mem_cons.mp hu with rfl | hu
        · exact ht ha
        · exact hlater ⟨u, hu, ha⟩

/-- Segments that are apart all keep their bytes exactly if none loses some to a later one. -/
theorem bytes_law_iff (hbase : PageAligned loadBase) {segs : List ProgramHeader}
    (hwell : ∀ ph ∈ segs, ph.WellFormed file) (hfits : ∀ ph ∈ segs, ph.Fits)
    (happart : segs.Pairwise (Apart loadBase)) (b : U64 → CChar) :
    (∀ ph ∈ segs, ∀ j < ph.memSize.toNat,
      lastByte file loadBase (ph.base loadBase + ofNat 64 j)
        (b (ph.base loadBase + ofNat 64 j)) segs = segmentByte file ph j) ↔
      segs.Pairwise (Spares file loadBase) := by
  induction segs generalizing b with
  | nil => simp
  | cons s segs ih =>
    have hrest := List.pairwise_cons.mp happart
    have hs : ∀ j < s.memSize.toNat,
        lastByte file loadBase (s.base loadBase + ofNat 64 j)
          (b (s.base loadBase + ofNat 64 j)) (s :: segs) =
        if ∃ t ∈ segs, t.InPages loadBase (s.base loadBase + ofNat 64 j) then 0#8
        else segmentByte file s j := by
      intro j hj
      obtain ⟨hat, hin⟩ := inPages_of_lt hbase (hfits s List.mem_cons_self) hj
      show lastByte file loadBase _ (if s.InPages loadBase _ then _ else _) segs = _
      rw [if_pos hin, hat, imageByte_at, lastByte_eq]
      intro t ht _
      exact imageByte_of_apart hbase (hwell t (List.mem_cons_of_mem _ ht)) (hrest.1 t ht) hj
    have htail := ih (fun ph hph => hwell ph (List.mem_cons_of_mem _ hph))
      (fun ph hph => hfits ph (List.mem_cons_of_mem _ hph)) hrest.2
      (fun a => if s.InPages loadBase a then s.imageByte file (a - s.firstPage loadBase).toNat
        else b a)
    rw [List.pairwise_cons, ← htail, List.forall_mem_cons]
    refine and_congr ?_ Iff.rfl
    have hsize := le_def.mp (hwell s List.mem_cons_self).size
    constructor
    · intro hlaw t ht j hj hin
      have := hlaw j (by omega)
      rw [hs j (by omega), if_pos ⟨t, ht, hin⟩] at this
      rw [segmentByte, if_pos hj] at this
      exact this.symm
    · intro hspares j hj
      rw [hs j hj]
      split_ifs with hlater
      · obtain ⟨t, ht, hin⟩ := hlater
        unfold segmentByte
        split_ifs with hfile
        · exact (hspares t ht j hfile hin).symm
        · rfl
      · rfl

/-! ## The run over the table -/

theorem loadProgramHeader_cases {header : Header} {i : ℕ} {s s' : Loading × U64}
    (h : loadProgramHeader file loadBase heap wantsLdPath header s i = .ok s') :
    ((readProgramHeader file header i).type = PT_LOAD ∧
      loadSegment file loadBase (readProgramHeader file header i) s.1 = .ok s'.1) ∨
    ((readProgramHeader file header i).type ≠ PT_LOAD ∧ s'.1.space = s.1.space ∧
      s'.1.firstFreeVirt = s.1.firstFreeVirt) := by
  unfold loadProgramHeader at h
  simp only at h
  by_cases hload : (readProgramHeader file header i).type = PT_LOAD
  · rw [if_pos hload] at h
    obtain ⟨l1, hsegment, rfl⟩ := bind_pure_ok h
    exact .inl ⟨hload, hsegment⟩
  · rw [if_neg hload] at h
    refine .inr ⟨hload, ?_⟩
    split_ifs at h
    · obtain rfl := Except.ok.inj h
      exact ⟨rfl, rfl⟩
    · obtain ⟨path, -, rfl⟩ := bind_pure_ok h
      exact ⟨rfl, rfl⟩
    · obtain rfl := Except.ok.inj h
      exact ⟨rfl, rfl⟩

/-- The rule for the run over the table: `R` holds of the segments loaded so far, the address space
    and the end of the program. -/
theorem load_segments {R : List ProgramHeader → Space → U64 → Prop}
    (hR : R [] l.space l.firstFreeVirt)
    (hstep : ∀ pre ph l1 l2, ph ∈ segments file → R pre l1.space l1.firstFreeVirt →
      loadSegment file (imageBase file loadBase) ph l1 = .ok l2 →
      R (pre ++ [ph]) l2.space l2.firstFreeVirt)
    (h : load file loadBase heap wantsLdPath l = .ok (.ok l')) :
    ∃ end_, R (segments file) l'.space end_ ∧ l'.firstFreeVirt = alignUp end_ pageSize := by
  have haccepted := load_accepted h
  unfold load at h
  simp only at h
  rw [if_neg (by simpa using haccepted)] at h
  obtain ⟨⟨l1, fileVirtBase⟩, hheaders, h⟩ := bind_ok h
  obtain rfl := Except.ok.inj (Except.ok.inj h)
  refine ⟨l1.firstFreeVirt, ?_, rfl⟩
  refine foldlM_range_ok (R := fun i (s : Loading × U64) => R (((List.range i).map
    (readProgramHeader file (readHeader file))).filter fun ph => ph.type = PT_LOAD)
      s.1.space s.1.firstFreeVirt) ?_ ?_ hheaders
  · exact hR
  · intro i s s' hi hs hrun
    rw [List.range_succ, List.map_append, List.filter_append]
    rcases loadProgramHeader_cases hrun with ⟨hload, hsegment⟩ | ⟨hload, hspace, hend⟩
    · have hone : ([i].map (readProgramHeader file (readHeader file))).filter
          (fun ph => ph.type = PT_LOAD) = [readProgramHeader file (readHeader file) i] := by
        simp [hload]
      rw [hone]
      refine hstep _ _ _ _ ?_ hs hsegment
      exact List.mem_filter.mpr ⟨List.mem_map_of_mem (List.mem_range.mpr hi), by simpa using hload⟩
    · have hnone : ([i].map (readProgramHeader file (readHeader file))).filter
          (fun ph => ph.type = PT_LOAD) = [] := by simp [hload]
      rw [hnone, List.append_nil, hspace, hend]
      exact hs

/-- What a process has loaded lies in the lower half. -/
structure Loading.InLowerHalf (l : Loading) : Prop where
  mapped : ∀ a, (l.space.flags a).isSome → a < userEnd
  inOrder : l.space.InOrder
  end_ : l.firstFreeVirt.toNat ≤ 0x800000001000

/-- The bytes that a successful load leaves. -/
theorem load_bytes (hranges : l.space.InOrder) (hfile : file.nodeType ≠ .directory)
    (hlen : (contents file).length < 2 ^ 64)
    (hwell : ∀ ph ∈ segments file, ph.WellFormed file) (hfits : ∀ ph ∈ segments file, ph.Fits)
    (h : load file loadBase heap wantsLdPath l = .ok (.ok l')) (a : U64) :
    l'.space.byte a =
      lastByte file (imageBase file loadBase) a (l.space.byte a) (segments file) := by
  have hrun := load_segments (R := fun pre k _ => k.InOrder ∧ ∀ a,
    k.byte a = lastByte file (imageBase file loadBase) a (l.space.byte a) pre)
    ⟨hranges, fun _ => rfl⟩ ?_ h
  · obtain ⟨-, ⟨-, hbytes⟩, -⟩ := hrun
    exact hbytes a
  · rintro pre ph l1 l2 hph ⟨hranges, hpre⟩ hsegment
    refine ⟨loadSegment_inOrder hranges hsegment, fun a => ?_⟩
    have hloaded := loadSegment_space hranges hfile hlen (hwell ph hph) (hfits ph hph) hsegment
    rw [hloaded.byte, hpre]
    unfold lastByte
    rw [List.foldl_append]
    rfl

theorem load_mapped (hlower : l.InLowerHalf)
    (h : load file loadBase heap wantsLdPath l = .ok (.ok l')) :
    (∀ a, (l'.space.flags a).isSome → a < userEnd) ∧
      ∀ ph ∈ segments file, ∀ a, ph.InPages (imageBase file loadBase) a →
        (l'.space.flags a).isSome := by
  have hrun := load_segments (R := fun pre k _ =>
    (∀ a, (k.flags a).isSome → a < userEnd) ∧ ∀ ph ∈ pre, ∀ a,
      ph.InPages (imageBase file loadBase) a → (k.flags a).isSome)
    ⟨hlower.mapped, by simp⟩ ?_ h
  · obtain ⟨-, hmapped, -⟩ := hrun
    exact hmapped
  · rintro pre ph l1 l2 - ⟨hlow, hpre⟩ hsegment
    obtain ⟨hin, hout, -⟩ := loadSegment_mapped hsegment
    constructor
    · intro a ha
      by_cases hpage : ph.InPages (imageBase file loadBase) a
      · exact (hin a hpage).2
      · rw [hout a hpage] at ha
        exact hlow a ha
    · intro q hq a ha
      by_cases hpage : ph.InPages (imageBase file loadBase) a
      · exact (hin a hpage).1
      · rw [hout a hpage]
        rcases List.mem_append.mp hq with hq | hq
        · exact hpre q hq a ha
        · obtain rfl := List.mem_singleton.mp hq
          exact absurd ha hpage

theorem load_end (h : load file loadBase heap wantsLdPath l = .ok (.ok l')) :
    l'.firstFreeVirt = tableEnd file loadBase l.firstFreeVirt := by
  have hrun := load_segments (R := fun pre _ end_ =>
    end_ = pre.foldl (segmentEnd (imageBase file loadBase)) l.firstFreeVirt) rfl ?_ h
  · obtain ⟨end_, hend, hfirst⟩ := hrun
    rw [hfirst, hend]
    rfl
  · intro pre ph l1 l2 _ hpre hsegment
    rw [List.foldl_append, ← hpre]
    exact loadSegment_firstFreeVirt hsegment

/-! ## The end of the program -/

theorem pageEnd_foldl (base : U64) {end_ : U64} {n : ℕ} (hend : end_.toNat ≤ 0x800000001000)
    (hn : base.toNat + n * 4096 ≤ 0x800000001000) :
    end_.toNat ≤ ((List.range n).foldl (pageEnd base) end_).toNat ∧
      ((List.range n).foldl (pageEnd base) end_).toNat ≤ 0x800000001000 ∧
      ∀ i < n, base.toNat + i * 4096 < ((List.range n).foldl (pageEnd base) end_).toNat := by
  induction n with
  | zero => exact ⟨Nat.le_refl _, hend, by simp⟩
  | succ n ih =>
    have hle : n * 4096 ≤ (n + 1) * 4096 := Nat.mul_le_mul_right _ (Nat.le_succ n)
    obtain ⟨hup, hbound, hpages⟩ := ih ((Nat.add_le_add_left hle _).trans hn)
    rw [List.range_succ, List.foldl_append, List.foldl_cons, List.foldl_nil]
    generalize (List.range n).foldl (pageEnd base) end_ = e at *
    have hp : (pageSize : U64).toNat = 4096 := rfl
    have hpage : (base + ofNat 64 n * pageSize).toNat = base.toNat + n * 4096 := by
      rw [page_offset, toNat_add, toNat_ofNat]
      omega
    have hnext : (base + ofNat 64 n * pageSize + pageSize).toNat =
        base.toNat + n * 4096 + 4096 := by
      rw [toNat_add, hpage, hp]
      omega
    unfold pageEnd
    simp only
    split_ifs with hle
    · rw [le_def, hpage] at hle
      rw [hnext]
      refine ⟨by omega, by omega, ?_⟩
      intro i hi
      have : i * 4096 ≤ n * 4096 := Nat.mul_le_mul_right _ (by omega)
      omega
    · rw [BitVec.not_le, lt_def, hpage] at hle
      refine ⟨hup, hbound, ?_⟩
      intro i hi
      by_cases hlast : i = n
      · rw [hlast]
        exact hle
      · exact hpages i (by omega)

/-- The end is behind the first byte of the last page of every segment. -/
theorem segmentEnd_foldl {end_ : U64} (hend : end_.toNat ≤ 0x800000001000)
    (hbase : PageAligned loadBase) : ∀ {segs : List ProgramHeader},
    (∀ ph ∈ segs, ∀ a, ph.InPages loadBase a → a < userEnd) →
      end_.toNat ≤ (segs.foldl (segmentEnd loadBase) end_).toNat ∧
      (segs.foldl (segmentEnd loadBase) end_).toNat ≤ 0x800000001000 ∧
      ∀ ph ∈ segs, ∀ i < ph.pages ph.memSize,
        (ph.firstPage loadBase).toNat + i * 4096 <
          (segs.foldl (segmentEnd loadBase) end_).toNat := by
  intro segs
  induction segs generalizing end_ with
  | nil => exact fun _ => ⟨Nat.le_refl _, hend, by simp⟩
  | cons s segs ih =>
    intro hlow
    have hone : end_.toNat ≤ (segmentEnd loadBase end_ s).toNat ∧
        (segmentEnd loadBase end_ s).toNat ≤ 0x800000001000 ∧
        ∀ i < s.pages s.memSize,
          (s.firstPage loadBase).toNat + i * 4096 < (segmentEnd loadBase end_ s).toNat := by
      by_cases hpos : 0 < s.pages s.memSize
      · have hpages := pages_low (hlow s List.mem_cons_self) hpos
        have hmis := misalign_lt s
        have hat : (s.base loadBase).toNat = (s.firstPage loadBase).toNat + s.misalign := by
          rw [base_eq hbase, toNat_add, toNat_ofNat]
          omega
        obtain ⟨hup, hbound, hlast⟩ := pageEnd_foldl (s.base loadBase) hend
          (n := s.pages s.memSize) (by omega)
        refine ⟨hup, hbound, fun i hi => ?_⟩
        have := hlast i hi
        unfold segmentEnd
        omega
      · have hnone : s.pages s.memSize = 0 := by omega
        unfold segmentEnd
        rw [hnone]
        exact ⟨Nat.le_refl _, hend, by simp⟩
    obtain ⟨hup, hbound, hrest⟩ := ih hone.2.1 (fun ph hph => hlow ph (List.mem_cons_of_mem _ hph))
    rw [List.foldl_cons]
    refine ⟨hone.1.trans hup, hbound, ?_⟩
    intro ph hph i hi
    rcases List.mem_cons.mp hph with rfl | hph
    · exact (hone.2.2 i hi).trans_le hup
    · exact hrest ph hph i hi

end Table

/-! ## The law -/

section Law

variable {file : VNode} {loadBase : U64} {heap : List CChar} {wantsLdPath : Bool} {l l' : Loading}

/-- A segment without bytes at a page boundary: it has no pages. -/
def ProgramHeader.Blank (ph : ProgramHeader) : Prop := ph.memSize = 0#64 ∧ ph.misalign = 0

instance (ph : ProgramHeader) : Decidable ph.Blank := inferInstanceAs (Decidable (_ ∧ _))

/-- Where the segments that have pages end. -/
def pagesEnd (file : VNode) (loadBase end_ : U64) : U64 :=
  alignUp (((segments file).filter fun ph => ¬ph.Blank).foldl
    (segmentEnd (imageBase file loadBase)) end_) pageSize

theorem segmentEnd_blank {ph : ProgramHeader} (h : ph.Blank) (loadBase end_ : U64) :
    segmentEnd loadBase end_ ph = end_ := by
  have hpages := pages_eq ph ph.memSize
    (by rw [h.1, h.2]; exact (by decide : (0#64).toNat + 0 + 4095 < 2 ^ 64))
  have hzero : ph.pages ph.memSize = 0 := by
    rw [hpages, h.1, h.2]
    rfl
  unfold segmentEnd
  rw [hzero]
  rfl

theorem tableEnd_eq (file : VNode) (loadBase end_ : U64) :
    tableEnd file loadBase end_ = pagesEnd file loadBase end_ := by
  unfold tableEnd pagesEnd
  congr 1
  induction segments file generalizing end_ with
  | nil => rfl
  | cons ph segs ih =>
    by_cases hblank : ph.Blank
    · rw [List.filter_cons_of_neg (by simpa using hblank), List.foldl_cons,
        segmentEnd_blank hblank]
      exact ih end_
    · rw [List.filter_cons_of_pos (by simpa using hblank), List.foldl_cons, List.foldl_cons]
      exact ih _

/-- The image in memory is that of the file. -/
structure ImageLaw (file : VNode) (loadBase : U64) (l : Loading) : Prop where
  byte : ∀ ph ∈ segments file, ∀ j < ph.memSize.toNat,
    (l.space.flags (ph.base (imageBase file loadBase) + ofNat 64 j)).isSome ∧
      l.space.byte (ph.base (imageBase file loadBase) + ofNat 64 j) = segmentByte file ph j
  aligned : PageAligned l.firstFreeVirt
  end_ : ∀ ph ∈ segments file,
    (ph.base (imageBase file loadBase)).toNat + ph.memSize.toNat ≤ l.firstFreeVirt.toNat

/-- No size overflows, no segment has to give up bytes to a later one, and none that has no pages
    lies above those that have. -/
structure LoadsWhole (file : VNode) (loadBase end_ : U64) : Prop where
  fits : ∀ ph ∈ segments file, ph.Fits
  spares : (segments file).Pairwise (Spares file (imageBase file loadBase))
  blank : ∀ ph ∈ segments file, ph.Blank →
    ph.base (imageBase file loadBase) ≤ pagesEnd file loadBase end_

theorem imageBase_aligned (file : VNode) (hbase : PageAligned loadBase) :
    PageAligned (imageBase file loadBase) := by
  unfold imageBase
  split_ifs
  · rfl
  · exact hbase

/-- A segment that is mapped as a whole does not overflow. -/
theorem fits_of_mapped {ph : ProgramHeader}
    (hlow : ∀ j < ph.memSize.toNat, ph.base loadBase + ofNat 64 j < userEnd) : ph.Fits := by
  have hmis := misalign_lt ph
  have hlt := (ph.base loadBase).isLt
  unfold Fits
  by_contra hbeyond
  have hat : ∀ j < ph.memSize.toNat, ((ph.base loadBase).toNat + j) % 2 ^ 64 < 2 ^ 47 := by
    intro j hj
    have := lt_def.mp (hlow j hj)
    rw [toNat_add, toNat_ofNat, Nat.add_mod_mod] at this
    exact this
  have hfirst := hat 0 (by omega)
  have hlast := hat (2 ^ 47 - (ph.base loadBase).toNat) (by omega)
  omega

theorem end_of_pages {ph : ProgramHeader} {end_ : U64} (hbase : PageAligned loadBase)
    (hfits : ph.Fits) (hblank : ¬ph.Blank) (hlow : ∀ a, ph.InPages loadBase a → a < userEnd)
    (hbound : end_.toNat ≤ 0x800000001000)
    (hend : ∀ i < ph.pages ph.memSize, (ph.firstPage loadBase).toNat + i * 4096 < end_.toNat) :
    (ph.base loadBase).toNat + ph.memSize.toNat ≤ (alignUp end_ pageSize).toNat := by
  have hpages := pages_eq _ _ hfits
  have hmis := misalign_lt ph
  have hpos : 0 < ph.pages ph.memSize := by
    rw [hpages]
    by_contra hnone
    refine hblank ⟨BitVec.eq_of_toNat_eq ?_, by omega⟩
    show ph.memSize.toNat = 0
    omega
  have hbelow := pages_low hlow hpos
  have hat : (ph.base loadBase).toNat = (ph.firstPage loadBase).toNat + ph.misalign := by
    rw [base_eq hbase, toNat_add, toNat_ofNat]
    omega
  have hdown : (ph.firstPage loadBase).toNat % 4096 = 0 := by
    unfold firstPage
    rw [toNat_alignDown]
    omega
  have hlast := hend (ph.pages ph.memSize - 1) (by omega)
  rw [toNat_alignUp]
  omega

end Law

/-! ## Two programs -/

instance (file : VNode) (ph : ProgramHeader) : Decidable (ph.WellFormed file) :=
  decidable_of_iff (ph.fileSize ≤ ph.memSize ∧
      ph.offset.toNat + ph.fileSize.toNat ≤ (contents file).length)
    ⟨fun h => ⟨h.1, h.2⟩, fun h => ⟨h.size, h.inFile⟩⟩

instance (loadBase : U64) : DecidableRel (Apart loadBase) := fun _ _ =>
  inferInstanceAs (Decidable (∀ i < _, ∀ j < _, _))

instance (file : VNode) (loadBase : U64) : DecidableRel (Spares file loadBase) := fun _ _ =>
  inferInstanceAs (Decidable (∀ i < _, _ → _))

/-- An executable with a table of segments: the offset, the address, the size in the file and the
    size in memory of each. -/
def executable (table : List (ℕ × ℕ × ℕ × ℕ)) (rest : List CChar) : VNode where
  nodeType := .regular
  data := some <| 0x7f#8 :: chars "ELF" ++ [2#8, 1#8, 1#8, 0#8] ++ field 8 0 ++ field 2 ET_EXEC ++
    field 2 62 ++ field 4 1 ++ field 8 0 ++ field 8 64 ++ field 8 0 ++ field 4 0 ++ field 2 64 ++
    field 2 56 ++ field 2 table.length ++ field 6 0 ++
    (table.flatMap fun (offset, virtAddr, fileSize, memSize) =>
      field 4 PT_LOAD ++ field 4 0 ++ field 8 offset ++ field 8 virtAddr ++ field 8 0 ++
        field 8 fileSize ++ field 8 memSize ++ field 8 4096) ++ rest

/-- An empty address space. -/
theorem inLowerHalf_empty : Loading.InLowerHalf {} :=
  ⟨fun _ h => Bool.noConfusion h, fun _ h => absurd h List.not_mem_nil, by decide⟩

end Fishix.Userland
