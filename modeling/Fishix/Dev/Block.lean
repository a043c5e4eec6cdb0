import Fishix.Common.Outcome
import Fishix.Common.Word

/-!
# Block devices

Model of `BlockInterface::read_write` and `read_write_blocks` (dev/block.cpp:9-87), which
`BlockDevNode::read` and `write` call (dev/devnode.cpp:51-57). `read_write_block` moves a block
between the disk and a page. A transfer has three parts: up to the first page boundary of the
buffer and behind the last one through a page of the kernel, and between them page by page.

The first part is there if the buffer is not aligned, whatever the offset is, and the copies begin
at the beginning of a block, wherever the offset is in it. The page of the kernel is written to the
disk as it is.

* `load_store`, `load_copyToUser`: the memory that a buffer is in.
* `readWrite_total`: without errors the transfer returns, and its assertions hold.
* `readWrite_read`, `readWrite_write`: where the bytes of the buffer and of the disk come from.
* `byteAccurate_iff`: the transfers that are right for all contents.
-/

namespace Fishix.Dev.Block

open BitVec (ofNat toNat_ofNat toNat_add le_def toNat_sub)

abbrev U8 := BitVec 8

/-- `Direction` (klib/common.hpp:27-29). -/
inductive Direction
  | read
  | write
  deriving DecidableEq

/-- The bytes of a page. -/
abbrev Page := ℕ → U8

/-- The disk, byte by byte, and the page frames. -/
structure Machine where
  disk : ℕ → U8
  frames : ℕ → Page

/-- What a transfer meets: the pagemap, in which every page has a frame of its own, the errors that
    `get_physical_addr` and `read_write_block` return, and what is in the pages that `alloc_page`
    returns for the beginning and for the end. -/
structure Env where
  frame : U64 → ℕ
  frame_injective : Function.Injective frame
  addrError : U64 → Option ℤ
  blockError : U64 → Direction → Option ℤ
  firstPage : Page
  lastPage : Page

inductive Stop
  | errno (e : ℤ)
  | assertion

namespace Env

variable (env : Env) (s : Machine)

/-- The byte at `virt`. -/
def load (virt : U64) : U8 := s.frames (env.frame (virt / pageSize)) (virt % pageSize).toNat

/-- The byte at `virt` becomes `byte`. -/
def store (virt : U64) (byte : U8) : Machine :=
  let phy := env.frame (virt / pageSize)
  let page := Function.update (s.frames phy) (virt % pageSize).toNat byte
  { s with frames := Function.update s.frames phy page }

/-- `memcpy` of the first bytes of a page to `virt`. -/
def copyToUser (virt : U64) (page : Page) (size : ℕ) : Machine :=
  (List.range size).foldl (fun s k => env.store s (virt + ofNat 64 k) (page k)) s

/-- `memcpy` from `virt` to the first bytes of a page. -/
def copyFromUser (page : Page) (virt : U64) (size : ℕ) : Page := fun k =>
  if k < size then env.load s (virt + ofNat 64 k) else page k

/-- `Pagemap::get_physical_addr`. -/
def getPhysicalAddr (virt : U64) : Except Stop ℕ :=
  match env.addrError virt with
  | some e => .error (.errno e)
  | none => .ok (env.frame (virt / pageSize))

end Env

/-- A block of the disk. -/
def readBlock (disk : ℕ → U8) (block : U64) : Page := fun k => disk (block.toNat * 4096 + k)

/-- The disk after a page has been written to a block. -/
def writeBlock (disk : ℕ → U8) (block : U64) (page : Page) : ℕ → U8 := fun a =>
  if a / 4096 = block.toNat then page (a % 4096) else disk a

/-- The disk and the page after one of them has been moved to the other. -/
def transfer (disk : ℕ → U8) (block : U64) (page : Page) : Direction → (ℕ → U8) × Page
  | .read => (disk, readBlock disk block)
  | .write => (writeBlock disk block page, page)

/-- `read_write_block`: the disk and the page after it. -/
def Env.readWriteBlock (env : Env) (disk : ℕ → U8) (block : U64) (page : Page) (d : Direction) :
    Except Stop ((ℕ → U8) × Page) :=
  match env.blockError block d with
  | some e => .error (.errno e)
  | none => .ok (transfer disk block page d)

/-- A turn of the loop of `read_write_blocks`. -/
def readWriteNext (env : Env) (buffer firstBlock : U64) (d : Direction) (s : Machine) (i : ℕ) :
    Except Stop Machine := do
  let phy ← env.getPhysicalAddr (buffer + ofNat 64 i * pageSize)
  let (disk, page) ← env.readWriteBlock s.disk (firstBlock + ofNat 64 i) (s.frames phy) d
  return { disk := disk, frames := Function.update s.frames phy page }

/-- `BlockInterface::read_write_blocks` (dev/block.cpp:9-19). -/
def readWriteBlocks (env : Env) (s : Machine) (buffer : U64) (blockCount : ℕ) (firstBlock : U64)
    (d : Direction) : Except Stop Machine :=
  (List.range blockCount).foldlM (readWriteNext env buffer firstBlock d) s

/-- What `read_write` keeps of a transfer. -/
structure Progress where
  machine : Machine
  bufVirt : U64
  count : U64
  offset : U64
  doneCount : U64 := 0#64

/-- `size` bytes are done. -/
def Progress.advance (p : Progress) (machine : Machine) (size : U64) : Progress where
  machine := machine
  bufVirt := p.bufVirt + size
  count := p.count - size
  offset := p.offset + size
  doneCount := p.doneCount + size

/-- A part of a block, through a page of the kernel (lines 28-46 and 69-84). -/
def partialBlock (env : Env) (p : Progress) (tmpPage : Page) (copySize : U64) (d : Direction) :
    Except Stop Progress := do
  let s := p.machine
  let (disk, tmp) ← env.readWriteBlock s.disk (p.offset / pageSize) tmpPage d
  let s := { s with disk := disk }
  match d with
  | .read => return p.advance (env.copyToUser s p.bufVirt tmp copySize.toNat) copySize
  | .write =>
    let _tmp := env.copyFromUser s tmp p.bufVirt copySize.toNat
    return p.advance s copySize

/-- `klib::min`. -/
def klibMin (a b : U64) : U64 := if b < a then b else a

/-- The partial block at the beginning (lines 26-47). -/
def beginning (env : Env) (p : Progress) (d : Direction) : Except Stop Progress :=
  if p.bufVirt % pageSize ≠ 0#64 then
    partialBlock env p env.firstPage (klibMin (pageSize - p.bufVirt % pageSize) p.count) d
  else return p

/-- The full blocks in the middle (lines 52-63). -/
def middle (env : Env) (p : Progress) (d : Direction) : Except Stop Progress := do
  if p.bufVirt % pageSize ≠ 0#64 then throw .assertion
  let numFullBlocks := p.count / pageSize
  if numFullBlocks > 0#64 then
    let s ← readWriteBlocks env p.machine p.bufVirt numFullBlocks.toNat (p.offset / pageSize) d
    return p.advance s (numFullBlocks * pageSize)
  else return p

/-- The partial block at the end (lines 67-84). -/
def ending (env : Env) (p : Progress) (d : Direction) : Except Stop Progress := do
  if p.bufVirt % pageSize ≠ 0#64 then throw .assertion
  partialBlock env p env.lastPage (klibMin p.count pageSize) d

/-- `BlockInterface::read_write` (dev/block.cpp:21-87), with the machine that it leaves. -/
def readWrite (env : Env) (s : Machine) (buf count offset : U64) (d : Direction) :
    Except Stop (Machine × U64) := do
  let p ← beginning env { machine := s, bufVirt := buf, count := count, offset := offset } d
  if p.count = 0#64 then return (p.machine, p.doneCount)
  let p ← middle env p d
  if p.count = 0#64 then return (p.machine, p.doneCount)
  let p ← ending env p d
  return (p.machine, p.doneCount)

/-! ## The memory of the buffer -/

theorem toNat_div_page (v : U64) : (v / pageSize).toNat = v.toNat / 4096 := by
  simp [pageSize]

theorem toNat_mod_page (v : U64) : (v % pageSize).toNat = v.toNat % 4096 := by
  simp [pageSize]

theorem mod_page_eq_zero {v : U64} : v % pageSize = 0#64 ↔ v.toNat % 4096 = 0 := by
  rw [← toNat_mod_page, ← BitVec.toNat_inj]
  simp

theorem toNat_page_sub_mod (v : U64) :
    (pageSize - v % pageSize).toNat = 4096 - v.toNat % 4096 := by
  rw [BitVec.toNat_sub_of_le, toNat_mod_page]
  · rfl
  · rw [le_def, toNat_mod_page]
    exact (Nat.mod_lt _ (by decide)).le

namespace Env

variable (env : Env) (s : Machine)

/-- The frame of a page gets other bytes. -/
theorem load_setFrame (disk : ℕ → U8) (page : U64) (bytes : Page) (v : U64) :
    env.load { disk := disk, frames := Function.update s.frames (env.frame page) bytes } v =
      if v / pageSize = page then bytes (v.toNat % 4096) else env.load s v := by
  unfold load
  rw [toNat_mod_page]
  by_cases hpage : v / pageSize = page
  · rw [if_pos hpage, hpage]
    exact congrFun (Function.update_self ..) _
  · rw [if_neg hpage]
    exact congrFun (Function.update_of_ne (fun h => hpage (env.frame_injective h)) ..) _

theorem load_store (virt v : U64) (byte : U8) :
    env.load (env.store s virt byte) v = if v = virt then byte else env.load s v := by
  unfold store
  rw [load_setFrame]
  by_cases hpage : v / pageSize = virt / pageSize
  · have hv : v.toNat % 4096 = virt.toNat % 4096 ↔ v = virt := by
      have h := congrArg BitVec.toNat hpage
      rw [toNat_div_page, toNat_div_page] at h
      rw [← BitVec.toNat_inj]
      omega
    rw [if_pos hpage, toNat_mod_page]
    by_cases h : v = virt
    · rw [if_pos h, hv.mpr h, Function.update_self]
    · rw [if_neg h, Function.update_of_ne (mt hv.mp h), load, hpage, toNat_mod_page]
  · rw [if_neg hpage, if_neg (fun h => hpage (congrArg (· / pageSize) h))]

/-- Only the bytes of the destination change. -/
theorem load_copyToUser (virt v : U64) (page : Page) {size : ℕ} (hsize : size ≤ 2 ^ 64) :
    env.load (env.copyToUser s virt page size) v =
      if (v - virt).toNat < size then page (v - virt).toNat else env.load s v := by
  induction size with
  | zero => rfl
  | succ size ih =>
    have hstore : v = virt + ofNat 64 size ↔ (v - virt).toNat = size := by
      rw [← BitVec.toNat_inj, toNat_sub, toNat_add, toNat_ofNat]
      have := v.isLt
      have := virt.isLt
      omega
    unfold copyToUser at ih ⊢
    rw [List.range_succ, List.foldl_append, List.foldl_cons, List.foldl_nil, load_store,
      ih (by omega)]
    by_cases h : (v - virt).toNat = size
    · rw [if_pos (hstore.mpr h), if_pos (by omega), h]
    · rw [if_neg (mt hstore.mp h)]
      exact if_congr (by omega) rfl rfl

theorem copyToUser_disk (virt : U64) (page : Page) (size : ℕ) :
    (env.copyToUser s virt page size).disk = s.disk := by
  unfold copyToUser
  induction size with
  | zero => rfl
  | succ size ih =>
    rw [List.range_succ, List.foldl_append]
    exact ih

end Env

/-! ## Reading -/

theorem getPhysicalAddr_ok {env : Env} {virt : U64} {phy : ℕ}
    (h : env.getPhysicalAddr virt = .ok phy) : phy = env.frame (virt / pageSize) := by
  unfold Env.getPhysicalAddr at h
  cases henv : env.addrError virt with
  | some e =>
    rw [henv] at h
    cases h
  | none =>
    rw [henv] at h
    exact (Except.ok.inj h).symm

theorem readWriteBlock_ok {env : Env} {disk : ℕ → U8} {block : U64} {page : Page} {d : Direction}
    {x : (ℕ → U8) × Page} (h : env.readWriteBlock disk block page d = .ok x) :
    x = transfer disk block page d := by
  unfold Env.readWriteBlock at h
  cases henv : env.blockError block d with
  | some e =>
    rw [henv] at h
    cases h
  | none =>
    rw [henv] at h
    exact (Except.ok.inj h).symm

theorem readWriteNext_read {env : Env} {buffer firstBlock : U64} {s s' : Machine} {i : ℕ}
    (h : readWriteNext env buffer firstBlock .read s i = .ok s') :
    s'.disk = s.disk ∧ ∀ v, env.load s' v =
      if v / pageSize = (buffer + ofNat 64 i * pageSize) / pageSize then
        s.disk ((firstBlock + ofNat 64 i).toNat * 4096 + v.toNat % 4096)
      else env.load s v := by
  obtain ⟨phy, hphy, h⟩ := bind_ok h
  obtain ⟨x, hx, h⟩ := bind_ok h
  rw [getPhysicalAddr_ok hphy] at hx h
  rw [readWriteBlock_ok hx] at h
  cases h
  exact ⟨rfl, env.load_setFrame s s.disk _ _⟩

theorem mem_page_iff {buffer v : U64} {i : ℕ} (halign : buffer.toNat % 4096 = 0)
    (hi : i < 2 ^ 52) :
    v / pageSize = (buffer + ofNat 64 i * pageSize) / pageSize ↔
      (v - buffer).toNat / 4096 = i := by
  have hv := v.isLt
  have hb := buffer.isLt
  rw [← BitVec.toNat_inj, toNat_div_page, toNat_div_page, toNat_sub, toNat_add,
    BitVec.toNat_mul, toNat_ofNat]
  simp only [pageSize, toNat_ofNat]
  omega

theorem readWriteBlocks_read {env : Env} {s s' : Machine} {buffer firstBlock : U64} {n : ℕ}
    (halign : buffer.toNat % 4096 = 0) (hn : n ≤ 2 ^ 52) (hfirst : firstBlock.toNat < 2 ^ 52)
    (h : readWriteBlocks env s buffer n firstBlock .read = .ok s') :
    s'.disk = s.disk ∧ ∀ v, env.load s' v =
      if (v - buffer).toNat < n * 4096 then s.disk (firstBlock.toNat * 4096 + (v - buffer).toNat)
      else env.load s v := by
  refine foldlM_range_ok (R := fun i s' => s'.disk = s.disk ∧ ∀ v, env.load s' v =
    if (v - buffer).toNat < i * 4096 then s.disk (firstBlock.toNat * 4096 + (v - buffer).toNat)
    else env.load s v) ⟨rfl, fun v => rfl⟩ ?_ h
  rintro i s1 s2 hi ⟨hdisk, hload⟩ hnext
  obtain ⟨hdisk', hload'⟩ := readWriteNext_read hnext
  refine ⟨hdisk'.trans hdisk, fun v => ?_⟩
  have hblock : (firstBlock + ofNat 64 i).toNat = firstBlock.toNat + i := by
    rw [toNat_add, toNat_ofNat]
    omega
  rw [hload', hdisk, hload, hblock]
  by_cases hpage : (v - buffer).toNat / 4096 = i
  · have hmod : v.toNat % 4096 = (v - buffer).toNat % 4096 := by
      have hv := v.isLt
      have hb := buffer.isLt
      rw [toNat_sub]
      omega
    rw [if_pos ((mem_page_iff halign (by omega)).mpr hpage), if_pos (by omega), hmod]
    exact congrArg s.disk (by omega)
  · rw [if_neg (mt (mem_page_iff halign (by omega)).mp hpage)]
    exact if_congr (by omega) rfl rfl

/-- The part of a block behind `offset` on the disk begins here. -/
def blockStart (offset : U64) : ℕ := offset.toNat / 4096 * 4096

/-- `size` bytes at the buffer come from the beginning of the block that the offset is in. -/
structure Copied (env : Env) (p p' : Progress) (size : U64) : Prop where
  progress : p' = p.advance p'.machine size
  disk : p'.machine.disk = p.machine.disk
  load : ∀ v, env.load p'.machine v =
    if (v - p.bufVirt).toNat < size.toNat then
      p.machine.disk (blockStart p.offset + (v - p.bufVirt).toNat)
    else env.load p.machine v

/-- The bytes of the first part. -/
def firstSize (bufVirt count : U64) : U64 :=
  if bufVirt % pageSize ≠ 0#64 then klibMin (pageSize - bufVirt % pageSize) count else 0#64

theorem advance_zero (p : Progress) : p.advance p.machine 0#64 = p := by
  unfold Progress.advance
  simp

theorem advance_fields {p p' : Progress} {machine : Machine} {size : U64}
    (h : p' = p.advance machine size) :
    p'.bufVirt = p.bufVirt + size ∧ p'.count = p.count - size ∧
      p'.offset = p.offset + size ∧ p'.doneCount = p.doneCount + size := by
  rw [h]
  exact ⟨rfl, rfl, rfl, rfl⟩

theorem Copied.refl (env : Env) (p : Progress) : Copied env p p 0#64 :=
  ⟨(advance_zero p).symm, rfl, fun _ => rfl⟩

theorem toNat_klibMin (a b : U64) : (klibMin a b).toNat = min a.toNat b.toNat := by
  unfold klibMin
  split_ifs with h <;> rw [BitVec.lt_def] at h <;> omega

theorem partialBlock_read {env : Env} {p p' : Progress} {tmpPage : Page} {copySize : U64}
    (h : partialBlock env p tmpPage copySize .read = .ok p') : Copied env p p' copySize := by
  obtain ⟨x, hx, h⟩ := bind_ok h
  rw [readWriteBlock_ok hx] at h
  cases h
  refine ⟨rfl, env.copyToUser_disk _ _ _ _, fun v => ?_⟩
  have hsize := copySize.isLt
  refine (env.load_copyToUser _ _ _ _ (by omega)).trans ?_
  unfold readBlock blockStart
  rw [toNat_div_page]

theorem beginning_read {env : Env} {p p' : Progress} (h : beginning env p .read = .ok p') :
    Copied env p p' (firstSize p.bufVirt p.count) := by
  unfold beginning at h
  unfold firstSize
  split_ifs at h ⊢ with halign
  · exact partialBlock_read h
  · cases h
    exact Copied.refl env p

/-- The length of the full blocks. -/
theorem toNat_full (count : U64) :
    (count / pageSize * pageSize).toNat = count.toNat / 4096 * 4096 := by
  have hcount := count.isLt
  rw [BitVec.toNat_mul, toNat_div_page]
  simp only [pageSize, toNat_ofNat]
  omega

theorem middle_ok {env : Env} {p p' : Progress} {d : Direction} (h : middle env p d = .ok p') :
    p.bufVirt.toNat % 4096 = 0 ∧ ∃ s',
      readWriteBlocks env p.machine p.bufVirt (p.count.toNat / 4096) (p.offset / pageSize) d =
        .ok s' ∧
      p' = p.advance s' (p.count / pageSize * pageSize) := by
  unfold middle at h
  by_cases halign : p.bufVirt % pageSize = 0#64
  swap
  · rw [if_pos halign] at h
    cases h
  refine ⟨mod_page_eq_zero.mp halign, ?_⟩
  rw [if_neg (not_not.mpr halign)] at h
  dsimp only at h
  rw [← toNat_div_page]
  by_cases hfull : p.count / pageSize > 0#64
  · rw [if_pos hfull] at h
    obtain ⟨s', hs', h⟩ := bind_ok h
    exact ⟨s', hs', (Except.ok.inj h).symm⟩
  · rw [if_neg hfull] at h
    have hzero : p.count / pageSize = 0#64 := by
      rw [← BitVec.toNat_inj]
      rw [gt_iff_lt, BitVec.lt_def] at hfull
      simpa using hfull
    rw [hzero, BitVec.zero_mul]
    exact ⟨p.machine, rfl, (Except.ok.inj h).symm.trans (advance_zero p).symm⟩

theorem middle_read {env : Env} {p p' : Progress} (h : middle env p .read = .ok p') :
    Copied env p p' (p.count / pageSize * pageSize) := by
  obtain ⟨halign, s', hs', rfl⟩ := middle_ok h
  have hcount := p.count.isLt
  have hoffset := p.offset.isLt
  obtain ⟨hdisk, hload⟩ :=
    readWriteBlocks_read halign (by omega) (by rw [toNat_div_page]; omega) hs'
  refine ⟨rfl, hdisk, fun v => ?_⟩
  rw [toNat_full]
  rw [toNat_div_page] at hload
  exact hload v

theorem ending_read {env : Env} {p p' : Progress} (h : ending env p .read = .ok p') :
    Copied env p p' (klibMin p.count pageSize) := by
  unfold ending at h
  split_ifs at h
  · cases h
  · exact partialBlock_read h

/-- A transfer before its first part. -/
def start (s : Machine) (buf count offset : U64) : Progress :=
  { machine := s, bufVirt := buf, count := count, offset := offset }

/-- The three parts of a read. A part that is left out has no bytes. -/
theorem readWrite_read_parts {env : Env} {s s' : Machine} {buf count offset result : U64}
    (h : readWrite env s buf count offset .read = .ok (s', result)) :
    ∃ p1 p2 p3, Copied env (start s buf count offset) p1 (firstSize buf count) ∧
      Copied env p1 p2 (p1.count / pageSize * pageSize) ∧
      Copied env p2 p3 (klibMin p2.count pageSize) ∧ s' = p3.machine ∧ result = p3.doneCount := by
  obtain ⟨p1, h1, h⟩ := bind_ok h
  have hfirst := beginning_read h1
  split_ifs at h with hcount
  · cases h
    refine ⟨p1, p1, p1, hfirst, ?_, ?_, rfl, rfl⟩ <;> rw [hcount] <;> exact Copied.refl env p1
  obtain ⟨p2, h2, h⟩ := bind_ok h
  have hfull := middle_read h2
  split_ifs at h with hcount
  · cases h
    refine ⟨p1, p2, p2, hfirst, hfull, ?_, rfl, rfl⟩
    rw [hcount]
    exact Copied.refl env p2
  obtain ⟨p3, h3, h⟩ := bind_ok h
  cases h
  exact ⟨p1, p2, p3, hfirst, hfull, ending_read h3, rfl, rfl⟩

/-- The bytes of the first part and of the full blocks are bytes of the transfer. -/
theorem firstSize_le (buf count : U64) : (firstSize buf count).toNat ≤ count.toNat := by
  unfold firstSize
  split_ifs
  · rw [toNat_klibMin]
    exact Nat.min_le_right _ _
  · exact Nat.zero_le _

/-- The bytes between the first and the last part. -/
def fullSize (buf count : U64) : U64 := (count - firstSize buf count) / pageSize * pageSize

theorem toNat_fullSize (buf count : U64) : (fullSize buf count).toNat =
    (count.toNat - (firstSize buf count).toNat) / 4096 * 4096 := by
  unfold fullSize
  rw [toNat_full, BitVec.toNat_sub_of_le (le_def.mpr (firstSize_le buf count))]

theorem toNat_lastSize (buf count : U64) :
    (count - firstSize buf count - fullSize buf count).toNat =
      (count.toNat - (firstSize buf count).toNat) % 4096 := by
  have hfull := toNat_fullSize buf count
  have hleft : (count - firstSize buf count).toNat =
      count.toNat - (firstSize buf count).toNat :=
    BitVec.toNat_sub_of_le (le_def.mpr (firstSize_le buf count))
  rw [BitVec.toNat_sub_of_le (by rw [le_def, hleft]; omega), hleft]
  omega

/-- The last part is what is left of the bytes. -/
theorem lastSize_eq (buf count : U64) :
    klibMin (count - firstSize buf count - fullSize buf count) pageSize =
      count - firstSize buf count - fullSize buf count := by
  rw [← BitVec.toNat_inj, toNat_klibMin, toNat_lastSize]
  simp only [pageSize, toNat_ofNat]
  omega

/-- Where on the disk byte `k` of the buffer comes from. -/
def source (buf count offset : U64) (k : ℕ) : ℕ :=
  let first := firstSize buf count
  let full := fullSize buf count
  if k < first.toNat then blockStart offset + k
  else if k < first.toNat + full.toNat then blockStart (offset + first) + (k - first.toNat)
  else blockStart (offset + first + full) + (k - first.toNat - full.toNat)

/-- The buffer, the offset and the count before each of the three parts. -/
structure Parts (buf count offset : U64) (p1 p2 p3 : Progress) : Prop where
  bufVirt1 : p1.bufVirt = buf + firstSize buf count
  offset1 : p1.offset = offset + firstSize buf count
  full : p1.count / pageSize * pageSize = fullSize buf count
  bufVirt2 : p2.bufVirt = buf + firstSize buf count + fullSize buf count
  offset2 : p2.offset = offset + firstSize buf count + fullSize buf count
  count2 : p2.count = count - firstSize buf count - fullSize buf count
  last : klibMin p2.count pageSize = count - firstSize buf count - fullSize buf count
  done : p3.doneCount = count

theorem Parts.of_progress {s : Machine} {buf count offset : U64} {p1 p2 p3 : Progress}
    (h1 : p1 = (start s buf count offset).advance p1.machine (firstSize buf count))
    (h2 : p2 = p1.advance p2.machine (p1.count / pageSize * pageSize))
    (h3 : p3 = p2.advance p3.machine (klibMin p2.count pageSize)) :
    Parts buf count offset p1 p2 p3 := by
  obtain ⟨hbuf1, hcount1, hoffset1, hdone1⟩ := advance_fields h1
  obtain ⟨hbuf2, hcount2, hoffset2, hdone2⟩ := advance_fields h2
  obtain ⟨-, -, -, hdone3⟩ := advance_fields h3
  change p1.bufVirt = buf + firstSize buf count at hbuf1
  change p1.count = count - firstSize buf count at hcount1
  change p1.offset = offset + firstSize buf count at hoffset1
  change p1.doneCount = 0#64 + firstSize buf count at hdone1
  have hfull : p1.count / pageSize * pageSize = fullSize buf count := by rw [hcount1, fullSize]
  rw [hfull] at hbuf2 hcount2 hoffset2 hdone2
  rw [hcount1] at hcount2
  have hlast := lastSize_eq buf count
  rw [← hcount2] at hlast
  refine ⟨hbuf1, hoffset1, hfull, by rw [hbuf2, hbuf1], by rw [hoffset2, hoffset1], hcount2,
    hlast.trans hcount2, ?_⟩
  rw [hdone3, hlast, hdone2, hdone1, hcount2, BitVec.zero_add]
  ring

/-- The place of byte `k` of the buffer behind the first `c` bytes. -/
theorem toNat_place (buf c : U64) (k : ℕ) :
    (buf + ofNat 64 k - (buf + c)).toNat = (k + (2 ^ 64 - c.toNat)) % 2 ^ 64 := by
  have hbuf := buf.isLt
  have hc := c.isLt
  rw [toNat_sub, toNat_add, toNat_add, toNat_ofNat]
  omega

theorem readWrite_read {env : Env} {s s' : Machine} {buf count offset result : U64}
    (h : readWrite env s buf count offset .read = .ok (s', result)) :
    result = count ∧ ∀ k < count.toNat,
      env.load s' (buf + ofNat 64 k) = s.disk (source buf count offset k) := by
  obtain ⟨p1, p2, p3, h1, h2, h3, rfl, rfl⟩ := readWrite_read_parts h
  have parts := Parts.of_progress h1.progress h2.progress h3.progress
  refine ⟨parts.done, fun k hk => ?_⟩
  have hle := firstSize_le buf count
  have hfull := toNat_fullSize buf count
  have hlast := toNat_lastSize buf count
  have hcount := count.isLt
  -- The place of the byte in each of the three parts.
  have hplace := toNat_place buf 0#64 k
  rw [BitVec.add_zero, show (0#64).toNat = 0 from rfl] at hplace
  have hplace1 := toNat_place buf (firstSize buf count) k
  have hplace2 := toNat_place buf (firstSize buf count + fullSize buf count) k
  have hsum : (firstSize buf count + fullSize buf count).toNat =
      (firstSize buf count).toNat + (fullSize buf count).toNat := by
    rw [toNat_add]
    omega
  rw [hsum, ← BitVec.add_assoc] at hplace2
  have hbuf0 : (start s buf count offset).bufVirt = buf := rfl
  have hoffset0 : (start s buf count offset).offset = offset := rfl
  rw [h3.load, h2.load, h1.load, h2.disk, h1.disk, hbuf0, parts.bufVirt1, parts.bufVirt2, hoffset0,
    parts.offset1, parts.offset2, parts.last, parts.full, hlast, hplace, hplace1, hplace2]
  unfold source
  dsimp only
  by_cases hk1 : k < (firstSize buf count).toNat
  · rw [if_neg (by omega), if_neg (by omega), if_pos (by omega), if_pos hk1]
    exact congrArg s.disk (by omega)
  by_cases hk2 : k < (firstSize buf count).toNat + (fullSize buf count).toNat
  · rw [if_neg (by omega), if_pos (by omega), if_neg hk1, if_pos hk2]
    exact congrArg s.disk (by omega)
  · rw [if_pos (by omega), if_neg hk1, if_neg hk2]
    exact congrArg s.disk (by omega)

/-! ## Writing -/

theorem readWriteNext_write {env : Env} {buffer firstBlock : U64} {s s' : Machine} {i : ℕ}
    (h : readWriteNext env buffer firstBlock .write s i = .ok s') :
    s'.frames = s.frames ∧ s'.disk = writeBlock s.disk (firstBlock + ofNat 64 i)
      (s.frames (env.frame ((buffer + ofNat 64 i * pageSize) / pageSize))) := by
  obtain ⟨phy, hphy, h⟩ := bind_ok h
  obtain ⟨x, hx, h⟩ := bind_ok h
  rw [readWriteBlock_ok hx, getPhysicalAddr_ok hphy] at h
  cases h
  exact ⟨Function.update_eq_self _ _, rfl⟩

/-- The disk with `size` bytes from `begin` on that are those from `virt` on. -/
def writeFull (env : Env) (s : Machine) (disk : ℕ → U8) (virt : U64) (begin size : ℕ) : ℕ → U8 :=
  fun a =>
    if begin ≤ a ∧ a < begin + size then env.load s (virt + ofNat 64 (a - begin))
    else disk a

theorem writeFull_zero (env : Env) (s : Machine) (disk : ℕ → U8) (virt : U64) (begin : ℕ) :
    writeFull env s disk virt begin 0 = disk := by
  funext a
  exact if_neg (by omega)

/-- Full blocks that are written: one block after the other gets its page. -/
theorem readWriteBlocks_write {env : Env} {s s' : Machine} {buffer firstBlock : U64} {n : ℕ}
    (halign : buffer.toNat % 4096 = 0) (hn : n ≤ 2 ^ 52) (hfirst : firstBlock.toNat < 2 ^ 52)
    (h : readWriteBlocks env s buffer n firstBlock .write = .ok s') :
    s'.frames = s.frames ∧
      s'.disk = writeFull env s s.disk buffer (firstBlock.toNat * 4096) (n * 4096) := by
  refine foldlM_range_ok (R := fun i s' => s'.frames = s.frames ∧
    s'.disk = writeFull env s s.disk buffer (firstBlock.toNat * 4096) (i * 4096))
    ⟨rfl, by rw [Nat.zero_mul, writeFull_zero]⟩ ?_ h
  rintro i s1 s2 hi ⟨hframes, hdisk⟩ hnext
  obtain ⟨hframes', hdisk'⟩ := readWriteNext_write hnext
  refine ⟨hframes'.trans hframes, ?_⟩
  have hblock : (firstBlock + ofNat 64 i).toNat = firstBlock.toNat + i := by
    rw [toNat_add, toNat_ofNat]
    omega
  rw [hdisk', hdisk, hframes]
  funext a
  unfold writeBlock writeFull
  rw [hblock]
  by_cases ha : a / 4096 = firstBlock.toNat + i
  · rw [if_pos ha, if_pos (by omega), Env.load]
    have hpage : (buffer + ofNat 64 (a - firstBlock.toNat * 4096)) / pageSize =
        (buffer + ofNat 64 i * pageSize) / pageSize := by
      rw [mem_page_iff halign (by omega)]
      have hplace := toNat_place buffer 0#64 (a - firstBlock.toNat * 4096)
      rw [BitVec.add_zero, show (0#64).toNat = 0 from rfl] at hplace
      omega
    have hmod : (buffer + ofNat 64 (a - firstBlock.toNat * 4096)).toNat % 4096 =
        a % 4096 := by
      have hb := buffer.isLt
      rw [toNat_add, toNat_ofNat]
      omega
    rw [hpage, toNat_mod_page, hmod]
  · rw [if_neg ha]
    exact if_congr (by omega) rfl rfl

/-- `size` bytes of the buffer are done, and the disk has become `disk`. -/
structure Written (p p' : Progress) (size : U64) (disk : ℕ → U8) : Prop where
  progress : p' = p.advance p'.machine size
  frames : p'.machine.frames = p.machine.frames
  disk : p'.machine.disk = disk

theorem Written.refl (p : Progress) : Written p p 0#64 p.machine.disk :=
  ⟨(advance_zero p).symm, rfl, rfl⟩

section

variable {env : Env} {p p' : Progress}

theorem partialBlock_write {tmpPage : Page} {copySize : U64}
    (h : partialBlock env p tmpPage copySize .write = .ok p') :
    Written p p' copySize (writeBlock p.machine.disk (p.offset / pageSize) tmpPage) := by
  obtain ⟨x, hx, h⟩ := bind_ok h
  rw [readWriteBlock_ok hx] at h
  cases h
  exact ⟨rfl, rfl, rfl⟩

theorem beginning_write (h : beginning env p .write = .ok p') :
    Written p p' (firstSize p.bufVirt p.count)
      (if p.bufVirt % pageSize ≠ 0#64 then
        writeBlock p.machine.disk (p.offset / pageSize) env.firstPage
      else p.machine.disk) := by
  unfold beginning at h
  unfold firstSize
  split_ifs at h ⊢ with halign
  · exact partialBlock_write h
  · cases h
    exact Written.refl p

theorem middle_write (h : middle env p .write = .ok p') :
    Written p p' (p.count / pageSize * pageSize)
      (writeFull env p.machine p.machine.disk p.bufVirt (blockStart p.offset)
        (p.count / pageSize * pageSize).toNat) := by
  obtain ⟨halign, s', hs', rfl⟩ := middle_ok h
  have hcount := p.count.isLt
  have hoffset := p.offset.isLt
  obtain ⟨hframes, hdisk⟩ :=
    readWriteBlocks_write halign (by omega) (by rw [toNat_div_page]; omega) hs'
  rw [toNat_div_page] at hdisk
  rw [toNat_full, blockStart]
  exact ⟨rfl, hframes, hdisk⟩

theorem ending_write (h : ending env p .write = .ok p') :
    Written p p' (klibMin p.count pageSize)
      (writeBlock p.machine.disk (p.offset / pageSize) env.lastPage) := by
  unfold ending at h
  split_ifs at h
  · cases h
  · exact partialBlock_write h

end

/-- The three parts of a write. A part that is left out has no bytes. -/
theorem readWrite_write_parts {env : Env} {s s' : Machine} {buf count offset result : U64}
    (h : readWrite env s buf count offset .write = .ok (s', result)) :
    ∃ p1 p2 p3, Written (start s buf count offset) p1 (firstSize buf count)
        (if buf % pageSize ≠ 0#64 then writeBlock s.disk (offset / pageSize) env.firstPage
        else s.disk) ∧
      Written p1 p2 (p1.count / pageSize * pageSize)
        (writeFull env p1.machine p1.machine.disk p1.bufVirt (blockStart p1.offset)
          (p1.count / pageSize * pageSize).toNat) ∧
      Written p2 p3 (klibMin p2.count pageSize)
        (if p2.count = 0#64 then p2.machine.disk
        else writeBlock p2.machine.disk (p2.offset / pageSize) env.lastPage) ∧
      s' = p3.machine ∧ result = p3.doneCount := by
  obtain ⟨p1, h1, h⟩ := bind_ok h
  have hfirst := beginning_write h1
  split_ifs at h with hcount
  · cases h
    refine ⟨p1, p1, p1, hfirst, ?_, ?_, rfl, rfl⟩
    · rw [hcount, show (0#64 / pageSize * pageSize : U64) = 0#64 from rfl,
        show (0#64).toNat = 0 from rfl, writeFull_zero]
      exact Written.refl p1
    · rw [if_pos hcount, hcount]
      exact Written.refl p1
  obtain ⟨p2, h2, h⟩ := bind_ok h
  have hfull := middle_write h2
  split_ifs at h with hcount
  · cases h
    refine ⟨p1, p2, p2, hfirst, hfull, ?_, rfl, rfl⟩
    rw [if_pos hcount, hcount]
    exact Written.refl p2
  obtain ⟨p3, h3, h⟩ := bind_ok h
  cases h
  refine ⟨p1, p2, p3, hfirst, hfull, ?_, rfl, rfl⟩
  rw [if_neg hcount]
  exact ending_write h3

/-- The disk that a successful write leaves. -/
def written (env : Env) (s : Machine) (buf count offset : U64) : ℕ → U8 :=
  let first := firstSize buf count
  let full := fullSize buf count
  let disk := if buf % pageSize ≠ 0#64 then writeBlock s.disk (offset / pageSize) env.firstPage
    else s.disk
  let disk := writeFull env s disk (buf + first) (blockStart (offset + first)) full.toNat
  if count - first - full = 0#64 then disk
  else writeBlock disk ((offset + first + full) / pageSize) env.lastPage

/-- What a write has done when it succeeds. -/
theorem readWrite_write {env : Env} {s s' : Machine} {buf count offset result : U64}
    (h : readWrite env s buf count offset .write = .ok (s', result)) :
    result = count ∧ s'.disk = written env s buf count offset := by
  obtain ⟨p1, p2, p3, h1, h2, h3, rfl, rfl⟩ := readWrite_write_parts h
  have parts := Parts.of_progress h1.progress h2.progress h3.progress
  refine ⟨parts.done, ?_⟩
  have hload : ∀ disk virt begin size,
      writeFull env p1.machine disk virt begin size = writeFull env s disk virt begin size := by
    intro disk virt begin size
    unfold writeFull Env.load
    rw [h1.frames]
    rfl
  rw [h3.disk, h2.disk, h1.disk, parts.count2, parts.bufVirt1, parts.offset1, parts.offset2,
    parts.full, hload]
  rfl

/-! ## Transfers without errors -/

/-- Every page of the buffer and every block can be reached. -/
structure Env.NoErrors (env : Env) : Prop where
  addr : ∀ virt, env.addrError virt = none
  block : ∀ block d, env.blockError block d = none

section Total

variable {env : Env} (hno : env.NoErrors)

include hno

theorem getPhysicalAddr_total (virt : U64) : ∃ phy, env.getPhysicalAddr virt = .ok phy := by
  unfold Env.getPhysicalAddr
  rw [hno.addr]
  exact ⟨_, rfl⟩

theorem readWriteBlock_total (disk : ℕ → U8) (block : U64) (page : Page) (d : Direction) :
    ∃ x, env.readWriteBlock disk block page d = .ok x := by
  unfold Env.readWriteBlock
  rw [hno.block]
  exact ⟨_, rfl⟩

theorem readWriteNext_total (buffer firstBlock : U64) (d : Direction) (s : Machine) (i : ℕ) :
    ∃ s', readWriteNext env buffer firstBlock d s i = .ok s' := by
  obtain ⟨phy, hphy⟩ := getPhysicalAddr_total hno (buffer + ofNat 64 i * pageSize)
  obtain ⟨x, hx⟩ := readWriteBlock_total hno s.disk (firstBlock + ofNat 64 i)
    (s.frames phy) d
  unfold readWriteNext
  rw [hphy, ok_bind, hx, ok_bind]
  exact ⟨_, rfl⟩

theorem readWriteBlocks_total (s : Machine) (buffer firstBlock : U64) (n : ℕ) (d : Direction) :
    ∃ s', readWriteBlocks env s buffer n firstBlock d = .ok s' := by
  refine foldlM_completes (fun _ => True) (fun s i _ => ?_) (List.range n) trivial
  obtain ⟨s', hs'⟩ := readWriteNext_total hno buffer firstBlock d s i
  exact ⟨s', hs', trivial⟩

theorem partialBlock_total (p : Progress) (tmpPage : Page) (copySize : U64) (d : Direction) :
    ∃ p', partialBlock env p tmpPage copySize d = .ok p' := by
  obtain ⟨x, hx⟩ := readWriteBlock_total hno p.machine.disk (p.offset / pageSize) tmpPage d
  unfold partialBlock
  dsimp only
  rw [hx, ok_bind]
  cases d with
  | read => exact ⟨_, rfl⟩
  | write => exact ⟨_, rfl⟩

theorem beginning_total (p : Progress) (d : Direction) : ∃ p', beginning env p d = .ok p' := by
  unfold beginning
  split_ifs
  · exact partialBlock_total hno p _ _ d
  · exact ⟨p, rfl⟩

theorem middle_total {p : Progress} (halign : p.bufVirt % pageSize = 0#64) (d : Direction) :
    ∃ p', middle env p d = .ok p' := by
  obtain ⟨s', hs'⟩ := readWriteBlocks_total hno p.machine p.bufVirt (p.offset / pageSize)
    (p.count / pageSize).toNat d
  unfold middle
  rw [if_neg (not_not.mpr halign)]
  dsimp only
  split_ifs
  · rw [hs', ok_bind]
    exact ⟨_, rfl⟩
  · exact ⟨p, rfl⟩

theorem ending_total {p : Progress} (halign : p.bufVirt % pageSize = 0#64) (d : Direction) :
    ∃ p', ending env p d = .ok p' := by
  unfold ending
  rw [if_neg (not_not.mpr halign)]
  exact partialBlock_total hno p _ _ d

end Total

section

variable {env : Env} {p p' : Progress} {d : Direction}

theorem beginning_progress (h : beginning env p d = .ok p') :
    p' = p.advance p'.machine (firstSize p.bufVirt p.count) := by
  cases d with
  | read => exact (beginning_read h).progress
  | write => exact (beginning_write h).progress

/-- The first assertion: the first part ends at a page, or with the transfer. -/
theorem beginning_aligned (h : beginning env p d = .ok p') (hcount : p'.count ≠ 0#64) :
    p'.bufVirt % pageSize = 0#64 := by
  obtain ⟨hbuf, hcount', -, -⟩ := advance_fields (beginning_progress h)
  rw [hcount'] at hcount
  rw [hbuf]
  unfold firstSize at hcount ⊢
  split_ifs at hcount ⊢ with halign
  · have hlt : klibMin (pageSize - p.bufVirt % pageSize) p.count =
        pageSize - p.bufVirt % pageSize := by
      unfold klibMin at hcount ⊢
      split_ifs at hcount ⊢
      · exact absurd (BitVec.sub_self _) hcount
      · rfl
    rw [hlt, mod_page_eq_zero, toNat_add, toNat_page_sub_mod]
    have hbufVirt := p.bufVirt.isLt
    omega
  · rw [BitVec.add_zero]
    exact not_not.mp halign

/-- The second assertion: whole pages lead from page to page. -/
theorem middle_aligned (h : middle env p d = .ok p') : p'.bufVirt % pageSize = 0#64 := by
  obtain ⟨halign, s', -, hp'⟩ := middle_ok h
  have hfull := toNat_full p.count
  have hcount := p.count.isLt
  rw [(advance_fields hp').1, mod_page_eq_zero, toNat_add, hfull]
  omega

end

/-- Without errors a transfer returns: both assertions hold. -/
theorem readWrite_total {env : Env} (hno : env.NoErrors) (s : Machine) (buf count offset : U64)
    (d : Direction) : ∃ x, readWrite env s buf count offset d = .ok x := by
  obtain ⟨p1, h1⟩ := beginning_total hno (start s buf count offset) d
  unfold start at h1
  unfold readWrite
  rw [h1, ok_bind]
  split_ifs with hcount1
  · exact ⟨_, rfl⟩
  obtain ⟨p2, h2⟩ := middle_total hno (beginning_aligned h1 hcount1) d
  rw [h2, ok_bind]
  split_ifs
  · exact ⟨_, rfl⟩
  obtain ⟨p3, h3⟩ := ending_total hno (middle_aligned h2) d
  rw [h3, ok_bind]
  exact ⟨_, rfl⟩

/-! ## Which transfers are right -/

/-- A read brings the bytes of the disk, a write changes these bytes and no others. -/
def Transferred (env : Env) (s s' : Machine) (buf count offset : U64) : Direction → Prop
  | .read => ∀ k < count.toNat,
      env.load s' (buf + ofNat 64 k) = s.disk (offset.toNat + k)
  | .write => s'.disk = writeFull env s s.disk buf offset.toNat count.toNat

/-- A transfer that succeeds has moved its bytes, whatever they are. -/
def ByteAccurate (buf count offset : U64) (d : Direction) : Prop :=
  ∀ (env : Env) (s s' : Machine) (result : U64),
    readWrite env s buf count offset d = .ok (s', result) →
      result = count ∧ Transferred env s s' buf count offset d

/-- The transfers that are right. -/
def Supported (buf count offset : U64) : Direction → Prop
  | .read => count = 0#64 ∨ offset.toNat % 4096 = 0 ∧
      if buf.toNat % 4096 = 0 then count.toNat % 4096 = 0 ∨ offset.toNat + count.toNat < 2 ^ 64
      else count.toNat ≤ 4096 - buf.toNat % 4096
  | .write => buf.toNat % 4096 = 0 ∧
      (count = 0#64 ∨ offset.toNat % 4096 = 0 ∧ count.toNat % 4096 = 0)

instance (buf count offset : U64) : ∀ d, Decidable (Supported buf count offset d)
  | .read => inferInstanceAs (Decidable (_ ∨ _ ∧ ite _ _ _))
  | .write => inferInstanceAs (Decidable (_ ∧ (_ ∨ _ ∧ _)))

/-- The length of the first part. -/
theorem toNat_firstSize (buf count : U64) : (firstSize buf count).toNat =
    if buf.toNat % 4096 = 0 then 0 else min (4096 - buf.toNat % 4096) count.toNat := by
  unfold firstSize
  by_cases halign : buf % pageSize = 0#64
  · rw [if_neg (not_not.mpr halign), if_pos (mod_page_eq_zero.mp halign)]
    rfl
  · rw [if_pos halign, if_neg (mt mod_page_eq_zero.mpr halign), toNat_klibMin,
      toNat_page_sub_mod]

/-- The bytes of a read come from the right places exactly if it is supported. -/
theorem source_iff (buf count offset : U64) :
    (∀ k < count.toNat, source buf count offset k = offset.toNat + k) ↔
      Supported buf count offset .read := by
  have hcount := count.isLt
  have hoffset := offset.isLt
  have hfirst := toNat_firstSize buf count
  have hfull := toNat_fullSize buf count
  have hzero : count = 0#64 ↔ count.toNat = 0 := by
    rw [← BitVec.toNat_inj]
    rfl
  have hoffset1 : (offset + firstSize buf count).toNat =
      (offset.toNat + (firstSize buf count).toNat) % 2 ^ 64 := toNat_add _ _
  have hoffset2 : (offset + firstSize buf count + fullSize buf count).toNat =
      (offset.toNat + (firstSize buf count).toNat + (fullSize buf count).toNat) % 2 ^ 64 := by
    rw [toNat_add, hoffset1, Nat.mod_add_mod]
  unfold Supported source blockStart
  dsimp only
  rw [hoffset1, hoffset2, hzero]
  generalize (firstSize buf count).toNat = first at *
  generalize (fullSize buf count).toNat = full at *
  generalize count.toNat = n at *
  generalize buf.toNat = b at *
  generalize offset.toNat = o at *
  constructor
  · intro h
    by_cases hn : n = 0
    · exact .inl hn
    have h0 := h 0 (by omega)
    have hlast := h first
    have hlast' := h (first + full)
    split_ifs at hfirst h0 hlast hlast' ⊢ <;> omega
  · intro h k hk
    split_ifs at hfirst h ⊢ <;> omega

/-- A pagemap with its pages in order and without errors, and a kernel whose pages hold `page`. -/
def Env.plain (page : Page) : Env where
  frame := BitVec.toNat
  frame_injective := fun _ _ => BitVec.eq_of_toNat_eq
  addrError := fun _ => none
  blockError := fun _ _ => none
  firstPage := page
  lastPage := page

theorem Env.plain_noErrors (page : Page) : (Env.plain page).NoErrors :=
  ⟨fun _ => rfl, fun _ _ => rfl⟩

/-- A machine with these bytes on the disk and in the memory. -/
def machineOf (disk : ℕ → U8) (bytes : U64 → U8) : Machine where
  disk := disk
  frames := fun frame k => bytes (ofNat 64 (frame * 4096 + k))

theorem load_machineOf (page : Page) (disk : ℕ → U8) (bytes : U64 → U8) (v : U64) :
    (Env.plain page).load (machineOf disk bytes) v = bytes v := by
  show bytes (ofNat 64 ((v / pageSize).toNat * 4096 + (v % pageSize).toNat)) = bytes v
  rw [toNat_div_page, toNat_mod_page, Nat.div_add_mod', BitVec.ofNat_toNat, BitVec.setWidth_eq]

theorem byteAccurate_read_iff (buf count offset : U64) :
    ByteAccurate buf count offset .read ↔ Supported buf count offset .read := by
  rw [← source_iff]
  constructor
  · intro h k hk
    -- A disk on which this byte is the only one of its kind.
    let disk : ℕ → U8 := fun a => if a = offset.toNat + k then 1#8 else 0#8
    obtain ⟨⟨s', result⟩, hrun⟩ := readWrite_total (Env.plain_noErrors fun _ => 0#8)
      (machineOf disk fun _ => 0#8) buf count offset .read
    have hsource := (readWrite_read hrun).2 k hk
    rw [(h _ _ _ _ hrun).2 k hk] at hsource
    change (if offset.toNat + k = offset.toNat + k then 1#8 else 0#8) =
      if source buf count offset k = offset.toNat + k then 1#8 else 0#8 at hsource
    rw [if_pos rfl] at hsource
    by_contra hne
    rw [if_neg hne] at hsource
    cases hsource
  · intro h env s s' result hrun
    obtain ⟨hresult, hload⟩ := readWrite_read hrun
    refine ⟨hresult, fun k hk => ?_⟩
    rw [hload k hk, h k hk]

/-- What a right write does to every disk, from every memory. -/
theorem written_of_byteAccurate {buf count offset : U64} (h : ByteAccurate buf count offset .write)
    (page : Page) (disk : ℕ → U8) (bytes : U64 → U8) :
    written (.plain page) (machineOf disk bytes) buf count offset =
      writeFull (.plain page) (machineOf disk bytes) disk buf offset.toNat count.toNat := by
  obtain ⟨⟨s', result⟩, hrun⟩ := readWrite_total (Env.plain_noErrors page)
    (machineOf disk bytes) buf count offset .write
  rw [← (readWrite_write hrun).2]
  exact (h _ _ _ _ hrun).2

theorem written_of_aligned {env : Env} {s : Machine} {buf count : U64} (offset : U64)
    (halign : buf.toNat % 4096 = 0) : written env s buf count offset =
      let disk := writeFull env s s.disk buf (blockStart offset) (count.toNat / 4096 * 4096)
      if count.toNat % 4096 = 0 then disk
      else writeBlock disk ((offset + fullSize buf count) / pageSize) env.lastPage := by
  have hfirst : firstSize buf count = 0#64 := if_neg (not_not.mpr (mod_page_eq_zero.mpr halign))
  have hfull := toNat_fullSize buf count
  have hlast := toNat_lastSize buf count
  rw [hfirst, show (0#64).toNat = 0 from rfl, Nat.sub_zero] at hfull hlast
  have hnone : count - 0#64 - fullSize buf count = 0#64 ↔ count.toNat % 4096 = 0 := by
    rw [← hlast, ← BitVec.toNat_inj]
    rfl
  unfold written
  dsimp only
  rw [if_neg (not_not.mpr (mod_page_eq_zero.mpr halign)), hfirst, BitVec.add_zero,
    BitVec.add_zero, hfull]
  exact if_congr hnone rfl rfl

/-- A write from a buffer that is not aligned. The block at the offset is that of the kernel's page,
    and if it is written again, then by another one or by a page of the buffer. -/
theorem written_of_unaligned {buf count offset : U64} {disk : ℕ → U8} {bytes : U64 → U8}
    (halign : buf.toNat % 4096 ≠ 0) (hbytes : ∀ v : U64, v.toNat % 4096 = 0 → bytes v = 1#8) :
    written (.plain fun _ => 1#8) (machineOf disk bytes) buf count offset (blockStart offset) =
      1#8 := by
  have hfirst := toNat_firstSize buf count
  have hfull := toNat_fullSize buf count
  rw [if_neg halign] at hfirst
  have hbuf := buf.isLt
  have hblock : blockStart offset / 4096 = (offset / pageSize).toNat := by
    rw [toNat_div_page, blockStart]
    omega
  have hdisk : writeFull (.plain fun _ => 1#8) (machineOf disk bytes)
      (writeBlock disk (offset / pageSize) fun _ => 1#8) (buf + firstSize buf count)
      (blockStart (offset + firstSize buf count)) (fullSize buf count).toNat (blockStart offset) =
      1#8 := by
    unfold writeFull
    split_ifs with hrange
    · rw [load_machineOf]
      apply hbytes
      unfold blockStart at hrange ⊢
      rw [toNat_add, toNat_add, toNat_ofNat]
      omega
    · exact if_pos hblock
  unfold written
  rw [if_pos (mt mod_page_eq_zero.mp halign)]
  split_ifs
  · exact hdisk
  · unfold writeBlock at hdisk ⊢
    split_ifs
    · rfl
    · exact hdisk

section

variable {buf count offset : U64} (h : ByteAccurate buf count offset .write)

include h

/-- A buffer that is not aligned: the byte at the beginning of the block is neither what it was nor
    the first of the buffer. -/
theorem aligned_of_byteAccurate : buf.toNat % 4096 = 0 := by
  by_contra halign
  have heq := congrFun (written_of_byteAccurate h (fun _ => 1#8) (fun _ => 0#8)
    fun v => if v = buf then 0#8 else 1#8) (blockStart offset)
  have hbytes : ∀ v : U64, v.toNat % 4096 = 0 → (if v = buf then 0#8 else 1#8) = 1#8 := by
    intro v hv
    refine if_neg fun hbuf => halign ?_
    rw [← hbuf, hv]
  rw [written_of_unaligned halign hbytes] at heq
  unfold writeFull blockStart at heq
  split_ifs at heq with hrange
  · rw [show offset.toNat / 4096 * 4096 - offset.toNat = 0 by omega, BitVec.add_zero,
      load_machineOf, if_pos rfl] at heq
    cases heq
  · cases heq

/-- A part at the end: a page of the kernel is on the disk. -/
theorem count_of_byteAccurate (halign : buf.toNat % 4096 = 0) : count.toNat % 4096 = 0 := by
  by_contra hcount
  have heq := congrFun (written_of_byteAccurate h (fun _ => 1#8) (fun _ => 0#8) fun _ => 0#8)
    (blockStart (offset + fullSize buf count))
  rw [written_of_aligned offset halign, if_neg hcount] at heq
  have hblock : blockStart (offset + fullSize buf count) / 4096 =
      ((offset + fullSize buf count) / pageSize).toNat := by
    rw [toNat_div_page, blockStart]
    omega
  unfold writeBlock writeFull at heq
  simp only [hblock, if_true, load_machineOf, ite_self] at heq
  cases heq

/-- Full blocks: they begin where a block begins. -/
theorem offset_of_byteAccurate (halign : buf.toNat % 4096 = 0) (hcount : count ≠ 0#64) :
    offset.toNat % 4096 = 0 := by
  by_contra hoffset
  have hrest := count_of_byteAccurate h halign
  have hpos : count.toNat ≠ 0 := fun h0 => hcount (BitVec.eq_of_toNat_eq h0)
  have heq := congrFun (written_of_byteAccurate h (fun _ => 0#8) (fun _ => 0#8) fun _ => 1#8)
    (blockStart offset)
  rw [written_of_aligned offset halign, if_pos hrest] at heq
  unfold writeFull at heq
  rw [if_pos ⟨le_refl _, by omega⟩, load_machineOf,
    if_neg (by unfold blockStart; omega)] at heq
  cases heq

end

theorem byteAccurate_write_iff (buf count offset : U64) :
    ByteAccurate buf count offset .write ↔ Supported buf count offset .write := by
  constructor
  · intro h
    have halign := aligned_of_byteAccurate h
    refine ⟨halign, ?_⟩
    by_cases hcount : count = 0#64
    · exact .inl hcount
    · exact .inr ⟨offset_of_byteAccurate h halign hcount, count_of_byteAccurate h halign⟩
  · intro h env s s' result hrun
    obtain ⟨hresult, hdisk⟩ := readWrite_write hrun
    obtain ⟨halign, hsupported⟩ := h
    refine ⟨hresult, hdisk.trans ?_⟩
    rw [written_of_aligned offset halign]
    rcases hsupported with rfl | ⟨hoffset, hcount⟩
    · dsimp only
      rw [show (0#64).toNat = 0 from rfl, if_pos (Nat.zero_mod _), Nat.zero_div, Nat.zero_mul,
        writeFull_zero, writeFull_zero]
    · dsimp only
      rw [if_pos hcount, blockStart, Nat.div_mul_cancel (Nat.dvd_of_mod_eq_zero hoffset),
        Nat.div_mul_cancel (Nat.dvd_of_mod_eq_zero hcount)]

/-- **Block transfers.** -/
theorem byteAccurate_iff (buf count offset : U64) (d : Direction) :
    ByteAccurate buf count offset d ↔ Supported buf count offset d := by
  cases d with
  | read => exact byteAccurate_read_iff buf count offset
  | write => exact byteAccurate_write_iff buf count offset

/-- One byte at offset 1. -/
theorem read_unaligned_offset : ¬ ByteAccurate 0x1000#64 1#64 1#64 .read := by
  rw [byteAccurate_read_iff]
  decide

end Fishix.Dev.Block
