import Fishix.Common.Word
import Fishix.Fs.Directories

/-!
# The initramfs archive

Model of `initramfs::load_into` (fs/initramfs.cpp) with `USTARHeader` (fs/initramfs.hpp:7-24), and
what a ustar archive is. Memory is a list of bytes from a pointer on, and the archive is what is
behind `file_addr`.

`octal_to_bin` stops at a NUL, not at the space that may end a number, and `read_path` puts the
prefix of the member in front of what a link names, too.

* `octalToBin_field`: what `octal_to_bin` makes of a number that a NUL ends.
* `readPath_eq`: `read_path` puts a path together.
* `loadInto_members`: `load_into` takes the members of an archive one after the other.
-/

namespace Fishix.Fs

open BitVec (ofNat toNat_ofNat toNat_add eq_of_toNat_eq toNat_sub)

/-! ## The header -/

/-- A field of the header at `m`. -/
def field (m : List CChar) (offset size : ℕ) : List CChar := (m.drop offset).take size

namespace Ustar

def name (m : List CChar) : List CChar := field m 0 100
def size (m : List CChar) : List CChar := field m 124 12
def typeflag (m : List CChar) : CChar := m.getD 156 0#8
def linkname (m : List CChar) : List CChar := field m 157 100
def magic (m : List CChar) : List CChar := field m 257 6
def devmajor (m : List CChar) : List CChar := field m 329 8
def devminor (m : List CChar) : List CChar := field m 337 8
def pathPrefix (m : List CChar) : List CChar := field m 345 155

end Ustar

/-- `octal_to_bin` (fs/initramfs.cpp:9-17) of a field of `len` bytes. -/
def octalToBin (str : List CChar) (len : ℕ) : U64 :=
  ((str.take (len - 1)).takeWhile (· ≠ 0#8)).foldl
    (fun value c => value * 8#64 + (c.signExtend 64 - 0x30#64)) 0#64

/-- `read_path` (fs/initramfs.cpp:19-33): the 257 bytes of `dest`, which are zero before. -/
def readPath (name pathPrefix : List CChar) : List CChar :=
  if pathPrefix.head? = some 0#8 then name.take 100 ++ List.replicate 157 0#8
  else
    let prefixLen := ((pathPrefix.take 155).takeWhile (· ≠ 0#8)).length
    pathPrefix.take prefixLen ++ slash :: (name.take 100 ++ List.replicate (156 - prefixLen) 0#8)

/-! ## The loader -/

/-- `make_dev_id` (dev/devnode.hpp:97-99). -/
def makeDevId (major minor : BitVec 32) : U64 :=
  (minor &&& 0xff#32).setWidth 64 ||| ((major &&& 0xfff#32) <<< 8).setWidth 64 |||
    ((minor &&& ~~~0xff#32).setWidth 64 <<< 12) ||| ((major &&& ~~~0xfff#32).setWidth 64 <<< 32)

/-- The devices that `create_node` makes nodes for (dev/devnode.cpp:25-49). -/
structure Devices where
  isChar : U64 → Bool := fun _ => false
  isBlock : U64 → Bool := fun _ => false

/-- `entry->vnode = create_node(...)` with `create` behind it: `tmpfs` makes a node where the device
    is unknown. -/
def Vfs.createDevice (v : Vfs) (e : EntryId) (type : NodeType) (known : Bool) : Except Fault Vfs :=
  if known then v.createNode e ⟨type, none⟩ else v.create e type

/-- The `switch` over `typeflag` (fs/initramfs.cpp:66-96) for the member at `m`. -/
def loadNode (calls : ℕ) (devices : Devices) (dir : EntryId) (m : List CChar) (e : EntryId)
    (v : Vfs) : Except Fault Vfs :=
  let type := Ustar.typeflag m
  let devId := makeDevId ((octalToBin (Ustar.devmajor m) 8).setWidth 32)
    ((octalToBin (Ustar.devminor m) 8).setWidth 32)
  let currentLinkPath := readPath (Ustar.linkname m) (Ustar.pathPrefix m)
  if type = 0x30#8 ∨ type = 0#8 then do
    let v ← v.create e .regular
    let data ← orFault .overrun (memcpyFrom (m.drop 512) (octalToBin (Ustar.size m) 12).toNat)
    return v.writeStart e data
  else if type = 0x31#8 then do
    let (o, v) ← pathToEntry v true calls currentLinkPath (some dir)
    let v := v.shareNode e o
    if (v.entry e).vnode = none then .error .assertion else v.createLink e
  else if type = 0x32#8 then do
    let v ← v.create e .symlink
    return v.writeStart e (cstr currentLinkPath)
  else if type = 0x33#8 then v.createDevice e .charDevice (devices.isChar devId)
  else if type = 0x34#8 then v.createDevice e .blockDevice (devices.isBlock devId)
  else if type = 0x35#8 then v.create e .directory
  else .ok v

/-- One turn of the loop of `load_into` (fs/initramfs.cpp:51-103) up to the next header. -/
def loadMember (calls : ℕ) (devices : Devices) (dir : EntryId) (m : List CChar) (v : Vfs) :
    Except Fault Vfs := do
  let currentPath := readPath (Ustar.name m) (Ustar.pathPrefix m)
  if cstr currentPath = chars "./" then return v
  else do
    let (e, v) ← pathToEntry v true calls currentPath (some dir)
    if (v.entry e).vnode ≠ none then .error .assertion else loadNode calls devices dir m e v

/-- `align_up` (klib/algorithm.hpp:22-24). -/
def alignUp (i alignment : U64) : U64 :=
  if i % alignment ≠ 0#64 then (i / alignment + 1#64) * alignment else i

/-- `load_into` (fs/initramfs.cpp:35-109) from the header at `current` on, in at most `turns`
    turns. -/
def loadInto (calls : ℕ) (devices : Devices) (dir : EntryId) (file : List CChar)
    (fileAddr fileSize : U64) : ℕ → U64 → Vfs → Except Fault Vfs
  | 0, _, _ => .error .outOfCalls
  | turns + 1, current, v => do
    let m := file.drop (current - fileAddr).toNat
    if m.length < 512 then .error .overrun
    else if (Ustar.magic m).take 5 ≠ chars "ustar" then return v
    else do
      let v ← loadMember calls devices dir m v
      let current := current + 512#64 + alignUp (octalToBin (Ustar.size m) 12) 512#64
      if fileAddr + fileSize ≤ current then return v
      else loadInto calls devices dir file fileAddr fileSize turns current v

/-! ## Archives -/

inductive MemberType
  | regular | hardLink | symlink | charDevice | blockDevice | directory | fifo | contiguous
  deriving DecidableEq

/-- What a `typeflag` stands for. -/
def memberType (flag : CChar) : Option MemberType :=
  match flag.toNat with
  | 0x00 | 0x30 => some .regular
  | 0x31 => some .hardLink
  | 0x32 => some .symlink
  | 0x33 => some .charDevice
  | 0x34 => some .blockDevice
  | 0x35 => some .directory
  | 0x36 => some .fifo
  | 0x37 => some .contiguous
  | _ => none

/-- A member: its header block and the bytes of its file. -/
structure Member where
  header : List CChar
  data : List CChar
  deriving DecidableEq

namespace Member

def type (m : Member) : Option MemberType := memberType (Ustar.typeflag m.header)

end Member

/-- The digits of a number of the base 8, with spaces or NULs behind them. -/
structure OctalField (f : List CChar) (digits : List CChar) : Prop where
  split : ∃ ends, f = digits ++ ends ∧ ends ≠ [] ∧ ∀ c ∈ ends, c = 0#8 ∨ c = 0x20#8
  nonempty : digits ≠ []
  digit : ∀ c ∈ digits, 0x30 ≤ c.toNat ∧ c.toNat ≤ 0x37

/-- The number that the digits stand for. -/
def octalValue (digits : List CChar) : ℕ := digits.foldl (fun n c => n * 8 + (c.toNat - 0x30)) 0

/-- A header block of a ustar archive. Files alone have data. -/
structure IsHeader (m : Member) : Prop where
  length : m.header.length = 512
  magic : Ustar.magic m.header = chars "ustar" ++ [0#8]
  size : ∃ digits, OctalField (Ustar.size m.header) digits ∧ octalValue digits = m.data.length
  type : m.type ≠ none
  data : m.type ≠ some .regular → m.type ≠ some .contiguous → m.data = []

/-- The bytes of an archive: every file is filled up to whole blocks, and two blocks of zeros end
    it. -/
inductive IsArchive : List CChar → List Member → Prop
  | finish (rest : List CChar) : IsArchive (List.replicate 1024 0#8 ++ rest) []
  | member {m : Member} {filling image : List CChar} {ms : List Member} (header : IsHeader m)
      (fill : filling.length = (512 - m.data.length % 512) % 512) (rest : IsArchive image ms) :
      IsArchive (m.header ++ (m.data ++ (filling ++ image))) (m :: ms)

/-! ## Numbers -/

/-- The digits, read one after the other. -/
theorem octal_foldl {digits : List CChar}
    (h : ∀ c ∈ digits, 0x30 ≤ c.toNat ∧ c.toNat ≤ 0x37) (n : ℕ) :
    digits.foldl (fun value c => value * 8#64 + (c.signExtend 64 - 0x30#64)) (ofNat 64 n) =
      ofNat 64 (digits.foldl (fun n c => n * 8 + (c.toNat - 0x30)) n) := by
  induction digits generalizing n with
  | nil => rfl
  | cons c digits ih =>
    obtain ⟨hlow, hhigh⟩ := h c List.mem_cons_self
    have hdigit : c.signExtend 64 - 0x30#64 = ofNat 64 (c.toNat - 0x30) := by
      have hpositive : c.msb = false := by
        rw [BitVec.msb_eq_false_iff_two_mul_lt]
        omega
      rw [BitVec.signExtend_eq_setWidth_of_msb_false hpositive]
      apply eq_of_toNat_eq
      simp only [toNat_sub, BitVec.toNat_setWidth, toNat_ofNat]
      omega
    rw [List.foldl_cons, List.foldl_cons, hdigit, ← ih fun d hd => h d (List.mem_cons_of_mem _ hd)]
    congr 1
    apply eq_of_toNat_eq
    simp only [toNat_add, BitVec.toNat_mul, toNat_ofNat]
    omega

theorem octalValue_lt {digits : List CChar}
    (h : ∀ c ∈ digits, 0x30 ≤ c.toNat ∧ c.toNat ≤ 0x37) : octalValue digits < 8 ^ digits.length := by
  have hfold : ∀ n, digits.foldl (fun n c => n * 8 + (c.toNat - 0x30)) n <
      (n + 1) * 8 ^ digits.length := by
    induction digits with
    | nil =>
      intro n
      simp
    | cons c digits ih =>
      intro n
      have hc := h c List.mem_cons_self
      have hrest := ih (fun d hd => h d (List.mem_cons_of_mem _ hd)) (n * 8 + (c.toNat - 0x30))
      have hle : (n * 8 + (c.toNat - 0x30) + 1) * 8 ^ digits.length ≤
          (n + 1) * 8 * 8 ^ digits.length := by
        apply Nat.mul_le_mul_right
        omega
      rw [List.foldl_cons, List.length_cons, pow_succ, mul_comm (8 ^ digits.length) 8, ← mul_assoc]
      omega
  simpa [octalValue] using hfold 0

/-- `octal_to_bin` reads a number of twelve bytes that a NUL ends, or one of eleven digits. -/
theorem octalToBin_field {f digits : List CChar} (h : OctalField f digits) (hlen : f.length = 12)
    (hspace : 0x20#8 ∉ f.take 11) :
    (octalToBin f 12).toNat = octalValue digits ∧ octalValue digits < 2 ^ 33 := by
  obtain ⟨ends, rfl, hne, hends⟩ := h.split
  have hpos : 0 < ends.length := List.length_pos_of_ne_nil hne
  have hshort : digits.length ≤ 11 := by
    rw [List.length_append] at hlen
    omega
  have hbound : octalValue digits < 2 ^ 33 := by
    calc octalValue digits < 8 ^ digits.length := octalValue_lt h.digit
      _ ≤ 8 ^ 11 := Nat.pow_le_pow_right (by omega) hshort
      _ = 2 ^ 33 := by norm_num
  refine ⟨?_, hbound⟩
  have htake : (digits ++ ends).take 11 = digits ++ ends.take (11 - digits.length) := by
    rw [List.take_append, List.take_of_length_le hshort]
  -- behind the digits there is a NUL, or nothing
  have hstop : (ends.take (11 - digits.length)).takeWhile (· ≠ 0#8) = [] := by
    cases hcase : ends.take (11 - digits.length) with
    | nil => rfl
    | cons c rest =>
      have hc : c ∈ ends.take (11 - digits.length) := by
        rw [hcase]
        exact List.mem_cons_self
      rcases hends c (List.mem_of_mem_take hc) with rfl | rfl
      · simp
      · exact absurd (htake ▸ List.mem_append_right _ hc) hspace
  have hread : ((digits ++ ends).take 11).takeWhile (· ≠ 0#8) = digits := by
    rw [htake, List.takeWhile_append_of_pos, hstop, List.append_nil]
    intro c hc
    have hlow := (h.digit c hc).1
    have hc0 : c ≠ 0#8 := by
      rintro rfl
      simp at hlow
    simpa using hc0
  unfold octalToBin
  rw [show 12 - 1 = 11 from rfl, hread, show (0#64 : U64) = ofNat 64 0 from rfl,
    octal_foldl h.digit 0, toNat_ofNat]
  exact Nat.mod_eq_of_lt (Nat.lt_trans hbound (by norm_num))

/-! ## Paths -/

theorem cstr_field_zeros (f : List CChar) (n : ℕ) : cstr (f ++ List.replicate n 0#8) = cstr f := by
  by_cases h0 : 0#8 ∈ f
  · obtain ⟨t, ht⟩ := eq_cstr_append h0
    have h0' : 0#8 ∉ cstr f := not_mem_cstr f
    generalize cstr f = p at ht h0'
    subst ht
    rw [List.append_assoc, List.cons_append, cstr_append h0']
  · rw [cstr_append_zeros h0, cstr_of_not_mem h0]

theorem field_zeros (f : List CChar) (n : ℕ) :
    ∃ tail, f ++ List.replicate (n + 1) 0#8 = cstr f ++ 0#8 :: tail := by
  obtain ⟨tail, htail⟩ := eq_cstr_append (m := f ++ List.replicate (n + 1) 0#8) (by simp)
  rw [cstr_field_zeros] at htail
  exact ⟨tail, htail⟩

/-- `read_path` puts the prefix, a slash and the name together. -/
theorem readPath_eq {name pathPrefix : List CChar} (hname : name.length = 100)
    (hpathPrefix : pathPrefix.length = 155) : ∃ tail, readPath name pathPrefix =
      (if cstr pathPrefix = [] then cstr name else cstr pathPrefix ++ slash :: cstr name) ++
        0#8 :: tail := by
  have htake : name.take 100 = name := List.take_of_length_le (by omega)
  have hwhole : pathPrefix.take 155 = pathPrefix := List.take_of_length_le (by omega)
  unfold readPath
  rw [htake, hwhole]
  cases hcase : pathPrefix with
  | nil => simp [hcase] at hpathPrefix
  | cons c rest =>
    by_cases hc : c = 0#8
    · have hnone : cstr (c :: rest) = [] := by simp [cstr, hc]
      rw [if_pos (by simp [hc]), if_pos hnone]
      exact field_zeros name 156
    · have hsome : cstr (c :: rest) ≠ [] := by simp [cstr, hc]
      rw [if_neg (by simpa using hc), if_neg hsome]
      have hlen : (cstr (c :: rest)).length ≤ 155 := by
        rw [← hpathPrefix, hcase]
        exact (List.takeWhile_prefix _).length_le
      obtain ⟨tail, htail⟩ := field_zeros name (155 - (cstr (c :: rest)).length)
      refine ⟨tail, ?_⟩
      rw [show 155 - (cstr (c :: rest)).length + 1 = 156 - (cstr (c :: rest)).length by omega] at htail
      have hcopy : (c :: rest).take (cstr (c :: rest)).length = cstr (c :: rest) :=
        List.prefix_iff_eq_take.mp (List.takeWhile_prefix _) |>.symm
      show (c :: rest).take (cstr (c :: rest)).length ++ slash :: (name ++
        List.replicate (156 - (cstr (c :: rest)).length) 0#8) = _
      rw [htail, hcopy, List.append_assoc, List.cons_append]

/-- Fields that no NUL ends. -/
theorem readPath_eq_full : ∃ tail, readPath (List.replicate 100 97#8) (List.replicate 155 98#8) =
    (if cstr (List.replicate 155 98#8) = [] then cstr (List.replicate 100 97#8)
      else cstr (List.replicate 155 98#8) ++ slash :: cstr (List.replicate 100 97#8)) ++
        0#8 :: tail :=
  readPath_eq List.length_replicate List.length_replicate

theorem field_append {m rest : List CChar} {offset size : ℕ} (h : offset + size ≤ m.length) :
    field (m ++ rest) offset size = field m offset size := by
  unfold field
  rw [List.drop_append_of_le_length (by omega), List.take_append_of_le_length]
  rw [List.length_drop]
  omega

theorem length_field {m : List CChar} {offset size : ℕ} (h : offset + size ≤ m.length) :
    (field m offset size).length = size := by
  unfold field
  rw [List.length_take, List.length_drop]
  omega

/-! ## The loop -/

section Loop

variable {m : Member} {calls : ℕ} {devices : Devices} {dir : EntryId}

theorem length_alignUp {n : ℕ} (h : n < 2 ^ 33) {size : U64} (hsize : size.toNat = n) :
    (alignUp size 512#64).toNat = n + (512 - n % 512) % 512 := by
  have hmod : (size % 512#64).toNat = n % 512 := by
    rw [BitVec.toNat_umod, hsize]
    rfl
  have hdiv : (size / 512#64).toNat = n / 512 := by
    rw [BitVec.toNat_udiv, hsize]
    rfl
  unfold alignUp
  by_cases hzero : size % 512#64 = 0#64
  · rw [if_neg (not_not.mpr hzero), hsize]
    rw [hzero] at hmod
    have hmod : 0 = n % 512 := hmod
    omega
  · have hne : n % 512 ≠ 0 := by
      intro hn
      apply hzero
      apply eq_of_toNat_eq
      rw [hmod, hn]
      rfl
    rw [if_pos hzero, BitVec.toNat_mul, toNat_add, hdiv]
    simp only [toNat_ofNat]
    omega

/-- What `load_into` makes of one member. -/
def Member.load (calls : ℕ) (devices : Devices) (dir : EntryId) (v : Vfs) (m : Member) :
    Except Fault Vfs := loadMember calls devices dir (m.header ++ m.data) v

/-- What stands behind a member does not matter. -/
theorem loadMember_append (h : m.header.length = 512)
    (hsize : (octalToBin (Ustar.size m.header) 12).toNat = m.data.length) (rest : List CChar)
    (v : Vfs) : loadMember calls devices dir (m.header ++ (m.data ++ rest)) v =
      m.load calls devices dir v := by
  have hfield : ∀ rest offset size, offset + size ≤ 512 →
      field (m.header ++ rest) offset size = field m.header offset size :=
    fun rest offset size hle => field_append (by omega)
  have htype : ∀ rest, Ustar.typeflag (m.header ++ rest) = Ustar.typeflag m.header := by
    intro rest
    unfold Ustar.typeflag
    rw [List.getD_eq_getElem?_getD, List.getElem?_append_left (by omega),
      ← List.getD_eq_getElem?_getD]
  have hdata : ∀ rest, memcpyFrom ((m.header ++ (m.data ++ rest)).drop 512) m.data.length =
      some m.data := by
    intro rest
    rw [← h, List.drop_left]
    simp [memcpyFrom]
  have hdata' : memcpyFrom ((m.header ++ m.data).drop 512) m.data.length = some m.data := by
    have := hdata []
    rwa [List.append_nil] at this
  have hname : ∀ rest, Ustar.name (m.header ++ rest) = Ustar.name m.header :=
    fun rest => hfield rest 0 100 (by omega)
  have hlink : ∀ rest, Ustar.linkname (m.header ++ rest) = Ustar.linkname m.header :=
    fun rest => hfield rest 157 100 (by omega)
  have hpathPrefix : ∀ rest, Ustar.pathPrefix (m.header ++ rest) = Ustar.pathPrefix m.header :=
    fun rest => hfield rest 345 155 (by omega)
  have hsizes : ∀ rest, Ustar.size (m.header ++ rest) = Ustar.size m.header :=
    fun rest => hfield rest 124 12 (by omega)
  have hmajor : ∀ rest, Ustar.devmajor (m.header ++ rest) = Ustar.devmajor m.header :=
    fun rest => hfield rest 329 8 (by omega)
  have hminor : ∀ rest, Ustar.devminor (m.header ++ rest) = Ustar.devminor m.header :=
    fun rest => hfield rest 337 8 (by omega)
  unfold Member.load loadMember loadNode
  simp only [hname, hlink, hpathPrefix, hsizes, hmajor, hminor, htype, hsize, hdata, hdata']

variable {file : List CChar} {fileAddr fileSize : U64}

theorem IsArchive.length {image : List CChar} {ms : List Member} (h : IsArchive image ms) :
    1024 ≤ image.length := by
  induction h with
  | finish rest =>
    rw [List.length_append, List.length_replicate]
    omega
  | member _ _ _ ih =>
    simp only [List.length_append]
    omega

/-- The loop takes the members one after the other, and stops at the blocks of zeros. -/
theorem loadInto_members (hfit : fileAddr.toNat + file.length < 2 ^ 64)
    (hfile : fileSize.toNat = file.length) {image : List CChar} {ms : List Member}
    (himage : IsArchive image ms) :
    ∀ {turns : ℕ} {current : U64} {v : Vfs} {pre : List CChar}, file = pre ++ image →
      current.toNat = fileAddr.toNat + pre.length →
      (∀ m ∈ ms, 0x20#8 ∉ (Ustar.size m.header).take 11) → ms.length < turns →
      loadInto calls devices dir file fileAddr fileSize turns current v =
        ms.foldlM (Member.load calls devices dir) v := by
  induction himage with
  | finish rest =>
    intro turns current v pre hpre hcurrent _ hturns
    obtain ⟨turns, rfl⟩ := Nat.exists_eq_add_of_lt hturns
    have hlen : file.length = pre.length + (1024 + rest.length) := by
      rw [hpre, List.length_append, List.length_append, List.length_replicate]
    have hoffset : (current - fileAddr).toNat = pre.length := by
      rw [toNat_sub]
      omega
    have hdrop : file.drop (current - fileAddr).toNat = List.replicate 1024 0#8 ++ rest := by
      rw [hoffset, hpre, List.drop_left]
    have hmagic : (Ustar.magic (List.replicate 1024 0#8 ++ rest)).take 5 ≠ chars "ustar" := by
      unfold Ustar.magic
      rw [field_append (by rw [List.length_replicate]; omega), field, List.drop_replicate,
        List.take_replicate, List.take_replicate]
      decide
    unfold loadInto
    simp only [hdrop]
    rw [if_neg (by simp only [List.length_append, List.length_replicate]; omega), if_pos hmagic]
    rfl
  | @member m filling image ms header fill rest ih =>
    intro turns current v pre hpre hcurrent hspace hturns
    obtain ⟨turns, rfl⟩ := Nat.exists_eq_add_of_lt (Nat.zero_lt_of_lt hturns)
    obtain ⟨digits, hdigits, hvalue⟩ := header.size
    obtain ⟨hsize, hbound⟩ := octalToBin_field hdigits
      (length_field (by rw [header.length]; omega)) (hspace m List.mem_cons_self)
    rw [hvalue] at hsize hbound
    have himage := rest.length
    have hheader := header.length
    have hlen : file.length = pre.length + (512 + (m.data.length + (filling.length + image.length))) := by
      rw [hpre]
      simp only [List.length_append, hheader]
    have hoffset : (current - fileAddr).toNat = pre.length := by
      rw [toNat_sub]
      omega
    have hdrop : file.drop (current - fileAddr).toNat =
        m.header ++ (m.data ++ (filling ++ image)) := by
      rw [hoffset, hpre, List.drop_left]
    have hsizes : Ustar.size (m.header ++ (m.data ++ (filling ++ image))) = Ustar.size m.header :=
      field_append (by omega)
    have hmagics : Ustar.magic (m.header ++ (m.data ++ (filling ++ image))) = Ustar.magic m.header :=
      field_append (by omega)
    have hnext : (current + 512#64 + alignUp (octalToBin (Ustar.size m.header) 12) 512#64).toNat =
        fileAddr.toNat + (pre ++ (m.header ++ (m.data ++ filling))).length := by
      have halign := length_alignUp hbound hsize
      rw [toNat_add, toNat_add, halign]
      simp only [List.length_append, hheader, fill, toNat_ofNat]
      omega
    have hgo : ¬fileAddr + fileSize ≤
        current + 512#64 + alignUp (octalToBin (Ustar.size m.header) 12) 512#64 := by
      rw [BitVec.le_def, hnext, toNat_add, hfile, Nat.mod_eq_of_lt hfit, hlen]
      simp only [List.length_append, hheader]
      omega
    have hfile : file = (pre ++ (m.header ++ (m.data ++ filling))) ++ image := by
      rw [hpre]
      simp only [List.append_assoc]
    rw [List.foldlM_cons]
    unfold loadInto
    simp only [hdrop, hsizes, hmagics, header.magic]
    rw [if_neg (by simp only [List.length_append]; omega), if_neg (by decide),
      loadMember_append hheader hsize]
    congr 1
    funext v1
    rw [if_neg hgo]
    exact ih hfile hnext (fun d hd => hspace d (List.mem_cons_of_mem _ hd))
      (Nat.lt_of_succ_lt_succ hturns)

end Loop

/-- A directory `d`, and a file in it. -/
def dirMember : Member where
  header := chars "d/" ++ List.replicate 122 0#8 ++ chars "0" ++ List.replicate 31 0#8 ++
    chars "5" ++ List.replicate 100 0#8 ++ chars "ustar" ++ List.replicate 250 0#8
  data := []

def fileMember : Member where
  header := chars "d/a" ++ List.replicate 121 0#8 ++ chars "3" ++ List.replicate 31 0#8 ++
    chars "0" ++ List.replicate 100 0#8 ++ chars "ustar" ++ List.replicate 250 0#8
  data := chars "hi!"

/-- Their archive. -/
theorem loadInto_members_two :
    loadInto 2 {} 0 (dirMember.header ++ (fileMember.header ++ (chars "hi!" ++
        List.replicate 1533 0#8))) 0x1000#64 2560#64 3 0x1000#64 Vfs.booted =
      [dirMember, fileMember].foldlM (Member.load 2 {} 0) Vfs.booted := by
  have hdirSize : OctalField (Ustar.size dirMember.header) (chars "0") :=
    ⟨⟨List.replicate 11 0#8, by decide +kernel⟩, by decide, by decide⟩
  have hdir : IsHeader dirMember :=
    ⟨by decide +kernel, by decide +kernel, ⟨_, hdirSize, rfl⟩, by decide +kernel, fun _ _ => rfl⟩
  have hfileSize : OctalField (Ustar.size fileMember.header) (chars "3") :=
    ⟨⟨List.replicate 11 0#8, by decide +kernel⟩, by decide, by decide⟩
  have hregular : fileMember.type = some .regular := by decide +kernel
  have hfile : IsHeader fileMember :=
    ⟨by decide +kernel, by decide +kernel, ⟨_, hfileSize, rfl⟩, by decide +kernel,
      fun h => absurd hregular h⟩
  have himage : IsArchive (dirMember.header ++ ([] ++ ([] ++ (fileMember.header ++ (chars "hi!" ++
      (List.replicate 509 0#8 ++ (List.replicate 1024 0#8 ++ []))))))) [dirMember, fileMember] :=
    .member hdir rfl (.member hfile (List.length_replicate.trans rfl) (.finish []))
  have hbytes : dirMember.header ++ (fileMember.header ++ (chars "hi!" ++ List.replicate 1533 0#8)) =
      [] ++ (dirMember.header ++ ([] ++ ([] ++ (fileMember.header ++ (chars "hi!" ++
        (List.replicate 509 0#8 ++ (List.replicate 1024 0#8 ++ []))))))) := by
    simp only [List.nil_append, List.append_nil, List.replicate_append_replicate, Nat.reduceAdd]
  exact loadInto_members (by decide +kernel) (by decide +kernel) himage hbytes rfl
    (by decide +kernel) (by decide)

end Fishix.Fs
