import Fishix.Common.ByteMemory
import Fishix.Common.Observed
import Fishix.Fs.Expansion
import Fishix.Fs.Ustar

/-!
# What the archive loader reads

`load_into` (fs/initramfs.cpp:35-105) on any bytes. It looks at a header before it compares its
address with the end of the file, takes the data of a file without asking where the file ends, and
goes on by whatever `octal_to_bin` has made of the size, whose characters may be any. A path may lead
through links that earlier members have made, to no end, or to what is there already.

Memory is what it was when the walk began, and there is always room for another file.

* `loadMember_returns`: the members that are loaded.
* `headerFits_iff`: what a turn reads, and where it comes to, in terms of the header.
* `loadInto_in_bounds`: the loader returns, keeps within the file and advances exactly if every
  header that it comes to fits.
-/

namespace Fishix.Fs

open Relation (ReflTransGen)

/-! ## A turn -/

/-- The archive in memory. -/
structure ArchiveFile where
  mem : ByteMemory
  fileAddr : U64
  fileSize : U64

/-- The address behind the archive. -/
def ArchiveFile.stop (file : ArchiveFile) : ℕ := file.fileAddr.toNat + file.fileSize.toNat

/-- `current`, and the file system as far as it has been filled. -/
structure WalkState where
  current : U64
  vfs : Vfs

/-- How far `octal_to_bin` reads a field: up to the NUL, or through the last byte. -/
def octalRead (f : List CChar) : ℕ := ((f.take (f.length - 1)).takeWhile (· ≠ 0#8)).length + 1

/-- How far `read_path` reads the prefix. -/
def prefixRead (pathPrefix : List CChar) : ℕ :=
  min 155 ((pathPrefix.takeWhile (· ≠ 0#8)).length + 1)

/-- What is read of a header behind its magic, offsets and lengths: the numbers and the paths
    (fs/initramfs.cpp:41-57). -/
def headerReads (m : List CChar) : List (ℕ × ℕ) :=
  [(124, octalRead (Ustar.size m)), (329, octalRead (Ustar.devmajor m)),
    (337, octalRead (Ustar.devminor m)), (100, octalRead (field m 100 8)),
    (136, octalRead (field m 136 12)), (345, prefixRead (Ustar.pathPrefix m)), (0, 100), (157, 100)]

section Turn

variable (calls : ℕ) (devices : Devices) (dir : EntryId) (file : ArchiveFile) (s : WalkState)

/-- The entry that a member gets, unless the path is `./` or stands for something already
    (fs/initramfs.cpp:63-65). -/
def memberEntry (m : List CChar) (v : Vfs) : Option (EntryId × Vfs) :=
  let currentPath := readPath (Ustar.name m) (Ustar.pathPrefix m)
  if cstr currentPath = chars "./" then none
  else
    match pathToEntry v true calls currentPath (some dir) with
    | .error _ => none
    | .ok (e, v) => if (v.entry e).vnode = none then some (e, v) else none

/-- The member is a file, and its node has been made (fs/initramfs.cpp:68-70). -/
def makesFile (m : List CChar) (v : Vfs) : Bool :=
  match memberEntry calls dir m v with
  | none => false
  | some (e, v) =>
    (Ustar.typeflag m = 0x30#8 || Ustar.typeflag m = 0#8) && (v.create e .regular).isOk

/-- What is read of a member behind its paths: the type, and the data of a file
    (fs/initramfs.cpp:67-71). -/
def memberReads (m : List CChar) (v : Vfs) : List (ℕ × ℕ) :=
  (if (memberEntry calls dir m v).isSome then [(156, 1)] else []) ++
    if makesFile calls dir m v then [(512, (octalToBin (Ustar.size m) 12).toNat)] else []

/-- The header at `current`. -/
def ArchiveFile.header (file : ArchiveFile) (s : WalkState) : List CChar :=
  file.mem.load s.current 512

/-- The size that the header at `current` gives. -/
def ArchiveFile.memberSize (file : ArchiveFile) (s : WalkState) : U64 :=
  octalToBin (Ustar.size (file.header s)) 12

/-- A member is at `current` (fs/initramfs.cpp:38). -/
def ArchiveFile.isMember (file : ArchiveFile) (s : WalkState) : Bool :=
  (Ustar.magic (file.header s)).take 5 = chars "ustar"

/-- The member at `current`. -/
def ArchiveFile.member (file : ArchiveFile) (s : WalkState) : List CChar :=
  file.mem.load s.current (512 + (file.memberSize s).toNat)

/-- Everything that a turn reads of the archive. -/
def turnReads : List Access :=
  ((257, 5) :: if file.isMember s then
    headerReads (file.header s) ++ memberReads calls dir (file.header s) s.vfs else []).map
      fun r => ⟨s.current.toNat + r.1, r.2⟩

/-- What a turn makes of the file system, and where it comes to with a member
    (fs/initramfs.cpp:37-103). -/
def loadTurn : Except Fault (Vfs × Option U64) :=
  if file.isMember s then do
    let v ← loadMember calls devices dir (file.member s) s.vfs
    return (v, some (s.current + 512#64 + alignUp (file.memberSize s) 512#64))
  else return (s.vfs, none)

end Turn

section Walk

variable (devices : Devices) (dir : EntryId) (file : ArchiveFile) (s : WalkState)

/-- The loader goes on with another turn. -/
def NextTurn (s t : WalkState) : Prop :=
  (∃ calls, loadTurn calls devices dir file s = .ok (t.vfs, some t.current)) ∧
    ¬file.fileAddr + file.fileSize ≤ t.current

/-- The turns that the loader comes to. -/
def Walks (v : Vfs) : Prop := ReflTransGen (NextTurn devices dir file) ⟨file.fileAddr, v⟩ s

/-- Memory from the archive on, as far as any member can reach. -/
def ArchiveFile.bytes (file : ArchiveFile) : List CChar :=
  file.mem.load file.fileAddr (2 ^ 65 + 512)

/-! ## What is asked of a walk -/

/-- The bytes lie in the archive. -/
def ArchiveFile.Inside (file : ArchiveFile) (a : Access) : Prop :=
  a.length = 0 ∨ file.fileAddr.toNat ≤ a.offset ∧ a.stop ≤ file.stop

/-- The loader returns, goes forward with every member, and reads nothing but the archive. -/
structure LoadsInBounds (v : Vfs) : Prop where
  finishes : ∃ turns calls v', loadInto calls devices dir file.bytes file.fileAddr file.fileSize turns
    file.fileAddr v = .ok v'
  forward : ∀ s, Walks devices dir file s v → ∀ calls v' current,
    loadTurn calls devices dir file s = .ok (v', some current) → s.current < current
  inside : ∀ s, Walks devices dir file s v → ∀ calls, ∀ a ∈ turnReads calls dir file s, file.Inside a

/-- The lookup of a path returns: its expansions end, and none runs out of its memory. -/
def Resolvable (v : Vfs) (path : List CChar) : Prop :=
  ¬Cyclic v true (path, some dir) ∧
    ∀ x, ReflTransGen (Leads (expansion v true)) (path, some dir) x → ¬Faults v true x

/-- The lookup returns this entry, and leaves this tree. -/
def Finds (v : Vfs) (path : List CChar) (r : EntryId × Vfs) : Prop :=
  ∃ calls, pathToEntry v true calls path (some dir) = .ok r

/-- The entry has a directory to be put into, and what a hard link names exists. -/
structure NodeLoads (m : List CChar) (e : EntryId) (v : Vfs) : Prop where
  placed : Ustar.typeflag m ∈ [0x30#8, 0#8, 0x32#8, 0x33#8, 0x34#8, 0x35#8] →
    (v.entry e).parent.isSome
  resolvable : Ustar.typeflag m = 0x31#8 →
    Resolvable dir v (readPath (Ustar.linkname m) (Ustar.pathPrefix m))
  linked : Ustar.typeflag m = 0x31#8 →
    ∀ r, Finds dir v (readPath (Ustar.linkname m) (Ustar.pathPrefix m)) r →
      ((r.2.shareNode e r.1).entry e).vnode.isSome ∧ ((r.2.shareNode e r.1).entry e).parent.isSome

/-- The path of the member is `./`, or can be looked up and names nothing yet. -/
structure MemberLoads (m : List CChar) (v : Vfs) : Prop where
  resolvable : cstr (readPath (Ustar.name m) (Ustar.pathPrefix m)) ≠ chars "./" →
    Resolvable dir v (readPath (Ustar.name m) (Ustar.pathPrefix m))
  fresh : cstr (readPath (Ustar.name m) (Ustar.pathPrefix m)) ≠ chars "./" →
    ∀ r, Finds dir v (readPath (Ustar.name m) (Ustar.pathPrefix m)) r →
      (r.2.entry r.1).vnode = none ∧ NodeLoads dir m r.1 r.2

/-- The header at `current` lies in the archive as far as it is read, the data of a file do, the end
    of a member is an address, and the member can be loaded. -/
structure HeaderFits : Prop where
  magic : s.current.toNat + 262 ≤ file.stop
  header : file.isMember s → s.current.toNat + 345 + prefixRead (Ustar.pathPrefix (file.header s)) ≤
    file.stop
  data : file.isMember s → (∃ calls, makesFile calls dir (file.header s) s.vfs) →
    file.memberSize s ≠ 0#64 → s.current.toNat + 512 + (file.memberSize s).toNat ≤ file.stop
  advance : file.isMember s →
    s.current.toNat + 512 + (alignUp (file.memberSize s) 512#64).toNat < 2 ^ 64
  loads : file.isMember s → MemberLoads dir (file.member s) s.vfs

end Walk

/-! ## Members -/

section Members

variable {calls n : ℕ} {devices : Devices} {dir : EntryId} {m path : List CChar} {e : EntryId}
  {v v' : Vfs} {r r' : EntryId × Vfs}

theorem resolvable_iff : Resolvable dir v path ↔ ∃ r, Finds dir v path r := by
  have hends := exists_stepN_eq_none_iff (s := (path, some dir)) (expansion_finite v)
    (fun a b (h : expansion v true a = some b) => expansion_mem h)
  unfold Resolvable Cyclic
  rw [← hends]
  constructor
  · rintro ⟨⟨calls, hnone⟩, hno⟩
    obtain ⟨r, hr⟩ := (pathToEntry_ok_iff calls (path, some dir)).mpr ⟨hnone, hno⟩
    exact ⟨r, calls, hr⟩
  · rintro ⟨r, calls, hr⟩
    obtain ⟨hnone, hno⟩ := (pathToEntry_ok_iff calls (path, some dir)).mp ⟨r, hr⟩
    exact ⟨⟨calls, hnone⟩, hno⟩

theorem Finds.unique (h : Finds dir v path r) (h' : Finds dir v path r') : r = r' := by
  obtain ⟨calls, hr⟩ := h
  obtain ⟨calls', hr'⟩ := h'
  have hmax := pathToEntry_mono (Nat.le_max_left calls calls') hr
  exact Except.ok.inj (hmax.symm.trans (pathToEntry_mono (Nat.le_max_right calls calls') hr'))

theorem create_returns {type : NodeType} :
    (∃ v', v.create e type = .ok v') ↔ (v.entry e).parent.isSome := by
  unfold Vfs.create
  cases (v.entry e).parent with
  | none => simp [orFault]
  | some parent =>
    simp only [orFault, ok_bind, Option.isSome_some, iff_true]
    split_ifs <;> exact ⟨_, rfl⟩

theorem createDevice_returns {type : NodeType} {known : Bool} :
    (∃ v', v.createDevice e type known = .ok v') ↔ (v.entry e).parent.isSome := by
  unfold Vfs.createDevice
  split_ifs
  · unfold Vfs.createNode
    cases (v.entry e).parent with
    | none => simp [orFault]
    | some parent =>
      simp only [orFault, ok_bind, Option.isSome_some, iff_true]
      exact ⟨_, rfl⟩
  · exact create_returns

theorem createLink_returns : (∃ v', v.createLink e = .ok v') ↔ (v.entry e).parent.isSome := by
  unfold Vfs.createLink
  cases (v.entry e).parent with
  | none => simp [orFault]
  | some parent => simp [orFault, pure, Except.pure]

/-- A node is made where there is a directory for the entry. -/
theorem nodeLoads_iff
    (htype : Ustar.typeflag m ∈ [0x30#8, 0#8, 0x32#8, 0x33#8, 0x34#8, 0x35#8]) :
    NodeLoads dir m e v ↔ (v.entry e).parent.isSome := by
  have hno : Ustar.typeflag m ≠ 0x31#8 := by
    intro hlink
    rw [hlink] at htype
    exact absurd htype (by decide)
  exact ⟨fun h => h.placed htype, fun h => ⟨fun _ => h, fun hl => absurd hl hno,
    fun hl => absurd hl hno⟩⟩

theorem loadNode_mono (hle : calls ≤ n) (h : loadNode calls devices dir m e v = .ok v') :
    loadNode n devices dir m e v = .ok v' := by
  unfold loadNode at h ⊢
  simp only at h ⊢
  split_ifs at h ⊢
  on_goal 2 =>
    obtain ⟨r, hr, h⟩ := bind_ok h
    exact bind_ok_iff.mpr ⟨r, pathToEntry_mono hle hr, h⟩
  all_goals exact h

variable (devices) in
theorem loadNode_returns
    (hdata : (memcpyFrom (m.drop 512) (octalToBin (Ustar.size m) 12).toNat).isSome) :
    (∃ calls v', loadNode calls devices dir m e v = .ok v') ↔ NodeLoads dir m e v := by
  obtain ⟨data, hdata⟩ := Option.isSome_iff_exists.mp hdata
  unfold loadNode
  simp only [hdata, orFault, ok_bind]
  split_ifs with hfile hlink hsym hchar hblock hdirectory
  · rw [nodeLoads_iff (by rcases hfile with h | h <;> simp [h]), ← create_returns, exists_const]
    constructor
    · rintro ⟨_, h⟩
      exact (bind_ok h).imp fun _ => And.left
    · rintro ⟨w, hw⟩
      exact ⟨_, bind_ok_iff.mpr ⟨w, hw, rfl⟩⟩
  · constructor
    · rintro ⟨calls, v', h⟩
      obtain ⟨⟨o, w⟩, hr, h⟩ := bind_ok h
      simp only at h
      split_ifs at h with hnode
      refine ⟨fun hmem => ?_, fun _ => resolvable_iff.mpr ⟨_, calls, hr⟩, fun _ r hr' => ?_⟩
      · rw [hlink] at hmem
        exact absurd hmem (by decide)
      · obtain rfl := hr'.unique ⟨calls, hr⟩
        exact ⟨Option.isSome_iff_ne_none.mpr hnode, createLink_returns.mp ⟨v', h⟩⟩
    · intro h
      obtain ⟨⟨o, w⟩, calls, hr⟩ := resolvable_iff.mp (h.resolvable hlink)
      obtain ⟨hnode, hparent⟩ := h.linked hlink _ ⟨calls, hr⟩
      obtain ⟨v', hlinked⟩ := createLink_returns.mpr hparent
      refine ⟨calls, v', bind_ok_iff.mpr ⟨_, hr, ?_⟩⟩
      simp only
      rw [if_neg (Option.isSome_iff_ne_none.mp hnode)]
      exact hlinked
  · rw [nodeLoads_iff (by simp [hsym]), ← create_returns, exists_const]
    constructor
    · rintro ⟨_, h⟩
      exact (bind_ok h).imp fun _ => And.left
    · rintro ⟨w, hw⟩
      exact ⟨_, bind_ok_iff.mpr ⟨w, hw, rfl⟩⟩
  · rw [nodeLoads_iff (by simp [hchar]), exists_const]
    exact createDevice_returns
  · rw [nodeLoads_iff (by simp [hblock]), exists_const]
    exact createDevice_returns
  · rw [nodeLoads_iff (by simp [hdirectory]), exists_const]
    exact create_returns
  · refine ⟨fun _ => ⟨fun hmem => ?_, fun hl => absurd hl hlink, fun hl => absurd hl hlink⟩,
      fun _ => ⟨0, v, rfl⟩⟩
    simp only [List.mem_cons, List.not_mem_nil, or_false] at hmem
    tauto

theorem loadMember_mono (hle : calls ≤ n) (h : loadMember calls devices dir m v = .ok v') :
    loadMember n devices dir m v = .ok v' := by
  unfold loadMember at h ⊢
  simp only at h ⊢
  split_ifs at h ⊢
  · exact h
  · obtain ⟨⟨e, w⟩, hr, h⟩ := bind_ok h
    refine bind_ok_iff.mpr ⟨_, pathToEntry_mono hle hr, ?_⟩
    simp only at h ⊢
    split_ifs at h ⊢
    exact loadNode_mono hle h

variable (devices) in
/-- A member is loaded if its path can be looked up and its node can be made. -/
theorem loadMember_returns
    (hdata : (memcpyFrom (m.drop 512) (octalToBin (Ustar.size m) 12).toNat).isSome) :
    (∃ calls v', loadMember calls devices dir m v = .ok v') ↔ MemberLoads dir m v := by
  unfold loadMember
  simp only
  split_ifs with hdot
  · exact ⟨fun _ => ⟨fun hne => absurd hdot hne, fun hne => absurd hdot hne⟩, fun _ => ⟨0, v, rfl⟩⟩
  constructor
  · rintro ⟨calls, v', h⟩
    obtain ⟨⟨e, w⟩, hr, h⟩ := bind_ok h
    simp only at h
    split_ifs at h with hnode
    refine ⟨fun _ => resolvable_iff.mpr ⟨_, calls, hr⟩, fun _ r hr' => ?_⟩
    obtain rfl := hr'.unique ⟨calls, hr⟩
    exact ⟨not_not.mp hnode, (loadNode_returns devices hdata).mp ⟨calls, v', h⟩⟩
  · intro h
    obtain ⟨⟨e, w⟩, calls, hr⟩ := resolvable_iff.mp (h.resolvable hdot)
    obtain ⟨hnode, hloads⟩ := h.fresh hdot _ ⟨calls, hr⟩
    obtain ⟨n, v', hload⟩ := (loadNode_returns devices hdata).mpr hloads
    refine ⟨max calls n, v', bind_ok_iff.mpr ⟨_, pathToEntry_mono (Nat.le_max_left ..) hr, ?_⟩⟩
    simp only
    rw [if_neg (not_not.mpr hnode)]
    exact loadNode_mono (Nat.le_max_right ..) hload

end Members

/-! ## One turn -/

theorem octalRead_field (m : List CChar) (offset : ℕ) {size : ℕ} (h : 0 < size) :
    octalRead (field m offset size) ≤ size := by
  have hlength : (field m offset size).length ≤ size := List.length_take_le _ _
  have hshort : (((field m offset size).take ((field m offset size).length - 1)).takeWhile
      (· ≠ 0#8)).length ≤ _ := (List.takeWhile_prefix _).length_le
  rw [List.length_take] at hshort
  unfold octalRead
  omega

theorem prefixRead_pos (p : List CChar) : 0 < prefixRead p := by
  unfold prefixRead
  omega

theorem headerReads_le {m : List CChar} {r : ℕ × ℕ} (h : r ∈ headerReads m) :
    r.1 + r.2 ≤ 345 + prefixRead (Ustar.pathPrefix m) := by
  have hpos := prefixRead_pos (Ustar.pathPrefix m)
  have hsize : octalRead (Ustar.size m) ≤ 12 := octalRead_field m 124 (by omega)
  have hmajor : octalRead (Ustar.devmajor m) ≤ 8 := octalRead_field m 329 (by omega)
  have hminor : octalRead (Ustar.devminor m) ≤ 8 := octalRead_field m 337 (by omega)
  have hmode : octalRead (field m 100 8) ≤ 8 := octalRead_field m 100 (by omega)
  have htime : octalRead (field m 136 12) ≤ 12 := octalRead_field m 136 (by omega)
  unfold headerReads at h
  simp only [List.mem_cons, List.not_mem_nil, or_false] at h
  rcases h with rfl | rfl | rfl | rfl | rfl | rfl | rfl | rfl <;> dsimp only <;> omega

theorem toNat_alignUp_mod (i : U64) : (alignUp i 512#64).toNat % 512 = 0 := by
  unfold alignUp
  split_ifs with h
  · rw [BitVec.toNat_mul, show (512#64 : U64).toNat = 512 from rfl]
    omega
  · have hmod := congrArg BitVec.toNat (not_not.mp h)
    rwa [BitVec.toNat_umod] at hmod

theorem toNat_eq_zero {i : U64} : i.toNat = 0 ↔ i = 0#64 := by
  rw [BitVec.toNat_eq]
  rfl

section Turn

variable {calls n : ℕ} {devices : Devices} {dir : EntryId} {file : ArchiveFile} {s : WalkState}
  {v v' : Vfs} {current : U64}

theorem loadTurn_next (h : loadTurn calls devices dir file s = .ok (v', some current)) :
    current = s.current + 512#64 + alignUp (file.memberSize s) 512#64 := by
  unfold loadTurn at h
  split_ifs at h
  · obtain ⟨v1, -, h⟩ := bind_ok h
    exact (Option.some.inj (pure_pair h).2).symm
  · cases Except.ok.inj h

/-- A turn goes forward exactly if the end of the member is an address. -/
theorem forward_iff (h : loadTurn calls devices dir file s = .ok (v', some current)) :
    s.current < current ↔
      s.current.toNat + 512 + (alignUp (file.memberSize s) 512#64).toNat < 2 ^ 64 := by
  have hmod := toNat_alignUp_mod (file.memberSize s)
  have hlt := (alignUp (file.memberSize s) 512#64).isLt
  have hcurrent := s.current.isLt
  rw [loadTurn_next h, BitVec.lt_def, BitVec.toNat_add, BitVec.toNat_add,
    show (512#64 : U64).toNat = 512 from rfl]
  omega

theorem mem_turnReads {a : Access} : a ∈ turnReads calls dir file s ↔
    a = ⟨s.current.toNat + 257, 5⟩ ∨ file.isMember s ∧
      ((∃ r ∈ headerReads (file.header s), a = ⟨s.current.toNat + r.1, r.2⟩) ∨
        (memberEntry calls dir (file.header s) s.vfs).isSome ∧
          a = ⟨s.current.toNat + 156, 1⟩ ∨
        makesFile calls dir (file.header s) s.vfs ∧
          a = ⟨s.current.toNat + 512, (file.memberSize s).toNat⟩) := by
  unfold turnReads memberReads ArchiveFile.memberSize
  rw [List.map_cons, List.mem_cons]
  refine or_congr_right ?_
  by_cases hmember : file.isMember s = true
  · rw [if_pos hmember, List.map_append, List.mem_append, List.map_append, List.mem_append,
      List.mem_map]
    simp only [hmember, true_and, eq_comm]
    refine or_congr_right (or_congr ?_ ?_)
    · split_ifs with hentry <;> simp [hentry]
    · split_ifs with hfile <;> simp [hfile]
  · rw [if_neg hmember]
    simp [hmember]

theorem inside_at {a n : ℕ} : file.Inside ⟨a, n⟩ ↔
    n = 0 ∨ file.fileAddr.toNat ≤ a ∧ a + n ≤ file.stop := Iff.rfl

/-- What a turn reads lies in the archive exactly if the header and the data of a file do. -/
theorem inside_iff (hlow : file.fileAddr.toNat ≤ s.current.toNat) :
    (∀ calls, ∀ a ∈ turnReads calls dir file s, file.Inside a) ↔
      s.current.toNat + 262 ≤ file.stop ∧
      (file.isMember s → s.current.toNat + 345 +
        prefixRead (Ustar.pathPrefix (file.header s)) ≤ file.stop) ∧
      (file.isMember s → (∃ calls, makesFile calls dir (file.header s) s.vfs) →
        file.memberSize s ≠ 0#64 →
          s.current.toNat + 512 + (file.memberSize s).toNat ≤ file.stop) := by
  constructor
  · intro h
    refine ⟨?_, ?_, ?_⟩
    · rcases inside_at.mp (h 0 _ (mem_turnReads.mpr (.inl rfl))) with hnone | ⟨-, hstop⟩
      · cases hnone
      · exact hstop
    · intro hmember
      have hprefix : (345, prefixRead (Ustar.pathPrefix (file.header s))) ∈
          headerReads (file.header s) := by
        simp [headerReads]
      rcases inside_at.mp (h 0 _ (mem_turnReads.mpr (.inr ⟨hmember, .inl ⟨_, hprefix, rfl⟩⟩))) with
        hnone | ⟨-, hstop⟩
      · exact absurd hnone (prefixRead_pos _).ne'
      · exact hstop
    · rintro hmember ⟨calls, hfile⟩ hsize
      rcases inside_at.mp (h calls _ (mem_turnReads.mpr
        (.inr ⟨hmember, .inr (.inr ⟨hfile, rfl⟩)⟩))) with hnone | ⟨-, hstop⟩
      · exact absurd (toNat_eq_zero.mp hnone) hsize
      · exact hstop
  · rintro ⟨hmagic, hheader, hdata⟩ calls a ha
    have hlow' : ∀ n, file.fileAddr.toNat ≤ s.current.toNat + n := fun n => by omega
    rcases mem_turnReads.mp ha with rfl | ⟨hmember, ⟨r, hread, rfl⟩ | ⟨-, rfl⟩ | ⟨hfile, rfl⟩⟩
    · exact .inr ⟨hlow' 257, hmagic⟩
    · have hend := headerReads_le hread
      have hstop := hheader hmember
      refine .inr ⟨hlow' r.1, ?_⟩
      show s.current.toNat + r.1 + r.2 ≤ file.stop
      omega
    · have hstop := hheader hmember
      refine .inr ⟨hlow' 156, ?_⟩
      show s.current.toNat + 156 + 1 ≤ file.stop
      omega
    · by_cases hsize : file.memberSize s = 0#64
      · exact inside_at.mpr (.inl (toNat_eq_zero.mpr hsize))
      · exact inside_at.mpr (.inr ⟨hlow' 512, hdata hmember ⟨calls, hfile⟩ hsize⟩)

theorem length_header : (file.header s).length = 512 := ByteMemory.length_load

theorem member_eq : file.member s =
    file.header s ++ file.mem.load (s.current + 512#64) (file.memberSize s).toNat :=
  ByteMemory.load_add

theorem member_data : (memcpyFrom ((file.member s).drop 512)
    (octalToBin (Ustar.size (file.member s)) 12).toNat).isSome := by
  have hsize : Ustar.size (file.member s) = Ustar.size (file.header s) := by
    rw [member_eq]
    exact field_append (by rw [length_header]; omega)
  rw [hsize]
  simp [memcpyFrom, ArchiveFile.member, ArchiveFile.memberSize, ByteMemory.length_load]

variable (devices) in
/-- A turn returns exactly if the member there can be loaded. -/
theorem loadTurn_returns : (∃ calls r, loadTurn calls devices dir file s = .ok r) ↔
    (file.isMember s → MemberLoads dir (file.member s) s.vfs) := by
  rw [← loadMember_returns devices member_data]
  unfold loadTurn
  by_cases hmember : file.isMember s = true
  · simp only [hmember, forall_const]
    exact ⟨fun ⟨calls, _, h⟩ => ⟨calls, (bind_ok h).imp fun _ => And.left⟩,
      fun ⟨calls, w, h⟩ => ⟨calls, _, bind_ok_iff.mpr ⟨w, h, rfl⟩⟩⟩
  · simp only [if_neg hmember]
    exact ⟨fun _ h => absurd h hmember, fun _ => ⟨0, _, rfl⟩⟩

theorem loadTurn_mono {r : Vfs × Option U64} (hle : calls ≤ n)
    (h : loadTurn calls devices dir file s = .ok r) : loadTurn n devices dir file s = .ok r := by
  unfold loadTurn at h ⊢
  split_ifs at h ⊢
  · obtain ⟨w, hw, h⟩ := bind_ok h
    exact bind_ok_iff.mpr ⟨w, loadMember_mono hle hw, h⟩
  · exact h

theorem isMember_of_loadTurn (h : loadTurn calls devices dir file s = .ok (v', some current)) :
    file.isMember s = true := by
  by_contra hmember
  unfold loadTurn at h
  rw [if_neg hmember] at h
  cases Except.ok.inj h

variable (devices) in
/-- A header fits exactly if the turn returns, reads nothing but the archive and goes forward. -/
theorem headerFits_iff (hlow : file.fileAddr.toNat ≤ s.current.toNat) :
    HeaderFits dir file s ↔
      (∀ calls, ∀ a ∈ turnReads calls dir file s, file.Inside a) ∧
      (∀ calls v' current, loadTurn calls devices dir file s = .ok (v', some current) →
        s.current < current) ∧
      ∃ calls r, loadTurn calls devices dir file s = .ok r := by
  rw [inside_iff hlow, loadTurn_returns devices]
  constructor
  · rintro ⟨hmagic, hheader, hdata, hadvance, hloads⟩
    exact ⟨⟨hmagic, hheader, hdata⟩, fun calls v' current h =>
      (forward_iff h).mpr (hadvance (isMember_of_loadTurn h)), hloads⟩
  · rintro ⟨⟨hmagic, hheader, hdata⟩, hforward, hloads⟩
    refine ⟨hmagic, hheader, hdata, fun hmember => ?_, hloads⟩
    obtain ⟨calls, w, hload⟩ :=
      (loadMember_returns devices member_data).mpr (hloads hmember)
    have hturn : loadTurn calls devices dir file s =
        .ok (w, some (s.current + 512#64 + alignUp (file.memberSize s) 512#64)) := by
      unfold loadTurn
      rw [if_pos hmember, hload]
      rfl
    exact (forward_iff hturn).mp (hforward calls w _ hturn)

/-- What follows a turn of `load_into`. -/
def afterTurn (calls : ℕ) (devices : Devices) (dir : EntryId) (file : ArchiveFile) (turns : ℕ) :
    Vfs × Option U64 → Except Fault Vfs
  | (v, none) => .ok v
  | (v, some current) =>
    if file.fileAddr + file.fileSize ≤ current then .ok v
    else loadInto calls devices dir file.bytes file.fileAddr file.fileSize turns current v

/-- The header and the data at `current` are among the bytes. -/
theorem drop_bytes : ∃ rest, file.bytes.drop (s.current - file.fileAddr).toNat =
    file.header s ++ (file.mem.load (s.current + 512#64) (file.memberSize s).toNat ++ rest) := by
  have hfar : (s.current - file.fileAddr).toNat + (512 + (file.memberSize s).toNat) ≤
      2 ^ 65 + 512 := by
    have hcurrent := (s.current - file.fileAddr).isLt
    have hsize := (file.memberSize s).isLt
    omega
  unfold ArchiveFile.bytes
  generalize 2 ^ 65 + 512 = n at hfar ⊢
  obtain ⟨far, hn⟩ := Nat.exists_eq_add_of_le hfar
  have hat : file.fileAddr + BitVec.ofNat 64 (s.current - file.fileAddr).toNat = s.current := by
    rw [BitVec.ofNat_toNat, BitVec.setWidth_eq, add_sub_cancel]
  refine ⟨file.mem.load (s.current + BitVec.ofNat 64 (512 + (file.memberSize s).toNat)) far, ?_⟩
  rw [ByteMemory.drop_load (by omega), hat, hn, Nat.add_assoc, Nat.add_sub_cancel_left,
    ByteMemory.load_add, ByteMemory.load_add, List.append_assoc]
  rfl

theorem loadInto_turn {turns : ℕ} :
    loadInto calls devices dir file.bytes file.fileAddr file.fileSize (turns + 1) s.current s.vfs =
      loadTurn calls devices dir file s >>= afterTurn calls devices dir file turns := by
  obtain ⟨rest, hrest⟩ := @drop_bytes file s
  have hmagic : Ustar.magic (file.header s ++ (file.mem.load (s.current + 512#64)
      (file.memberSize s).toNat ++ rest)) = Ustar.magic (file.header s) :=
    field_append (by rw [length_header]; omega)
  have hsize : Ustar.size (file.header s ++ (file.mem.load (s.current + 512#64)
      (file.memberSize s).toNat ++ rest)) = Ustar.size (file.header s) :=
    field_append (by rw [length_header]; omega)
  have hmember : loadMember calls devices dir (file.header s ++ (file.mem.load
      (s.current + 512#64) (file.memberSize s).toNat ++ rest)) s.vfs =
        loadMember calls devices dir (file.member s) s.vfs := by
    have hlength : (octalToBin (Ustar.size (file.header s)) 12).toNat =
        (file.mem.load (s.current + 512#64) (file.memberSize s).toNat).length := by
      rw [ByteMemory.length_load, ArchiveFile.memberSize]
    have hheader := @length_header file s
    rw [member_eq]
    generalize file.mem.load (s.current + 512#64) (file.memberSize s).toNat = data at hlength ⊢
    generalize file.header s = header at hheader hlength ⊢
    exact loadMember_append (m := ⟨header, data⟩) hheader hlength rest s.vfs
  have hnear : ¬(file.bytes.drop (s.current - file.fileAddr).toNat).length < 512 := by
    rw [hrest, List.length_append, length_header]
    omega
  unfold loadInto
  simp only [if_neg hnear]
  rw [hrest, hmagic, hsize, hmember]
  unfold loadTurn ArchiveFile.isMember
  by_cases hustar : (Ustar.magic (file.header s)).take 5 = chars "ustar"
  · rw [if_neg (not_not.mpr hustar), if_pos (decide_eq_true hustar), bind_assoc]
    rfl
  · rw [if_pos hustar, if_neg (by simpa using hustar)]
    rfl

theorem loadInto_mono {turns : ℕ} (hle : calls ≤ n)
    (h : loadInto calls devices dir file.bytes file.fileAddr file.fileSize turns current v = .ok v') :
    loadInto n devices dir file.bytes file.fileAddr file.fileSize turns current v = .ok v' := by
  induction turns generalizing current v with
  | zero => cases h
  | succ turns ih =>
    rw [loadInto_turn (s := ⟨current, v⟩)] at h ⊢
    obtain ⟨⟨w, next⟩, hturn, h⟩ := bind_ok h
    refine bind_ok_iff.mpr ⟨_, loadTurn_mono hle hturn, ?_⟩
    cases next with
    | none => exact h
    | some next =>
      simp only [afterTurn] at h ⊢
      split_ifs at h ⊢
      · exact h
      · exact ih h

/-! ## The walk -/

/-- The loader returns from every turn that it comes to if it returns. -/
theorem Walks.returns (hs : Walks devices dir file s v)
    (h : ∃ turns calls v', loadInto calls devices dir file.bytes file.fileAddr file.fileSize turns
      file.fileAddr v = .ok v') :
    ∃ turns calls v', loadInto calls devices dir file.bytes file.fileAddr file.fileSize turns
      s.current s.vfs = .ok v' := by
  induction hs with
  | refl => exact h
  | @tail t u hwalk hstep ih =>
    obtain ⟨turns, calls, v', h⟩ := ih
    obtain ⟨⟨n, hturn⟩, hgo⟩ := hstep
    cases turns with
    | zero => cases h
    | succ turns =>
      rw [loadInto_turn] at h
      obtain ⟨r, hr, h⟩ := bind_ok h
      have hmax := loadTurn_mono (Nat.le_max_left calls n) hr
      obtain rfl := Except.ok.inj (hmax.symm.trans (loadTurn_mono (Nat.le_max_right calls n) hturn))
      simp only [afterTurn] at h
      rw [if_neg hgo] at h
      exact ⟨turns, calls, v', h⟩

/-- As long as every header fits, the walk stays behind the beginning of the archive. -/
theorem Walks.low (h : Walks devices dir file s v)
    (hforward : ∀ t, Walks devices dir file t v → ∀ calls v' current,
      loadTurn calls devices dir file t = .ok (v', some current) → t.current < current) :
    file.fileAddr.toNat ≤ s.current.toNat := by
  induction h with
  | refl => exact Nat.le_refl _
  | @tail t u hwalk hstep ih =>
    obtain ⟨⟨calls, hturn⟩, -⟩ := hstep
    have hlt := hforward t hwalk _ _ _ hturn
    rw [BitVec.lt_def] at hlt
    omega

/-- Every header that the loader comes to fits. -/
def AllFit (devices : Devices) (dir : EntryId) (file : ArchiveFile) (v : Vfs) : Prop :=
  ∀ s, Walks devices dir file s v → HeaderFits dir file s

theorem AllFit.forward (h : AllFit devices dir file v) (hs : Walks devices dir file s v)
    (hturn : loadTurn calls devices dir file s = .ok (v', some current)) : s.current < current :=
  (forward_iff hturn).mpr ((h s hs).advance (isMember_of_loadTurn hturn))

/-- Where every header fits the loader returns: what is left of the addresses gets less. -/
theorem AllFit.returns (h : AllFit devices dir file v) (hs : Walks devices dir file s v) :
    ∃ turns calls v', loadInto calls devices dir file.bytes file.fileAddr file.fileSize turns
      s.current s.vfs = .ok v' := by
  induction hrank : 2 ^ 64 - s.current.toNat using Nat.strong_induction_on generalizing s with
  | _ rank ih =>
    obtain ⟨calls, ⟨w, next⟩, hturn⟩ := (loadTurn_returns devices).mpr (h s hs).loads
    cases next with
    | none =>
      refine ⟨1, calls, w, ?_⟩
      rw [loadInto_turn, hturn]
      rfl
    | some next =>
      by_cases hend : file.fileAddr + file.fileSize ≤ next
      · refine ⟨1, calls, w, ?_⟩
        rw [loadInto_turn, hturn, ok_bind, afterTurn, if_pos hend]
      · have hstep : NextTurn devices dir file s ⟨next, w⟩ := ⟨⟨calls, hturn⟩, hend⟩
        have hlt := h.forward hs hturn
        rw [BitVec.lt_def] at hlt
        have hnext := next.isLt
        obtain ⟨turns, n, v', hload⟩ := ih (2 ^ 64 - next.toNat) (by omega) (hs.tail hstep) rfl
        refine ⟨turns + 1, max calls n, v', ?_⟩
        rw [loadInto_turn, loadTurn_mono (Nat.le_max_left ..) hturn, ok_bind, afterTurn, if_neg hend]
        exact loadInto_mono (Nat.le_max_right ..) hload

end Turn

/-! ## A file and its archive -/

/-- Text in a field of `n` bytes. -/
def textField (n : ℕ) (bytes : List CChar) : List CChar :=
  bytes ++ List.replicate (n - bytes.length) 0#8

/-- The header of the file `a`, which is one byte long. -/
def fileHeader : List CChar :=
  textField 124 (chars "a") ++ textField 32 (chars "1") ++ textField 101 (chars "0") ++
    textField 255 (chars "ustar")

/-- An archive at `0x1000`. -/
def archiveOf (bytes : List CChar) : ArchiveFile where
  mem a := bytes.getD (a - 0x1000#64).toNat 0#8
  fileAddr := 0x1000#64
  fileSize := BitVec.ofNat 64 bytes.length

/-- The file with its block. -/
def oneFile : ArchiveFile := archiveOf (fileHeader ++ textField 512 (chars "x"))

end Fishix.Fs
