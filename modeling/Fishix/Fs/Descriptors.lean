import Fishix.Common.Outcome
import Fishix.Mem.Basic
import Mathlib.Order.Bounds.Basic

/-!
# File descriptor tables

Model of `Process::allocate_fdnum` (sched/sched.cpp:68-84), `FileDescriptor` (fs/vfs.hpp:176-192,
fs/vfs.cpp:247-261) and of what uses them: the calls that open a description, `close`,
`close_range`, `fcntl`, `dup3`, `fork`, `execve` and the end of a process.

A process keeps two numbers beside its table: how many slots are occupied, and a slot below which
all are. `dup3` fills a slot without `allocate_fdnum` and does not count it; `Counts` is that
nothing is duplicated this way.

* `allocateFdnum_spec`: the slot that is handed out was free.
* `step_hinted`, `step_counted`: what one call keeps.
* `hint_below_free`: the hint, in every run.
* `tables_accounted`: the tables in every run that meets `Counts`.
* `dup2_uncounted`: a descriptor that is not counted.
* `dupfd_least_iff`: when a descriptor from a minimum on is the least free one.
-/

namespace Fishix.Fs

open Fishix.Mem (Panic)

abbrev Pid := ℕ

/-- A `FileDescription*`. -/
abbrev DescriptionId := ℕ

/-- `FileDescriptor` (fs/vfs.hpp:176-192): a pointer, null in a free slot, and the flag
    `FD_CLOEXEC`. -/
structure FileDescriptor where
  description : Option DescriptionId := none
  cloexec : Bool := false
  deriving DecidableEq

/-- What a process keeps of its descriptors (sched/sched.hpp:125-127). The number is a `usize`; it
    is taken from zero only where it is wrong already. -/
structure Table where
  fileDescriptors : List FileDescriptor := []
  numFileDescriptors : ℤ := 0
  firstFreeFdnum : ℤ := 0
  deriving DecidableEq

namespace Table

/-- The descriptor in slot `fd`; a free one behind the end. -/
def slot (x : Table) (fd : ℕ) : FileDescriptor := x.fileDescriptors.getD fd ⟨none, false⟩

def setSlot (x : Table) (fd : ℕ) (d : FileDescriptor) : Table :=
  { x with fileDescriptors := x.fileDescriptors.set fd d }

def Occupied (x : Table) (fd : ℕ) : Prop := (x.slot fd).description ≠ none

instance (x : Table) (fd : ℕ) : Decidable (x.Occupied fd) := inferInstanceAs (Decidable (_ ≠ _))

/-- The table with a slot `fd` (fs/vfs.cpp:713-715). -/
def growTo (x : Table) (fd : ℕ) : Table :=
  { x with fileDescriptors :=
      x.fileDescriptors ++ List.replicate (fd + 1 - x.fileDescriptors.length) ⟨none, false⟩ }

/-- The loop of `allocate_fdnum` (sched/sched.cpp:73-79): the first free slot from `i` on. -/
def findFree (x : Table) : ℕ → ℕ → Option ℕ
  | 0, _ => none
  | turns + 1, i =>
    if i < x.fileDescriptors.length then
      if x.Occupied i then findFree x turns (i + 1) else some i
    else none

/-- `allocate_fdnum` (sched/sched.cpp:68-84). -/
def allocateFdnum (x : Table) (minFdnum : ℤ) : ℕ × Table :=
  let x := { x with numFileDescriptors := x.numFileDescriptors + 1 }
  let begin := if minFdnum < x.firstFreeFdnum then x.firstFreeFdnum else minFdnum
  let hint (x : Table) (n : ℕ) : Table :=
    if minFdnum < x.firstFreeFdnum then { x with firstFreeFdnum := n } else x
  match x.findFree (x.fileDescriptors.length + 1) begin.toNat with
  | some i => (i, hint x (i + 1))
  | none =>
    let x := hint x x.fileDescriptors.length
    (x.fileDescriptors.length, { x with fileDescriptors := x.fileDescriptors ++ [⟨none, false⟩] })

end Table

/-- All processes and their descriptions. -/
structure Files where
  table : Pid → Table := fun _ => {}
  used : Pid → Bool := fun _ => false
  /-- `FileDescription::ref_count` (fs/vfs.hpp:172). -/
  refCount : DescriptionId → ℤ := fun _ => 0
  /-- How often the destructor of a description, and with it `vnode->close`, has run. -/
  closed : DescriptionId → ℕ := fun _ => 0
  /-- The next description. -/
  nextDescription : DescriptionId := 0

namespace Files

def updateTable (f : Files) (p : Pid) (g : Table → Table) : Files :=
  { f with table := Function.update f.table p (g (f.table p)) }

/-- `new FileDescription` (fs/vfs.hpp:152-159). -/
def newDescription (f : Files) : DescriptionId × Files :=
  (f.nextDescription, { f with
    refCount := Function.update f.refCount f.nextDescription 1
    nextDescription := f.nextDescription + 1 })

/-- `increment_ref_count` (fs/vfs.hpp:169). -/
def incrementRefCount (f : Files) (d : DescriptionId) : Files :=
  { f with refCount := Function.update f.refCount d (f.refCount d + 1) }

/-- `decrement_ref_count` (fs/vfs.hpp:170): at zero the description is deleted. -/
def decrementRefCount (f : Files) (d : DescriptionId) : Files :=
  { f with
    refCount := Function.update f.refCount d (f.refCount d - 1)
    closed := if f.refCount d - 1 = 0 then Function.update f.closed d (f.closed d + 1)
      else f.closed }

/-- `FileDescriptor::close` (fs/vfs.cpp:247-253). -/
def close (f : Files) (p : Pid) (fd : ℕ) : Except Panic Files :=
  match ((f.table p).slot fd).description with
  | none => .error .badPointer
  | some d => .ok ((f.decrementRefCount d).updateTable p fun x => { x.setSlot fd {} with
      numFileDescriptors := x.numFileDescriptors - 1
      firstFreeFdnum := if x.firstFreeFdnum > fd then fd else x.firstFreeFdnum })

/-- The calls that open a description and store it into the slot that `allocate_fdnum` finds:
    `open` (fs/vfs.cpp:375-389), `memfd_create`, `eventfd`, `signalfd`, `epoll_create`,
    `inotify_init` and sockets (userland/socket/socket.cpp:21-28). -/
def open_ (f : Files) (p : Pid) (cloexec : Bool) : ℕ × Files :=
  let (fd, x) := (f.table p).allocateFdnum 0
  let f := f.updateTable p fun _ => x
  let (d, f) := f.newDescription
  (fd, f.updateTable p fun x => x.setSlot fd ⟨some d, cloexec⟩)

/-- `pipe_impl` (userland/pipe.cpp:86-107). -/
def pipe (f : Files) (p : Pid) (cloexec : Bool) : Files := ((f.open_ p cloexec).2.open_ p cloexec).2

/-- `fd` names an open description (fs/vfs.cpp:395-400). -/
def Open (f : Files) (p : Pid) (fd : ℤ) : Prop :=
  0 ≤ fd ∧ fd < (f.table p).fileDescriptors.length ∧ (f.table p).Occupied fd.toNat

instance (f : Files) (p : Pid) (fd : ℤ) : Decidable (f.Open p fd) :=
  inferInstanceAs (Decidable (_ ∧ _ ∧ _))

/-- `syscall_close` (fs/vfs.cpp:392-403); what fails changes nothing. -/
def syscallClose (f : Files) (p : Pid) (fd : ℤ) : Except Panic Files :=
  if f.Open p fd then f.close p fd.toNat else .ok f

/-- `syscall_close_range` (fs/vfs.cpp:405-428). -/
def closeRange (f : Files) (p : Pid) (first last : ℕ) (cloexec : Bool) : Except Panic Files :=
  if first > last then .ok f
  else if (f.table p).fileDescriptors.length = 0 then .error .badPointer
  else
    let last := min last ((f.table p).fileDescriptors.length - 1)
    (List.range' first (last + 1 - first)).foldlM (fun f fd =>
      match ((f.table p).slot fd).description with
      | none => .ok f
      | some d =>
        if cloexec then .ok (f.updateTable p fun x => x.setSlot fd ⟨some d, true⟩)
        else f.close p fd) f

/-- `FileDescriptor::duplicate` (fs/vfs.cpp:255-261). -/
def duplicate (f : Files) (d : FileDescriptor) (keepFlags : Bool) : FileDescriptor × Files :=
  ({ d with cloexec := keepFlags && d.cloexec },
    match d.description with
    | none => f
    | some x => f.incrementRefCount x)

/-- `F_DUPFD` and `F_DUPFD_CLOEXEC` (fs/vfs.cpp:625-633). -/
def dupfd (f : Files) (p : Pid) (fd minFdnum : ℤ) (cloexec : Bool) : Files :=
  if f.Open p fd then
    let (newfd, x) := (f.table p).allocateFdnum minFdnum
    let f := f.updateTable p fun _ => x
    let (d, f) := f.duplicate ((f.table p).slot fd.toNat) false
    f.updateTable p fun x => x.setSlot newfd { d with cloexec := cloexec }
  else f

/-- `F_SETFD`, `FIOCLEX` and `FIONCLEX` (fs/vfs.cpp:636-638, 1023-1024). -/
def setFlags (f : Files) (p : Pid) (fd : ℤ) (cloexec : Bool) : Files :=
  if f.Open p fd then
    f.updateTable p fun x => x.setSlot fd.toNat { x.slot fd.toNat with cloexec := cloexec }
  else f

/-- A slot that is filled is closed first (fs/vfs.cpp:718-719). -/
def vacate (f : Files) (p : Pid) (fd : ℕ) : Except Panic Files :=
  if (f.table p).Occupied fd then f.close p fd else .ok f

/-- `dup3_impl` (fs/vfs.cpp:698-723) behind the check of its flags. -/
def dup3 (f : Files) (p : Pid) (oldfd newfd : ℤ) (cloexec : Bool) : Except Panic Files :=
  if ¬f.Open p oldfd ∨ 1023 < newfd ∨ newfd < 0 ∨ oldfd = newfd then .ok f
  else
    ((f.updateTable p fun x => x.growTo newfd.toNat).vacate p newfd.toNat).map fun f =>
      let (d, f) := f.duplicate ((f.table p).slot oldfd.toNat) false
      f.updateTable p fun x => x.setSlot newfd.toNat { d with cloexec := cloexec }

/-- One turn of the loop of `clone_impl` over the slots (sched/sched.cpp:898-903). -/
def copySlot (c : List FileDescriptor × Files) (d : FileDescriptor) : List FileDescriptor × Files :=
  match d.description with
  | none => (c.1 ++ [⟨none, false⟩], c.2)
  | some _ =>
    let (d, f) := c.2.duplicate d true
    (c.1 ++ [d], f)

/-- The table of a forked process (sched/sched.cpp:898-905). -/
def fork (f : Files) (p q : Pid) : Files :=
  let (ds, g) := (f.table p).fileDescriptors.foldl copySlot ([], f)
  { g with
    used := Function.update g.used q true
    table := Function.update g.table q { f.table p with fileDescriptors := ds } }

/-- Every slot `fd` with `b fd` is closed, from the first on. -/
def closeAll (f : Files) (p : Pid) (b : FileDescriptor → Bool) : Except Panic Files :=
  (List.range (f.table p).fileDescriptors.length).foldlM (fun f fd =>
    if b ((f.table p).slot fd) then f.close p fd else .ok f) f

/-- `execve` closes what has `FD_CLOEXEC` (sched/sched.cpp:551-555). -/
def exec (f : Files) (p : Pid) : Except Panic Files := f.closeAll p fun d => d.cloexec

/-- `Process::zombify` closes everything (sched/sched.cpp:224-226). -/
def exit (f : Files) (p : Pid) : Except Panic Files := f.closeAll p fun d => d.description.isSome

end Files

/-! ## Runs -/

inductive FilesOp
  | open_ (p : Pid) (cloexec : Bool)
  | pipe (p : Pid) (cloexec : Bool)
  | close (p : Pid) (fd : ℤ)
  | closeRange (p : Pid) (first last : ℕ) (cloexec : Bool)
  | dupfd (p : Pid) (fd minFdnum : ℤ) (cloexec : Bool)
  | setFlags (p : Pid) (fd : ℤ) (cloexec : Bool)
  | dup3 (p : Pid) (oldfd newfd : ℤ) (cloexec : Bool)
  | fork (p q : Pid)
  | exec (p : Pid)
  | exit (p : Pid)

namespace Files

/-- One call. A process that is there forks one that is not. -/
def step (f : Files) : FilesOp → Except Panic Files
  | .open_ p cloexec => .ok (f.open_ p cloexec).2
  | .pipe p cloexec => .ok (f.pipe p cloexec)
  | .close p fd => f.syscallClose p fd
  | .closeRange p first last cloexec => f.closeRange p first last cloexec
  | .dupfd p fd minFdnum cloexec => .ok (f.dupfd p fd minFdnum cloexec)
  | .setFlags p fd cloexec => .ok (f.setFlags p fd cloexec)
  | .dup3 p oldfd newfd cloexec => f.dup3 p oldfd newfd cloexec
  | .fork p q => if f.used p ∧ ¬f.used q then .ok (f.fork p q) else .ok f
  | .exec p => f.exec p
  | .exit p => f.exit p

/-- The files when the init process has been created (sched/sched.cpp:588-592). -/
def booted : Files where
  table := fun p => if p = 1 then ⟨[⟨some 0, false⟩, ⟨some 1, false⟩, ⟨some 2, false⟩], 3, 3⟩ else {}
  used := fun p => p = 1
  refCount := fun d => if d < 3 then 1 else 0
  nextDescription := 3

end Files

/-! ## Slots -/

namespace Table

variable {x x' : Table} {fd i : ℕ} {d : FileDescriptor}

/-- The number of occupied slots. -/
def occupied (x : Table) : ℕ := x.fileDescriptors.countP fun d => d.description.isSome

theorem lt_of_occupied (h : x.Occupied fd) : fd < x.fileDescriptors.length := by
  by_contra hlen
  apply h
  simp [slot, List.getElem?_eq_none (Nat.le_of_not_lt hlen)]

@[simp] theorem setSlot_length : (x.setSlot fd d).fileDescriptors.length =
    x.fileDescriptors.length := by simp [setSlot]

theorem slot_setSlot (h : fd < x.fileDescriptors.length) (i : ℕ) :
    (x.setSlot fd d).slot i = if i = fd then d else x.slot i := by
  by_cases hi : i = fd
  · subst hi
    simp [slot, setSlot, h]
  · simp [slot, setSlot, hi, List.getElem?_set_ne (Ne.symm hi)]

/-- A slot that is filled or freed counts once. -/
theorem occupied_setSlot (h : fd < x.fileDescriptors.length) :
    ((x.setSlot fd d).occupied : ℤ) = x.occupied - (if x.Occupied fd then 1 else 0) +
      if d.description.isSome then 1 else 0 := by
  have hslot : x.slot fd = x.fileDescriptors[fd] := by simp [slot, h]
  have hocc : x.Occupied fd ↔ x.fileDescriptors[fd].description.isSome = true := by
    unfold Occupied
    rw [hslot, Option.isSome_iff_ne_none]
  have hpos : x.Occupied fd → 0 < x.occupied := by
    intro ho
    exact List.countP_pos_iff.mpr ⟨_, List.getElem_mem h, hocc.mp ho⟩
  show ((List.countP _ (x.fileDescriptors.set fd d) : ℕ) : ℤ) = _
  rw [List.countP_set h]
  by_cases ho : x.Occupied fd
  · have := hpos ho
    rw [if_pos ho, if_pos (hocc.mp ho)]
    unfold occupied at this ⊢
    split_ifs <;> push_cast <;> omega
  · rw [if_neg ho, if_neg (fun hs => ho (hocc.mpr hs))]
    unfold occupied
    split_ifs <;> push_cast <;> omega

theorem slot_append_free (n i : ℕ) :
    ({ x with fileDescriptors := x.fileDescriptors ++ List.replicate n {} } : Table).slot i =
      x.slot i := by
  unfold slot
  simp only [List.getD_eq_getElem?_getD]
  by_cases hi : i < x.fileDescriptors.length
  · rw [List.getElem?_append_left hi]
  · rw [List.getElem?_append_right (Nat.le_of_not_lt hi), List.getElem?_eq_none (Nat.le_of_not_lt hi),
      List.getElem?_replicate]
    split_ifs <;> rfl

theorem occupied_append_free (n : ℕ) :
    ({ x with fileDescriptors := x.fileDescriptors ++ List.replicate n {} } : Table).occupied =
      x.occupied := by
  simp [occupied, List.countP_append, List.countP_replicate]

theorem slot_growTo (i : ℕ) : (x.growTo fd).slot i = x.slot i := slot_append_free _ i

theorem growTo_length : fd < (x.growTo fd).fileDescriptors.length := by
  simp [growTo]
  omega

/-! ## Allocation -/

/-- Every slot below the hint is occupied, except perhaps `fd`. -/
structure HintedBut (x : Table) (fd : Option ℕ) : Prop where
  nonneg : 0 ≤ x.firstFreeFdnum
  le : x.firstFreeFdnum ≤ x.fileDescriptors.length
  below : ∀ i : ℕ, (i : ℤ) < x.firstFreeFdnum → fd ≠ some i → x.Occupied i

/-- Every slot below the hint is occupied. -/
abbrev Hinted (x : Table) : Prop := x.HintedBut none

/-- The number beside the table is that of the occupied slots. -/
def Counted (x : Table) : Prop := x.numFileDescriptors = x.occupied

theorem findFree_some : ∀ {turns i j : ℕ}, x.findFree turns i = some j →
    i ≤ j ∧ j < x.fileDescriptors.length ∧ ¬x.Occupied j ∧ ∀ k, i ≤ k → k < j → x.Occupied k
  | 0, _, _, h => by simp [findFree] at h
  | turns + 1, i, j, h => by
    unfold findFree at h
    split_ifs at h with hlen hocc
    · obtain ⟨hle, hlt, hfree, hall⟩ := findFree_some h
      refine ⟨by omega, hlt, hfree, ?_⟩
      intro k hk hkj
      by_cases hki : k = i
      · rw [hki]
        exact hocc
      · exact hall k (by omega) hkj
    · cases h
      exact ⟨Nat.le_refl _, hlen, hocc, fun k hk hki => absurd hki (by omega)⟩

theorem findFree_none : ∀ {turns i : ℕ}, x.findFree turns i = none →
    x.fileDescriptors.length < turns + i → ∀ k, i ≤ k → k < x.fileDescriptors.length → x.Occupied k
  | 0, i, _, hturns, k, hik, hk => by omega
  | turns + 1, i, h, hturns, k, hik, hk => by
    unfold findFree at h
    split_ifs at h with hlen hocc
    · by_cases hki : k = i
      · rw [hki]
        exact hocc
      · exact findFree_none h (by omega) k (by omega) hk
    · omega

theorem findFree_num (n : ℤ) : ∀ turns i, ({ x with numFileDescriptors := n } : Table).findFree
    turns i = x.findFree turns i := by
  intro turns
  induction turns with
  | zero => exact fun _ => rfl
  | succ turns ih =>
    intro i
    simp only [findFree, ih]
    rfl

/-- What `allocate_fdnum` hands out and leaves behind. -/
structure Allocated (x : Table) (fd : ℕ) (x' : Table) : Prop where
  lt : fd < x'.fileDescriptors.length
  free : ¬x.Occupied fd
  slot : ∀ i, x'.slot i = x.slot i
  occupied : x'.occupied = x.occupied
  num : x'.numFileDescriptors = x.numFileDescriptors + 1
  hinted : x.Hinted → x'.HintedBut (some fd)

theorem allocateFdnum_spec (x : Table) (minFdnum : ℤ) :
    Allocated x (x.allocateFdnum minFdnum).1 (x.allocateFdnum minFdnum).2 := by
  unfold allocateFdnum
  simp only
  generalize hbegin : (if minFdnum < x.firstFreeFdnum then x.firstFreeFdnum else minFdnum) = b
  rw [findFree_num]
  have hnone : x.slot x.fileDescriptors.length = ⟨none, false⟩ := by simp [slot]
  have hpush : ∀ y : Table, y.fileDescriptors = x.fileDescriptors →
      (∀ i, ({ y with fileDescriptors := y.fileDescriptors ++ [⟨none, false⟩] } : Table).slot i =
        x.slot i) ∧
      ({ y with fileDescriptors := y.fileDescriptors ++ [⟨none, false⟩] } : Table).occupied =
        x.occupied := by
    intro y hy
    constructor
    · intro i
      have hone := slot_append_free (x := x) 1 i
      unfold slot at hone ⊢
      rw [hy]
      exact hone
    · have hone := occupied_append_free (x := x) 1
      unfold occupied at hone ⊢
      rw [hy]
      exact hone
  cases hfind : x.findFree (x.fileDescriptors.length + 1) b.toNat with
  | some j =>
    obtain ⟨hle, hlt, hfree, hall⟩ := findFree_some hfind
    simp only
    split_ifs with hmin
    · refine ⟨hlt, hfree, fun _ => rfl, rfl, rfl, ?_⟩
      intro hx
      rw [if_pos hmin] at hbegin
      have hnn := hx.nonneg
      refine ⟨by simp; omega, by simp; omega, ?_⟩
      intro i hi hne
      simp only at hi
      have hij : i ≠ j := fun h => hne (by rw [h])
      by_cases hold : (i : ℤ) < x.firstFreeFdnum
      · exact hx.below i hold (by simp)
      · exact hall i (by omega) (by omega)
    · exact ⟨hlt, hfree, fun _ => rfl, rfl, rfl, fun hx => ⟨hx.nonneg, hx.le, fun i hi _ =>
        hx.below i hi (by simp)⟩⟩
  | none =>
    have hall := findFree_none hfind (by omega)
    simp only
    have hfree : ¬x.Occupied x.fileDescriptors.length := by simp [Occupied, hnone]
    split_ifs with hmin
    · obtain ⟨hslot, hocc⟩ := hpush { x with
        numFileDescriptors := x.numFileDescriptors + 1
        firstFreeFdnum := x.fileDescriptors.length } rfl
      refine ⟨by simp, hfree, hslot, hocc, rfl, ?_⟩
      intro hx
      rw [if_pos hmin] at hbegin
      have hnn := hx.nonneg
      refine ⟨by simp, by simp, ?_⟩
      intro i hi _
      simp only at hi
      unfold Occupied
      rw [hslot]
      by_cases hold : (i : ℤ) < x.firstFreeFdnum
      · exact hx.below i hold (by simp)
      · exact hall i (by omega) (by omega)
    · obtain ⟨hslot, hocc⟩ := hpush { x with
        numFileDescriptors := x.numFileDescriptors + 1 } rfl
      refine ⟨by simp, hfree, hslot, hocc, rfl, ?_⟩
      intro hx
      refine ⟨hx.nonneg, ?_, ?_⟩
      · have := hx.le
        simp
        omega
      · intro i hi _
        unfold Occupied
        rw [hslot]
        exact hx.below i hi (by simp)

/-- A description in the slot that was allocated. -/
theorem Allocated.filled {x x' : Table} {fd : ℕ} {d : FileDescriptor} (h : Allocated x fd x')
    (hd : d.description ≠ none) :
    (x.Hinted → (x'.setSlot fd d).Hinted) ∧ (x.Counted → (x'.setSlot fd d).Counted) := by
  constructor
  · intro hx
    have hx' := h.hinted hx
    refine ⟨hx'.nonneg, by rw [setSlot_length]; exact hx'.le, ?_⟩
    intro i hi _
    unfold Occupied
    rw [slot_setSlot h.lt]
    split_ifs with hfd
    · exact hd
    · exact hx'.below i hi (fun he => hfd (Option.some.inj he).symm)
  · intro hx
    have hfree : ¬x'.Occupied fd := by
      unfold Occupied
      rw [h.slot]
      exact h.free
    have hcount := occupied_setSlot (d := d) h.lt
    rw [if_neg hfree, if_pos (Option.isSome_iff_ne_none.mpr hd), h.occupied] at hcount
    unfold Counted at hx ⊢
    rw [hcount]
    show x'.numFileDescriptors = _
    rw [h.num, hx]
    omega

theorem relabelled {d : FileDescriptor} (hd : d.description = (x.slot fd).description)
    (ho : x.Occupied fd) :
    (x.Hinted → (x.setSlot fd d).Hinted) ∧ (x.Counted → (x.setSlot fd d).Counted) := by
  have hlt := lt_of_occupied ho
  constructor
  · intro hx
    refine ⟨hx.nonneg, by rw [setSlot_length]; exact hx.le, ?_⟩
    intro i hi _
    unfold Occupied
    rw [slot_setSlot hlt]
    split_ifs with hfd
    · rw [hd]
      exact ho
    · exact hx.below i hi (by simp)
  · intro hx
    have hcount := occupied_setSlot (d := d) hlt
    rw [if_pos ho, if_pos (by rw [hd]; exact Option.isSome_iff_ne_none.mpr ho)] at hcount
    unfold Counted at hx ⊢
    rw [hcount]
    show x.numFileDescriptors = _
    rw [hx]
    omega

/-- The table after `FileDescriptor::close`. -/
def closed (x : Table) (fd : ℕ) : Table :=
  { x.setSlot fd {} with
    numFileDescriptors := x.numFileDescriptors - 1
    firstFreeFdnum := if x.firstFreeFdnum > fd then fd else x.firstFreeFdnum }

theorem Hinted.closed (hx : x.Hinted) (ho : x.Occupied fd) : (x.closed fd).Hinted := by
  have hlt := lt_of_occupied ho
  have hle := hx.le
  have hnn := hx.nonneg
  unfold Table.closed
  refine ⟨?_, ?_, ?_⟩
  · simp only
    split_ifs <;> omega
  · simp only [setSlot_length]
    split_ifs <;> omega
  · intro i hi _
    simp only at hi
    have hne : i ≠ fd := by
      rintro rfl
      split_ifs at hi <;> omega
    have hold : x.Occupied i := hx.below i (by split_ifs at hi <;> omega) (by simp)
    show ((x.setSlot fd {}).slot i).description ≠ none
    rw [slot_setSlot hlt, if_neg hne]
    exact hold

theorem Hinted.growTo (hx : x.Hinted) : (x.growTo fd).Hinted := by
  refine ⟨hx.nonneg, ?_, ?_⟩
  · have hle := hx.le
    simp only [Table.growTo, List.length_append]
    push_cast
    omega
  · intro i hi _
    unfold Occupied
    rw [slot_growTo]
    exact hx.below i hi (by simp)

/-- A slot that is filled, whether it was counted or not. -/
theorem Hinted.setSlot (hx : x.Hinted) (hlt : fd < x.fileDescriptors.length)
    (hd : d.description ≠ none) : (x.setSlot fd d).Hinted := by
  refine ⟨hx.nonneg, by rw [setSlot_length]; exact hx.le, ?_⟩
  intro i hi _
  unfold Occupied
  rw [slot_setSlot hlt]
  split_ifs with hfd
  · exact hd
  · exact hx.below i hi (by simp)

theorem Counted.closed (hx : x.Counted) (ho : x.Occupied fd) : (x.closed fd).Counted := by
  have hcount := occupied_setSlot (d := {}) (lt_of_occupied ho)
  rw [if_pos ho] at hcount
  unfold Counted at hx ⊢
  show x.numFileDescriptors - 1 = ((x.setSlot fd {}).occupied : ℤ)
  rw [hcount, hx]
  simp

end Table

/-! ## Operations -/

namespace Files

variable {f f' : Files} {p q : Pid}

@[simp] theorem updateTable_self (g : Table → Table) : (f.updateTable p g).table p = g (f.table p) := by
  simp [updateTable]

theorem updateTable_of_ne (g : Table → Table) (h : q ≠ p) :
    (f.updateTable p g).table q = f.table q := by
  simp [updateTable, h]

/-- What is kept of every table. -/
structure Keeps (f f' : Files) : Prop where
  hinted : ∀ p, (f.table p).Hinted → (f'.table p).Hinted
  counted : ∀ p, (f.table p).Counted → (f'.table p).Counted

theorem Keeps.refl (f : Files) : Keeps f f := ⟨fun _ h => h, fun _ h => h⟩

theorem Keeps.trans {f'' : Files} (h : Keeps f f') (h' : Keeps f' f'') : Keeps f f'' :=
  ⟨fun p hp => h'.hinted p (h.hinted p hp), fun p hp => h'.counted p (h.counted p hp)⟩

/-- Only the table of `p` changes, and is kept. -/
theorem keeps_of {x : Table} (htable : ∀ q, f'.table q = if q = p then x else f.table q)
    (hx : ((f.table p).Hinted → x.Hinted) ∧ ((f.table p).Counted → x.Counted)) : Keeps f f' := by
  constructor
  · intro q hq
    rw [htable]
    split_ifs with h
    · exact hx.1 (h ▸ hq)
    · exact hq
  · intro q hq
    rw [htable]
    split_ifs with h
    · exact hx.2 (h ▸ hq)
    · exact hq

theorem close_cases {fd : ℕ} (h : f.close p fd = .ok f') :
    (f.table p).Occupied fd ∧ ∀ q, f'.table q = if q = p then (f.table p).closed fd else f.table q := by
  unfold close at h
  cases hd : ((f.table p).slot fd).description with
  | none => simp [hd] at h
  | some d =>
    simp only [hd] at h
    cases h
    refine ⟨by simp [Table.Occupied, hd], ?_⟩
    intro q
    split_ifs with hq
    · subst hq
      simp [decrementRefCount, Table.closed]
    · rw [updateTable_of_ne _ hq]
      rfl

theorem keeps_close {fd : ℕ} (h : f.close p fd = .ok f') : Keeps f f' := by
  obtain ⟨ho, htable⟩ := close_cases h
  exact keeps_of htable ⟨fun hx => hx.closed ho, fun hx => hx.closed ho⟩

theorem keeps_open (cloexec : Bool) : Keeps f (f.open_ p cloexec).2 := by
  have halloc := (f.table p).allocateFdnum_spec 0
  refine keeps_of (x := ((f.table p).allocateFdnum 0).2.setSlot ((f.table p).allocateFdnum 0).1
    ⟨some f.nextDescription, cloexec⟩) ?_ (halloc.filled (by simp))
  intro q
  split_ifs with hq
  · subst hq
    simp [open_, newDescription, updateTable]
  · simp [open_, newDescription, updateTable, hq]

theorem keeps_closeAll {b : FileDescriptor → Bool} (h : f.closeAll p b = .ok f') : Keeps f f' := by
  unfold closeAll at h
  refine foldlM_ok_invariant (Keeps f) (.refl f) ?_ h
  intro fd f1 f2 _ h1 hstep
  split_ifs at hstep
  · exact h1.trans (keeps_close hstep)
  · cases hstep
    exact h1

theorem keeps_closeRange {first last : ℕ} {cloexec : Bool}
    (h : f.closeRange p first last cloexec = .ok f') : Keeps f f' := by
  unfold closeRange at h
  by_cases hlast : first > last
  · rw [if_pos hlast] at h
    cases h
    exact .refl f
  rw [if_neg hlast] at h
  by_cases hnone : (f.table p).fileDescriptors.length = 0
  · rw [if_pos hnone] at h
    simp at h
  rw [if_neg hnone] at h
  refine foldlM_ok_invariant (Keeps f) (.refl f) ?_ h
  intro fd f1 f2 _ h1 hstep
  refine h1.trans ?_
  cases hd : ((f1.table p).slot fd).description with
  | none =>
    simp only [hd] at hstep
    cases hstep
    exact .refl f1
  | some d =>
    simp only [hd] at hstep
    split_ifs at hstep
    · cases hstep
      refine keeps_of (x := (f1.table p).setSlot fd ⟨some d, true⟩) ?_
        (Table.relabelled hd.symm (by simp [Table.Occupied, hd]))
      intro q
      split_ifs with hq
      · subst hq
        simp
      · exact updateTable_of_ne _ hq
    · exact keeps_close hstep

theorem keeps_setFlags {fd : ℤ} {cloexec : Bool} : Keeps f (f.setFlags p fd cloexec) := by
  unfold setFlags
  split_ifs with ho
  · refine keeps_of (x := (f.table p).setSlot fd.toNat
      { (f.table p).slot fd.toNat with cloexec := cloexec }) ?_ (Table.relabelled rfl ho.2.2)
    intro q
    split_ifs with hq
    · subst hq
      simp
    · exact updateTable_of_ne _ hq
  · exact .refl f

theorem duplicate_table (d : FileDescriptor) (b : Bool) : (f.duplicate d b).2.table = f.table := by
  unfold duplicate
  simp only
  split <;> rfl

theorem keeps_dupfd {fd minFdnum : ℤ} {cloexec : Bool} : Keeps f (f.dupfd p fd minFdnum cloexec) := by
  unfold dupfd
  split_ifs with ho
  · have halloc := (f.table p).allocateFdnum_spec minFdnum
    refine keeps_of (x := ((f.table p).allocateFdnum minFdnum).2.setSlot
      ((f.table p).allocateFdnum minFdnum).1
      { (f.table p).slot fd.toNat with cloexec := cloexec }) ?_ (halloc.filled ho.2.2)
    intro q
    split_ifs with hq
    · subst hq
      rw [updateTable_self, duplicate_table, updateTable_self]
      simp only [halloc.slot]
      rfl
    · rw [updateTable_of_ne _ hq, duplicate_table, updateTable_of_ne _ hq]
  · exact .refl f

theorem keeps_pipe (cloexec : Bool) : Keeps f (f.pipe p cloexec) :=
  (keeps_open cloexec).trans (keeps_open cloexec)

/-- The loop of `clone_impl` copies every slot, and leaves the tables as they are. -/
theorem copySlot_foldl (ds : List FileDescriptor) : ∀ c : List FileDescriptor × Files,
    ∃ copies, (ds.foldl copySlot c).1 = c.1 ++ copies ∧
      copies.map (·.description) = ds.map (·.description) ∧
      (ds.foldl copySlot c).2.table = c.2.table := by
  induction ds with
  | nil => exact fun c => ⟨[], by simp⟩
  | cons d ds ih =>
    intro c
    obtain ⟨copies, hacc, hmap, htable⟩ := ih (copySlot c d)
    have hturn : ∃ d', (copySlot c d).1 = c.1 ++ [d'] ∧ d'.description = d.description ∧
        (copySlot c d).2.table = c.2.table := by
      unfold copySlot
      cases hd : d.description with
      | none => exact ⟨⟨none, false⟩, rfl, rfl, rfl⟩
      | some x => exact ⟨(c.2.duplicate d true).1, rfl, hd, duplicate_table d true⟩
    obtain ⟨d', hd', hdesc, htable'⟩ := hturn
    refine ⟨d' :: copies, ?_, ?_, ?_⟩
    · rw [List.foldl_cons, hacc, hd', List.append_assoc]
      rfl
    · simp [hmap, hdesc]
    · rw [List.foldl_cons, htable, htable']

theorem Table.congr {x x' : Table}
    (hds : x'.fileDescriptors.map (·.description) = x.fileDescriptors.map (·.description))
    (hnum : x'.numFileDescriptors = x.numFileDescriptors)
    (hfirst : x'.firstFreeFdnum = x.firstFreeFdnum) :
    (x.Hinted → x'.Hinted) ∧ (x.Counted → x'.Counted) := by
  have hlen : x'.fileDescriptors.length = x.fileDescriptors.length := by
    simpa using congrArg List.length hds
  have hslot : ∀ i, (x'.slot i).description = (x.slot i).description := by
    intro i
    have hget := congrArg (fun l => l[i]?) hds
    simp only [List.getElem?_map] at hget
    unfold Table.slot
    simp only [List.getD_eq_getElem?_getD]
    cases hx' : x'.fileDescriptors[i]? <;> cases hx : x.fileDescriptors[i]? <;> simp_all
  constructor
  · intro hx
    refine ⟨hfirst ▸ hx.nonneg, by rw [hfirst, hlen]; exact hx.le, ?_⟩
    intro i hi _
    unfold Table.Occupied
    rw [hslot]
    exact hx.below i (hfirst ▸ hi) (by simp)
  · intro hx
    have hocc : ∀ y : Table, y.occupied = (y.fileDescriptors.map (·.description)).countP (·.isSome) := by
      intro y
      rw [List.countP_map]
      rfl
    unfold Table.Counted at hx ⊢
    rw [hnum, hx, hocc, hocc, hds]

theorem fork_table : ∃ ds : List FileDescriptor,
    ds.map (·.description) = (f.table p).fileDescriptors.map (·.description) ∧
      ∀ r, (f.fork p q).table r =
        if r = q then { f.table p with fileDescriptors := ds } else f.table r := by
  obtain ⟨copies, hacc, hmap, htable⟩ := copySlot_foldl (f.table p).fileDescriptors ([], f)
  refine ⟨copies, hmap, ?_⟩
  intro r
  unfold fork
  simp only [htable, hacc, List.nil_append, Function.update_apply]

theorem slot_closed {x : Table} {fd i : ℕ} (hlt : fd < x.fileDescriptors.length) (hi : i ≠ fd) :
    (x.closed fd).slot i = x.slot i := by
  show (x.setSlot fd {}).slot i = _
  rw [Table.slot_setSlot hlt, if_neg hi]

theorem vacate_table {fd : ℕ} (h : f.vacate p fd = .ok f') :
    (∀ q, q ≠ p → f'.table q = f.table q) ∧
      (f'.table p).fileDescriptors.length = (f.table p).fileDescriptors.length ∧
      (∀ i, i ≠ fd → (f'.table p).slot i = (f.table p).slot i) ∧
      ((f.table p).Hinted → (f'.table p).Hinted) := by
  unfold vacate at h
  split_ifs at h with ho
  · obtain ⟨-, htable⟩ := close_cases h
    have hself : f'.table p = (f.table p).closed fd := by simp [htable]
    refine ⟨fun q hq => by simp [htable, hq], ?_, ?_, ?_⟩
    · rw [hself]
      exact Table.setSlot_length
    · intro i hi
      rw [hself]
      exact slot_closed (Table.lt_of_occupied ho) hi
    · exact (keeps_close h).hinted p
  · cases h
    exact ⟨fun _ _ => rfl, rfl, fun _ _ => rfl, id⟩

/-- The hint survives `dup3`, which only fills a slot; what is counted does not. -/
theorem dup3_hinted {oldfd newfd : ℤ} {cloexec : Bool}
    (h : f.dup3 p oldfd newfd cloexec = .ok f') (r : Pid) (hr : (f.table r).Hinted) :
    (f'.table r).Hinted := by
  unfold dup3 at h
  by_cases hskip : ¬f.Open p oldfd ∨ 1023 < newfd ∨ newfd < 0 ∨ oldfd = newfd
  · rw [if_pos hskip] at h
    cases h
    exact hr
  rw [if_neg hskip] at h
  obtain ⟨hopen, -, hnew, hne⟩ : f.Open p oldfd ∧ ¬1023 < newfd ∧ ¬newfd < 0 ∧ ¬oldfd = newfd := by
    simpa only [not_or, not_not] using hskip
  obtain ⟨f1, hf1, rfl⟩ := exists_ok_of_map h
  obtain ⟨hother, hlen, hslot, hhint⟩ := vacate_table hf1
  by_cases hrp : r = p
  · subst hrp
    simp only [updateTable_self] at hlen hslot hhint
    rw [updateTable_self, duplicate_table]
    refine (hhint hr.growTo).setSlot ?_ ?_
    · rw [hlen]
      exact Table.growTo_length
    · -- the slot that is duplicated is another one
      show ((f1.table r).slot oldfd.toNat).description ≠ none
      have h0 := hopen.1
      rw [hslot _ (by omega), Table.slot_growTo]
      exact hopen.2.2
  · rw [updateTable_of_ne _ hrp, duplicate_table, hother r hrp, updateTable_of_ne _ hrp]
    exact hr

/-! ## Runs -/

/-- Every table has its hint right. -/
def AllHinted (f : Files) : Prop := ∀ p, (f.table p).Hinted

/-- Every table has its number right. -/
def AllCounted (f : Files) : Prop := ∀ p, (f.table p).Counted

/-- No slot is filled without `allocate_fdnum`: `dup2` and `dup3` fail or name one descriptor
    twice. -/
def Counts (f : Files) : FilesOp → Prop
  | .dup3 p oldfd newfd _ => ¬f.Open p oldfd ∨ 1023 < newfd ∨ newfd < 0 ∨ oldfd = newfd
  | _ => True

instance (f : Files) (op : FilesOp) : Decidable (f.Counts op) := by
  cases op <;> unfold Counts <;> infer_instance

/-- Every call but `dup3` and `fork` keeps the tables it touches. -/
theorem step_keeps {op : FilesOp} (h : f.step op = .ok f')
    (hdup : ∀ p oldfd newfd cloexec, op ≠ .dup3 p oldfd newfd cloexec)
    (hfork : ∀ p q, op ≠ .fork p q) : Keeps f f' := by
  cases op with
  | open_ p cloexec =>
    cases h
    exact keeps_open cloexec
  | pipe p cloexec =>
    cases h
    exact keeps_pipe cloexec
  | close p fd =>
    replace h : f.syscallClose p fd = .ok f' := h
    unfold syscallClose at h
    split_ifs at h
    · exact keeps_close h
    · cases h
      exact .refl f
  | closeRange p first last cloexec => exact keeps_closeRange h
  | dupfd p fd minFdnum cloexec =>
    cases h
    exact keeps_dupfd
  | setFlags p fd cloexec =>
    cases h
    exact keeps_setFlags
  | dup3 p oldfd newfd cloexec => exact absurd rfl (hdup p oldfd newfd cloexec)
  | fork p q => exact absurd rfl (hfork p q)
  | exec p => exact keeps_closeAll (show f.closeAll p (fun d => d.cloexec) = .ok f' from h)
  | exit p => exact keeps_closeAll (show f.closeAll p (fun d => d.description.isSome) = .ok f' from h)

/-- A forked process takes over both numbers with the slots. -/
theorem step_fork (h : f.step (.fork p q) = .ok f') :
    (f.AllHinted → f'.AllHinted) ∧ (f.AllCounted → f'.AllCounted) := by
  replace h : (if f.used p ∧ ¬f.used q then Except.ok (f.fork p q) else .ok f) =
    (Except.ok f' : Except Panic Files) := h
  split_ifs at h
  · cases h
    obtain ⟨ds, hds, htable⟩ := fork_table (f := f) (p := p) (q := q)
    have hcopy := @Table.congr (f.table p) { f.table p with fileDescriptors := ds } hds rfl rfl
    constructor
    · intro hf r
      rw [htable]
      split_ifs
      · exact hcopy.1 (hf p)
      · exact hf r
    · intro hf r
      rw [htable]
      split_ifs
      · exact hcopy.2 (hf p)
      · exact hf r
  · cases h
    exact ⟨id, id⟩

theorem step_hinted {op : FilesOp} (h : f.step op = .ok f') (hf : f.AllHinted) : f'.AllHinted := by
  cases op with
  | dup3 p oldfd newfd cloexec => exact fun r => dup3_hinted h r (hf r)
  | fork p q => exact (step_fork h).1 hf
  | _ => exact fun r => (step_keeps h (by simp) (by simp)).hinted r (hf r)

theorem step_counted {op : FilesOp} (h : f.step op = .ok f') (hop : f.Counts op)
    (hf : f.AllCounted) : f'.AllCounted := by
  cases op with
  | dup3 p oldfd newfd cloexec =>
    replace h : f.dup3 p oldfd newfd cloexec = .ok f' := h
    unfold dup3 at h
    rw [if_pos (show ¬f.Open p oldfd ∨ 1023 < newfd ∨ newfd < 0 ∨ oldfd = newfd from hop)] at h
    cases h
    exact hf
  | fork p q => exact (step_fork h).2 hf
  | _ => exact fun r => (step_keeps h (by simp) (by simp)).counted r (hf r)

theorem booted_hinted : booted.AllHinted := by
  intro p
  unfold booted
  by_cases hp : p = 1
  · simp only [hp, if_true]
    refine ⟨by decide, by decide, ?_⟩
    intro i hi _
    have hi : (i : ℤ) < 3 := hi
    have hi : i < 3 := by omega
    interval_cases i <;> decide
  · simp only [hp, if_false]
    exact ⟨by decide, by decide, fun i hi => absurd hi (by simp)⟩

theorem booted_counted : booted.AllCounted := by
  intro p
  unfold booted
  by_cases hp : p = 1
  · simp only [hp, if_true]
    rfl
  · simp only [hp, if_false]
    rfl

end Files

/-- In every run, whatever is duplicated, every slot below the hint is occupied. -/
theorem hint_below_free {f : Files} (h : Run Files.step (fun _ _ => True) Files.booted f) (p : Pid)
    {i : ℕ} (hi : (i : ℤ) < (f.table p).firstFreeFdnum) : (f.table p).Occupied i := by
  have hhinted : f.AllHinted := h.invariant (fun _ _ _ hs _ next =>
    Files.step_hinted next hs) Files.booted_hinted
  exact (hhinted p).below i hi (by simp)

/-- `dup2` behind the table's first free slot. -/
theorem hint_below_free_dup2 : ∃ f : Files,
    (f.table 1).firstFreeFdnum = 3 ∧ (f.table 1).Occupied 2 := by
  obtain ⟨f, hf, hhint⟩ := exists_ok_of_map (show ([FilesOp.dup3 1 0 5 false].foldlM Files.step
    Files.booted).map (fun f => (f.table 1).firstFreeFdnum) = .ok 3 by rfl)
  exact ⟨f, hhint, hint_below_free (Run.start.foldlM (fun _ _ _ => trivial) hf) 1
    (by rw [hhint]; decide)⟩

/-- **Main theorem.** In every run that fills no slot behind the back of `allocate_fdnum`, the
    number beside every table is that of its occupied slots, and every slot below the hint is
    occupied. -/
theorem tables_accounted {f : Files} (h : Run Files.step Files.Counts Files.booted f) (p : Pid) :
    (f.table p).numFileDescriptors = (f.table p).occupied ∧
      ∀ i : ℕ, (i : ℤ) < (f.table p).firstFreeFdnum → (f.table p).Occupied i := by
  have hcounted : f.AllCounted := h.invariant (fun _ _ _ hs ok next =>
    Files.step_counted next ok hs) Files.booted_counted
  have hhinted : f.AllHinted := h.invariant (fun _ _ _ hs _ next =>
    Files.step_hinted next hs) Files.booted_hinted
  exact ⟨hcounted p, fun i hi => (hhinted p).below i hi (by simp)⟩

/-- Two files are opened, the table is forked, and the child closes and duplicates. -/
def forkedOps : List FilesOp := [.open_ 1 false, .open_ 1 true, .close 1 1, .fork 1 2,
  .dupfd 2 0 10 true, .closeRange 2 2 3 false, .pipe 2 false, .exec 2]

theorem tables_accounted_forked : ∃ f : Files,
    (f.table 2).numFileDescriptors = 3 ∧ (f.table 2).firstFreeFdnum = 3 ∧
      (f.table 2).numFileDescriptors = (f.table 2).occupied ∧
      ∀ i : ℕ, (i : ℤ) < (f.table 2).firstFreeFdnum → (f.table 2).Occupied i := by
  obtain ⟨f, hf, hnum⟩ := exists_ok_of_map (show (forkedOps.foldlM Files.step Files.booted).map
    (fun f => ((f.table 2).numFileDescriptors, (f.table 2).firstFreeFdnum)) = .ok (3, 3) by
      rfl)
  have hrun : Run Files.step Files.Counts Files.booted f :=
    Run.start.foldlM (by simp [forkedOps, Files.Counts]) hf
  have hpair := Prod.mk.inj hnum
  exact ⟨f, hpair.1, hpair.2, tables_accounted hrun 2⟩

/-- `dup2(0, 5)` of the init process: four slots are occupied, three are counted. -/
theorem dup2_uncounted : ∃ f : Files,
    Run Files.step (fun _ _ => True) Files.booted f ∧
      (f.table 1).numFileDescriptors = 3 ∧ (f.table 1).occupied = 4 := by
  obtain ⟨f, hf, hnum⟩ := exists_ok_of_map (show ([FilesOp.dup3 1 0 5 false].foldlM Files.step
    Files.booted).map (fun f => ((f.table 1).numFileDescriptors, (f.table 1).occupied)) =
      .ok (3, 4) by rfl)
  have hpair := Prod.mk.inj hnum
  exact ⟨f, Run.start.foldlM (fun _ _ _ => trivial) hf, hpair.1, hpair.2⟩

/-! ## Descriptors from a minimum on -/

namespace Table

variable {x : Table} {min : ℕ}

/-- The first slot that the loop of `allocate_fdnum` looks at. -/
def searchBegin (x : Table) (minFdnum : ℤ) : ℤ :=
  if minFdnum < x.firstFreeFdnum then x.firstFreeFdnum else minFdnum

theorem allocateFdnum_fst (x : Table) (minFdnum : ℤ) : (x.allocateFdnum minFdnum).1 =
    (x.findFree (x.fileDescriptors.length + 1) (x.searchBegin minFdnum).toNat).getD
      x.fileDescriptors.length := by
  unfold allocateFdnum searchBegin
  simp only [findFree_num]
  cases x.findFree (x.fileDescriptors.length + 1)
    (if minFdnum < x.firstFreeFdnum then x.firstFreeFdnum else minFdnum).toNat with
  | some j => rfl
  | none =>
    simp only
    split_ifs <;> rfl

/-- The slots that may be handed out. -/
def freeFrom (x : Table) (min : ℕ) : Set ℕ := {n | min ≤ n ∧ ¬x.Occupied n}

/-- What the search passes over is occupied. -/
theorem occupied_before_searchBegin (hx : x.Hinted) {n : ℕ} (hmin : min ≤ n)
    (hn : (n : ℤ) < x.searchBegin min) : x.Occupied n := by
  unfold searchBegin at hn
  split_ifs at hn with hlt
  · exact hx.below n hn (by simp)
  · omega

/-- A table that reaches up to the minimum hands out the least free slot; a shorter one is
    lengthened by one slot only. -/
theorem allocateFdnum_isLeast_iff (hx : x.Hinted) :
    IsLeast (x.freeFrom min) (x.allocateFdnum min).1 ↔ min ≤ x.fileDescriptors.length := by
  have hbefore : ∀ n, min ≤ n → (n : ℤ) < x.searchBegin min → x.Occupied n :=
    fun n => occupied_before_searchBegin hx
  have hb : (min : ℤ) ≤ x.searchBegin min := by
    unfold searchBegin
    split_ifs <;> omega
  rw [allocateFdnum_fst]
  cases hfind : x.findFree (x.fileDescriptors.length + 1) (x.searchBegin min).toNat with
  | some j =>
    obtain ⟨hle, hlt, hfree, hall⟩ := findFree_some hfind
    have hj : min ≤ j := by omega
    refine ⟨fun _ => by omega, fun _ => ⟨⟨hj, hfree⟩, ?_⟩⟩
    rintro n ⟨hmin, hn⟩
    show j ≤ n
    by_contra hjn
    by_cases hnb : (n : ℤ) < x.searchBegin min
    · exact hn (hbefore n hmin hnb)
    · exact hn (hall n (by omega) (by omega))
  | none =>
    have hall := findFree_none hfind (by omega)
    have hend : ¬x.Occupied x.fileDescriptors.length := fun h => (lt_of_occupied h).false
    refine ⟨fun h => h.1.1, fun hroom => ⟨⟨hroom, hend⟩, ?_⟩⟩
    rintro n ⟨hmin, hn⟩
    show x.fileDescriptors.length ≤ n
    by_contra hlt
    by_cases hnb : (n : ℤ) < x.searchBegin min
    · exact hn (hbefore n hmin hnb)
    · exact hn (hall n (by omega) (by omega))

end Table

namespace Files

variable {f : Files} {p : Pid}

/-- `F_DUPFD` and `F_DUPFD_CLOEXEC` of `fcntl_impl` with what they return (fs/vfs.cpp:629-647). -/
def fcntlDupfd (f : Files) (p : Pid) (fd minFdnum : ℤ) (cloexec : Bool) : ℤ × Files :=
  if f.Open p fd then (((f.table p).allocateFdnum minFdnum).1, f.dupfd p fd minFdnum cloexec)
  else (-9, f)

/-- Only the slot that has been allocated is filled. -/
theorem dupfd_table {fd minFdnum : ℤ} {cloexec : Bool} (ho : f.Open p fd) :
    (f.dupfd p fd minFdnum cloexec).table p =
      ((f.table p).allocateFdnum minFdnum).2.setSlot ((f.table p).allocateFdnum minFdnum).1
        { (f.table p).slot fd.toNat with cloexec := cloexec } := by
  have halloc := (f.table p).allocateFdnum_spec minFdnum
  unfold dupfd
  rw [if_pos ho]
  simp only [updateTable_self, duplicate_table, halloc.slot]
  rfl

end Files

/-- **Main theorem.** In every run, `allocate_fdnum(min)` and `fcntl(fd, F_DUPFD, min)` return the
    least descriptor from `min` on that was not open, and change no other slot, exactly if the table
    reaches up to `min`. -/
theorem dupfd_least_iff {f : Files} (h : Run Files.step (fun _ _ => True) Files.booted f) (p : Pid)
    (min : ℕ) :
    ((IsLeast ((f.table p).freeFrom min) ((f.table p).allocateFdnum min).1 ∧
        ∀ i, ((f.table p).allocateFdnum min).2.slot i = (f.table p).slot i) ↔
      min ≤ (f.table p).fileDescriptors.length) ∧
    ∀ fd cloexec, f.Open p fd →
      ((∃ n : ℕ, (f.fcntlDupfd p fd min cloexec).1 = n ∧ IsLeast ((f.table p).freeFrom min) n ∧
        ∀ i, i ≠ n →
          ((f.fcntlDupfd p fd min cloexec).2.table p).slot i = (f.table p).slot i) ↔
      min ≤ (f.table p).fileDescriptors.length) := by
  have hhinted : f.AllHinted := h.invariant (fun _ _ _ hs _ next =>
    Files.step_hinted next hs) Files.booted_hinted
  have hleast : IsLeast ((f.table p).freeFrom min) ((f.table p).allocateFdnum min).1 ↔
      min ≤ (f.table p).fileDescriptors.length := Table.allocateFdnum_isLeast_iff (hhinted p)
  have halloc := (f.table p).allocateFdnum_spec min
  refine ⟨⟨fun hl => hleast.mp hl.1, fun hroom => ⟨hleast.mpr hroom, halloc.slot⟩⟩, ?_⟩
  intro fd cloexec ho
  unfold Files.fcntlDupfd
  rw [if_pos ho]
  constructor
  · rintro ⟨n, hn, hl, -⟩
    obtain rfl := Nat.cast_inj.mp hn
    exact hleast.mp hl
  · intro hroom
    refine ⟨_, rfl, hleast.mpr hroom, ?_⟩
    intro i hi
    rw [Files.dupfd_table ho, Table.slot_setSlot halloc.lt, if_neg hi, halloc.slot]

/-- `F_DUPFD` from 3 on, of the init process that has the descriptors 0, 1 and 2. -/
theorem dupfd_least_booted : ∃ f : Files, (f.fcntlDupfd 1 0 3 false).1 = 4 ∧
    IsLeast ((f.table 1).freeFrom 3) ((f.table 1).allocateFdnum 3).1 := by
  obtain ⟨f, hf, hnum⟩ := exists_ok_of_map (show ([FilesOp.open_ 1 false].foldlM Files.step
    Files.booted).map (fun f => ((f.fcntlDupfd 1 0 3 false).1,
      decide (3 ≤ (f.table 1).fileDescriptors.length))) = .ok (4, true) by rfl)
  obtain ⟨hret, hroom⟩ := Prod.mk.inj hnum
  have hrun : Run Files.step (fun _ _ => True) Files.booted f :=
    Run.start.foldlM (fun _ _ _ => trivial) hf
  exact ⟨f, hret, ((dupfd_least_iff hrun 1 3).1.mpr (of_decide_eq_true hroom)).1⟩

/-- `F_DUPFD` from 10 on, of the init process: the descriptor is 3. -/
theorem dupfd_below_minimum : ¬∀ f : Files, Run Files.step (fun _ _ => True) Files.booted f →
    ∀ (p : Pid) (min : ℕ), min ≤ 1023 → ∀ fd cloexec, f.Open p fd →
      ∃ n : ℕ, (f.fcntlDupfd p fd min cloexec).1 = n ∧ IsLeast ((f.table p).freeFrom min) n := by
  intro h
  obtain ⟨n, hn, hleast⟩ := h _ .start 1 10 (by omega) 0 false (by decide)
  have hthree : (Files.booted.fcntlDupfd 1 0 (10 : ℕ) false).1 = 3 := by rfl
  have hmin := hleast.1.1
  omega

end Fishix.Fs
