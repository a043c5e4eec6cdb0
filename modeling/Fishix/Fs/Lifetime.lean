import Fishix.Fs.DescriptorRefs
import Fishix.Mem.FileRefs
import Fishix.Mem.Boot

/-!
# The life of a file description

Descriptor tables (fs/vfs.cpp, sched/sched.cpp) and page maps (mem/vmm.cpp) as one system: both
refer to `FileDescription`s and keep one count of the references. The calls of a process and page
faults come in any order; each runs to its end before the next one begins.

`ref_count` is an `int`. A reference takes 8 bytes of the kernel heap or more, and the heap has
12 GiB (mem/vmm.cpp:30), so the count does not wrap and is a number here.

What a node answers to `mmap`, and the mode a description was opened with, are arguments of the
call: nothing depends on them here.

* `System.step_sound`: every call keeps the count.
* `description_lifetime`: the count, the destructor and the references in every run.
-/

namespace Fishix.Fs

open Fishix.Mem (Panic Machine Flags Advice PagemapId HeapOk FilesOk)
open Function (update update_self update_of_ne)

/-- Processes with their descriptors and page maps. -/
structure System where
  files : Files
  /-- The memory subsystem; `files` keeps the counts of the descriptions. -/
  mem : Machine
  process : Pid → Mem.Process
  /-- `Process::pagemap`; null in a zombie. -/
  pagemap : Pid → Option ℕ
  /-- The next page map. -/
  pagemaps : ℕ

namespace System

/-- The memory subsystem with the counts of the descriptions. -/
def memory (s : System) : Machine :=
  { s.mem with fileRefs := s.files.refCount, fileClosed := s.files.closed }

/-- What a call of the memory subsystem leaves. -/
def withMemory (s : System) (m : Machine) : System :=
  { s with mem := m, files := { s.files with refCount := m.fileRefs, closed := m.fileClosed } }

/-- A call on the descriptors of a process that is alive. -/
def onFiles (s : System) (p : Pid) (call : Files → Except Panic Files) : Except Panic System :=
  match s.pagemap p with
  | none => .ok s
  | some _ => (call s.files).map fun f => { s with files := f }

/-- A call on the page map of a process that is alive. -/
def onMemory (s : System) (p : Pid)
    (call : PagemapId → Mem.Process → Machine → Except Panic (Mem.Process × Machine)) :
    Except Panic System :=
  match s.pagemap p with
  | none => .ok s
  | some n => (call (.user n) (s.process p) s.memory).map fun x =>
      { s.withMemory x.2 with process := update s.process p x.1 }

/-- `openat_impl` where `open` of the node fails: the description is deleted (fs/vfs.cpp:381-385). -/
def openFails (f : Files) : Files :=
  { f with
    refCount := update f.refCount f.nextDescription 1
    closed := update f.closed f.nextDescription 1
    nextDescription := f.nextDescription + 1 }

/-- `get_file_description` (fs/vfs.cpp:280-286), with what `mmap` reads of the description. -/
def getFileDescription (f : Files) (p : Pid) (fd : ℤ) (canRead canWrite : Bool) (node : Mem.Node) :
    Option Mem.FileDescription :=
  if f.Open p fd then
    ((f.table p).slot fd.toNat).description.map fun d => ⟨d, canRead, canWrite, node⟩
  else none

/-- `clone_impl` that makes a process (sched/sched.cpp:891-905); `q` is a number no process has. -/
def fork (s : System) (p q : Pid) : Except Panic System :=
  match s.pagemap p with
  | none => .ok s
  | some n =>
    if (s.pagemap q).isSome then .ok s
    else (s.memory.fork (.user n) (.user s.pagemaps)).map fun m =>
      let s := s.withMemory m
      { s with
        files := s.files.fork p q
        process := update s.process q (s.process p)
        pagemap := update s.pagemap q (some s.pagemaps)
        pagemaps := s.pagemaps + 1 }

/-- `execve` (sched/sched.cpp:347-567) that succeeds. -/
def exec (s : System) (p : Pid) (binaryBase : U64) (binary : List Machine.Segment)
    (linker : Option (U64 × List Machine.Segment)) : Except Panic System :=
  match s.pagemap p with
  | none => .ok s
  | some n => do
    let (proc, m) ← s.memory.execve (.user s.pagemaps) binaryBase binary linker
    let s := s.withMemory m
    let s := { s with
      process := update s.process p proc
      pagemap := update s.pagemap p (some s.pagemaps)
      pagemaps := s.pagemaps + 1 }
    let f ← s.files.exec p
    let s := { s with files := f }
    let m ← s.memory.deletePagemap (.user n)
    .ok (s.withMemory m)

/-- `execve` that fails after it has made a page map and loaded some segments into it: the old one
    stays (sched/sched.cpp:339-346). -/
def execFails (s : System) (p : Pid) (binaryBase : U64) (binary : List Machine.Segment) :
    Except Panic System :=
  match s.pagemap p with
  | none => .ok s
  | some _ => do
    let m ← s.memory.newPagemap (.user s.pagemaps)
    let (_, m) ← Machine.elfLoad (.user s.pagemaps) binaryBase binary 0#64 m
    .ok { s.withMemory m with pagemaps := s.pagemaps + 1 }

/-- `Process::zombify` (sched/sched.cpp:207-233); the init process does not end. -/
def exit (s : System) (p : Pid) : Except Panic System :=
  match s.pagemap p with
  | none => .ok s
  | some n =>
    if p = 1 then .error .assertion
    else do
      let f ← s.files.exit p
      let s := { s with files := f }
      let m ← s.memory.deletePagemap (.user n)
      .ok { s.withMemory m with pagemap := update s.pagemap p none }

end System

/-- The calls of a process `p`, and its page faults. -/
inductive SystemOp
  | open_ (p : Pid) (cloexec : Bool)
  | openFails (p : Pid)
  | pipe (p : Pid) (cloexec : Bool)
  | close (p : Pid) (fd : ℤ)
  | closeRange (p : Pid) (first last : ℕ) (cloexec : Bool)
  | dupfd (p : Pid) (fd minFdnum : ℤ) (cloexec : Bool)
  | setFlags (p : Pid) (fd : ℤ) (cloexec : Bool)
  | dup3 (p : Pid) (oldfd newfd : ℤ) (cloexec : Bool)
  | mmap (p : Pid) (addr length : U64) (prot flags : Flags) (fd : ℤ) (offset : U64)
      (canRead canWrite : Bool) (node : Mem.Node)
  | munmap (p : Pid) (addr length : U64)
  | mprotect (p : Pid) (addr length : U64) (prot : Flags)
  | madvise (p : Pid) (addr length : U64) (advice : Advice)
  | brk (p : Pid) (addr : U64)
  | fault (p : Pid) (virt : U64)
  | fork (p q : Pid)
  | exec (p : Pid) (binaryBase : U64) (binary : List Machine.Segment)
      (linker : Option (U64 × List Machine.Segment))
  | execFails (p : Pid) (binaryBase : U64) (binary : List Machine.Segment)
  | exit (p : Pid)

namespace System

def step (s : System) : SystemOp → Except Panic System
  | .open_ p cloexec => s.onFiles p fun f => .ok (f.open_ p cloexec).2
  | .openFails p => s.onFiles p fun f => .ok (openFails f)
  | .pipe p cloexec => s.onFiles p fun f => .ok (f.pipe p cloexec)
  | .close p fd => s.onFiles p fun f => f.syscallClose p fd
  | .closeRange p first last cloexec => s.onFiles p fun f => f.closeRange p first last cloexec
  | .dupfd p fd minFdnum cloexec => s.onFiles p fun f => .ok (f.dupfd p fd minFdnum cloexec)
  | .setFlags p fd cloexec => s.onFiles p fun f => .ok (f.setFlags p fd cloexec)
  | .dup3 p oldfd newfd cloexec => s.onFiles p fun f => f.dup3 p oldfd newfd cloexec
  | .mmap p addr length prot flags fd offset canRead canWrite node =>
    s.onMemory p fun n proc m => (m.syscallMmap n proc addr length prot flags
      (getFileDescription s.files p fd canRead canWrite node) offset).map (·.2)
  | .munmap p addr length => s.onMemory p fun n proc m => (m.syscallMunmap n proc addr length).map (·.2)
  | .mprotect p addr length prot =>
    s.onMemory p fun n proc m => (m.syscallMprotect n addr length prot).map fun x => (proc, x.2)
  | .madvise p addr length advice =>
    s.onMemory p fun n proc m => (m.syscallMadvise n addr length advice).map fun x => (proc, x.2)
  | .brk p addr => s.onMemory p fun n proc m => (m.syscallBrk n proc addr).map (·.2)
  | .fault p virt =>
    s.onMemory p fun n proc m => (m.handlePageFault n virt).map fun x => (proc, x.2)
  | .fork p q => s.fork p q
  | .exec p binaryBase binary linker => s.exec p binaryBase binary linker
  | .execFails p binaryBase binary => s.execFails p binaryBase binary
  | .exit p => s.exit p

/-- `create_init_process` (sched/sched.cpp:569-606) on the memory `VMM::init` leaves. -/
def createInitProcess (m : Machine) (binaryBase : U64) (binary : List Machine.Segment)
    (linker : Option (U64 × List Machine.Segment)) : Except Panic System :=
  let s : System :=
    { files := Files.booted, mem := m, process := fun _ => ⟨0#64, 0#64⟩, pagemap := fun _ => none
      pagemaps := 0 }
  (s.memory.execve (.user 0) binaryBase binary linker).map fun x =>
    { s.withMemory x.2 with
      process := update s.process 1 x.1
      pagemap := update s.pagemap 1 (some 0)
      pagemaps := 1 }

/-- Only the kernel has ranges, and none is of a file. -/
structure KernelOnly (m : Machine) : Prop where
  heap : HeapOk m
  noUser : ∀ n, m.rangeList (.user n) = []
  noFile : ∀ r ∈ m.rangeList .kernel, (m.range r).file = none

/-! ## The references -/

/-- The slots of processes that are alive that refer to `d`. -/
def slotRefs (s : System) (d : DescriptionId) : Set (Pid × ℕ) :=
  {x | (s.pagemap x.1).isSome ∧ ((s.files.table x.1).slot x.2).description = some d}

/-- The mapped ranges that refer to `d`. -/
def rangeRefs (s : System) (d : DescriptionId) : Set Mem.RangeId := s.mem.rangeRefs d

/-! ## The invariant -/

variable {G : Set DescriptionId} {P P' : Set Pid} {L L' : Set ℕ} {s s' : System} {f : Files} {m : Machine} {p : Pid}

/-- The descriptions are counted, and those of `G` are gone; the processes of `P` have descriptors
    and the page maps of `L` are alive. -/
structure Counted (G : Set DescriptionId) (P : Set Pid) (L : Set ℕ) (s : System) : Prop where
  files : s.files.CountedWith P s.mem.rangeRefs G
  mem : FilesOk s.files.slotRefs s.files.nextDescription G L s.pagemaps s.memory

theorem Counted.withFiles (h : Counted G P L s) (hf : f.CountedWith P' s.mem.rangeRefs G) :
    Counted G P' L { s with files := f } :=
  ⟨hf, ⟨⟨h.mem.kept.heap.congr (fun _ => rfl) rfl, hf.refs⟩, h.mem.lt,
    fun n hn => (h.mem.cache n hn).congr rfl fun _ => rfl, h.mem.unmade⟩⟩

theorem Counted.withMemory {maps : ℕ} (h : Counted G P L s)
    (hm : FilesOk s.files.slotRefs s.files.nextDescription G L' maps m) :
    Counted G P L' { s.withMemory m with pagemaps := maps } :=
  ⟨⟨hm.kept.refs, h.files.vacant⟩, hm⟩

theorem Counted.mono (h : Counted G P L s) (hL : L' ⊆ L) : Counted G P L' s :=
  ⟨h.files, ⟨h.mem.kept, fun n hn => h.mem.lt n (hL hn), fun n hn => h.mem.cache n (hL hn),
    h.mem.unmade⟩⟩

/-- The processes that are alive. -/
def alive (s : System) : Set Pid := {p | (s.pagemap p).isSome}

/-- Their page maps. -/
def maps (s : System) : Set ℕ := {n | ∃ p, s.pagemap p = some n}

/-- The state between two calls. -/
structure Sound (G : Set DescriptionId) (s : System) : Prop where
  counted : Counted G s.alive s.maps s
  inj : ∀ p q n, s.pagemap p = some n → s.pagemap q = some n → p = q

/-- A page map that nobody has, or none, is given to a process. -/
theorem inj_update {g : Pid → Option ℕ} {q : Pid} {v : Option ℕ}
    (h : ∀ p q n, g p = some n → g q = some n → p = q) (hv : ∀ n, v = some n → ∀ r, g r ≠ some n)
    (p p' : Pid) (n : ℕ) (hp : update g q v p = some n)
    (hp' : update g q v p' = some n) : p = p' := by
  by_cases hpq : p = q
  · rw [hpq, update_self] at hp
    by_cases hpq' : p' = q
    · rw [hpq, hpq']
    · rw [update_of_ne hpq'] at hp'
      exact absurd hp' (hv n hp p')
  · rw [update_of_ne hpq] at hp
    by_cases hpq' : p' = q
    · rw [hpq', update_self] at hp'
      exact absurd hp (hv n hp' p)
    · rw [update_of_ne hpq'] at hp'
      exact h p p' n hp hp'

theorem Counted.next_free (h : Counted G P s.maps s) (r : Pid) : s.pagemap r ≠ some s.pagemaps := by
  intro hr
  exact absurd (h.mem.lt _ ⟨r, hr⟩) (lt_irrefl _)

/-- A process gets the next page map. -/
theorem maps_update (q : Pid) : {k | ∃ r, update s.pagemap q (some s.pagemaps) r = some k} ⊆
    insert s.pagemaps s.maps := by
  rintro k ⟨r, hr⟩
  by_cases hrq : r = q
  · rw [hrq, update_self] at hr
    exact .inl (Option.some.inj hr).symm
  · rw [update_of_ne hrq] at hr
    exact .inr ⟨r, hr⟩

/-! ## One call -/

theorem Sound.onFiles {call : Files → Except Panic Files} (h : Sound G s)
    (hcall : ∀ {f}, p ∈ s.alive → s.files.CountedWith s.alive s.mem.rangeRefs G →
      call s.files = .ok f → f.CountedWith s.alive s.mem.rangeRefs G)
    (hrun : s.onFiles p call = .ok s') : Sound G s' := by
  unfold System.onFiles at hrun
  cases hp : s.pagemap p with
  | none =>
    rw [hp] at hrun
    cases hrun
    exact h
  | some n =>
    rw [hp] at hrun
    obtain ⟨f, hf, rfl⟩ := exists_ok_of_map hrun
    have halive : p ∈ s.alive := by simp [alive, hp]
    have hcounted := h.counted.withFiles (hcall halive h.counted.files hf)
    exact ⟨⟨hcounted.files, hcounted.mem⟩, h.inj⟩

theorem Sound.onMemory
    {call : PagemapId → Mem.Process → Machine → Except Panic (Mem.Process × Machine)}
    (h : Sound G s)
    (hcall : ∀ {n proc proc' m'},
      FilesOk s.files.slotRefs s.files.nextDescription G s.maps s.pagemaps s.memory → n ∈ s.maps →
      call (.user n) proc s.memory = .ok (proc', m') →
      FilesOk s.files.slotRefs s.files.nextDescription G s.maps s.pagemaps m')
    (hrun : s.onMemory p call = .ok s') : Sound G s' := by
  unfold System.onMemory at hrun
  cases hp : s.pagemap p with
  | none =>
    rw [hp] at hrun
    cases hrun
    exact h
  | some n =>
    rw [hp] at hrun
    obtain ⟨⟨proc, m⟩, hm, rfl⟩ := exists_ok_of_map hrun
    have hcounted := h.counted.withMemory (hcall h.counted.mem ⟨p, hp⟩ hm)
    exact ⟨⟨hcounted.files, hcounted.mem⟩, h.inj⟩

theorem getFileDescription_held {fd : ℤ} {canRead canWrite : Bool} {node : Mem.Node}
    {description : Mem.FileDescription}
    (h : getFileDescription f p fd canRead canWrite node = some description) :
    (f.slotRefs description.id).Nonempty := by
  unfold getFileDescription at h
  split_ifs at h with hopen
  obtain ⟨d, hd, rfl⟩ := Option.map_eq_some_iff.mp h
  exact ⟨(p, fd.toNat), hd⟩

section

variable (h : Sound G s)

include h

theorem Sound.fork {q : Pid} (hrun : s.fork p q = .ok s') : Sound G s' := by
  unfold System.fork at hrun
  cases hp : s.pagemap p with
  | none =>
    rw [hp] at hrun
    cases hrun
    exact h
  | some n =>
    simp only [hp] at hrun
    by_cases hq : (s.pagemap q).isSome = true
    · rw [if_pos hq] at hrun
      cases hrun
      exact h
    · rw [if_neg hq] at hrun
      obtain ⟨m, hm, rfl⟩ := exists_ok_of_map hrun
      have hne : p ≠ q := by
        rintro rfl
        simp [hp] at hq
      have hmem := h.counted.withMemory (h.counted.mem.fork ⟨p, hp⟩ hm)
      have hfiles := hmem.withFiles (hmem.files.fork hne hq)
      have halive : insert q s.alive =
          {r | (update s.pagemap q (some s.pagemaps) r).isSome} := by
        ext r
        by_cases hr : r = q
        · simp [hr]
        · simp [alive, hr]
      rw [halive] at hfiles
      have hdone := hfiles.mono (maps_update q)
      refine ⟨⟨hdone.files, hdone.mem⟩, inj_update h.inj ?_⟩
      intro k hk
      rw [← Option.some.inj hk]
      exact h.counted.next_free

/-- The page map of a process that gets another one, or none, is nobody's. -/
theorem Sound.maps_of_update {n : ℕ} {v : Option ℕ} (hp : s.pagemap p = some n)
    (hv : ∀ k, v = some k → k ∈ L ∧ k ≠ n) (hL : s.maps ⊆ L) :
    {k | ∃ r, update s.pagemap p v r = some k} ⊆ L \ {n} := by
  rintro k ⟨r, hr⟩
  by_cases hrp : r = p
  · rw [hrp, update_self] at hr
    exact hv k hr
  · rw [update_of_ne hrp] at hr
    refine ⟨hL ⟨r, hr⟩, ?_⟩
    rintro rfl
    exact hrp (h.inj r p _ hr hp)

theorem Sound.exec {binaryBase : U64} {binary : List Machine.Segment}
    {linker : Option (U64 × List Machine.Segment)}
    (hrun : s.exec p binaryBase binary linker = .ok s') : Sound G s' := by
  unfold System.exec at hrun
  cases hp : s.pagemap p with
  | none =>
    rw [hp] at hrun
    cases hrun
    exact h
  | some n =>
    simp only [hp] at hrun
    obtain ⟨⟨proc, m⟩, hm, hrun⟩ := bind_ok hrun
    obtain ⟨f, hf, hrun⟩ := bind_ok hrun
    obtain ⟨m', hm', rfl⟩ := bind_pure_ok hrun
    have hmem := h.counted.withMemory (h.counted.mem.execve hm)
    have hfiles := hmem.withFiles (hmem.files.closeAll hf)
    have hn : n ∈ insert s.pagemaps s.maps := .inr ⟨p, hp⟩
    have hdone := hfiles.withMemory (hfiles.mem.deletePagemap hn hm')
    have halive : s.alive = {r | (update s.pagemap p (some s.pagemaps) r).isSome} := by
      ext r
      by_cases hr : r = p
      · simp [alive, hr, hp]
      · simp [alive, hr]
    rw [halive] at hdone
    have hnew := hdone.mono (h.maps_of_update (v := some s.pagemaps) hp ?_ (Set.subset_insert _ _))
    · refine ⟨⟨hnew.files, hnew.mem⟩, inj_update h.inj ?_⟩
      intro k hk
      rw [← Option.some.inj hk]
      exact h.counted.next_free
    · intro k hk
      rw [← Option.some.inj hk]
      refine ⟨.inl rfl, ?_⟩
      rintro heq
      exact h.counted.next_free p (heq ▸ hp)

theorem Sound.execFails {binaryBase : U64} {binary : List Machine.Segment}
    (hrun : s.execFails p binaryBase binary = .ok s') : Sound G s' := by
  unfold System.execFails at hrun
  cases hp : s.pagemap p with
  | none =>
    rw [hp] at hrun
    cases hrun
    exact h
  | some n =>
    simp only [hp] at hrun
    obtain ⟨m, hm, hrun⟩ := bind_ok hrun
    obtain ⟨⟨first, m'⟩, hm', rfl⟩ := bind_pure_ok hrun
    have hload := (h.counted.mem.newPagemap hm).elfLoad (.inl rfl) hm'
    have hmem := (h.counted.withMemory hload).mono (Set.subset_insert _ _)
    exact ⟨⟨hmem.files, hmem.mem⟩, h.inj⟩

theorem Sound.exit (hrun : s.exit p = .ok s') : Sound G s' := by
  unfold System.exit at hrun
  cases hp : s.pagemap p with
  | none =>
    rw [hp] at hrun
    cases hrun
    exact h
  | some n =>
    simp only [hp] at hrun
    split_ifs at hrun
    obtain ⟨f, hf, hrun⟩ := bind_ok hrun
    obtain ⟨m, hm, rfl⟩ := bind_pure_ok hrun
    have hfiles := h.counted.withFiles (h.counted.files.exit hf)
    have hdone := hfiles.withMemory (hfiles.mem.deletePagemap ⟨p, hp⟩ hm)
    have halive : s.alive \ {p} = {r | (update s.pagemap p none r).isSome} := by
      ext r
      by_cases hr : r = p
      · simp [hr]
      · simp [alive, hr]
    rw [halive] at hdone
    have hnew := hdone.mono (h.maps_of_update (v := none) hp (by simp) subset_rfl)
    exact ⟨⟨hnew.files, hnew.mem⟩, inj_update h.inj (by simp)⟩

/-- Every call keeps the count. -/
theorem step_sound {op : SystemOp} (hrun : s.step op = .ok s') : Sound G s' := by
  cases op <;> simp only [step] at hrun
  case open_ p cloexec =>
    refine h.onFiles (fun hp hf hcall => ?_) hrun
    cases hcall
    exact hf.open_ hp cloexec
  case openFails p =>
    refine h.onFiles (fun hp hf hcall => ?_) hrun
    cases hcall
    exact hf.stillborn fun e he => update_of_ne he _ _
  case pipe p cloexec =>
    refine h.onFiles (fun hp hf hcall => ?_) hrun
    cases hcall
    exact hf.pipe hp cloexec
  case close p fd => exact h.onFiles (fun _ hf hcall => hf.syscallClose hcall) hrun
  case closeRange p first last cloexec => exact h.onFiles (fun _ hf hcall => hf.closeRange hcall) hrun
  case dupfd p fd minFdnum cloexec =>
    refine h.onFiles (fun hp hf hcall => ?_) hrun
    cases hcall
    exact hf.dupfd
  case setFlags p fd cloexec =>
    refine h.onFiles (fun hp hf hcall => ?_) hrun
    cases hcall
    exact hf.setFlags
  case dup3 p oldfd newfd cloexec => exact h.onFiles (fun _ hf hcall => hf.dup3 hcall) hrun
  case mmap p addr length prot flags fd offset canRead canWrite node =>
    refine h.onMemory (fun hm hn hcall => ?_) hrun
    obtain ⟨⟨res, proc, m⟩, hres, heq⟩ := exists_ok_of_map hcall
    cases heq
    exact hm.mmap hn (fun description hd => getFileDescription_held hd) hres
  case munmap p addr length =>
    refine h.onMemory (fun hm hn hcall => ?_) hrun
    obtain ⟨⟨res, proc, m⟩, hres, heq⟩ := exists_ok_of_map hcall
    cases heq
    exact hm.munmap hn hres
  case mprotect p addr length prot =>
    refine h.onMemory (fun hm hn hcall => ?_) hrun
    obtain ⟨⟨res, m⟩, hres, heq⟩ := exists_ok_of_map hcall
    cases heq
    exact hm.mprotect hn hres
  case madvise p addr length advice =>
    refine h.onMemory (fun hm hn hcall => ?_) hrun
    obtain ⟨⟨res, m⟩, hres, heq⟩ := exists_ok_of_map hcall
    cases heq
    exact hm.madvise hres
  case brk p addr =>
    refine h.onMemory (fun hm hn hcall => ?_) hrun
    obtain ⟨⟨res, proc, m⟩, hres, heq⟩ := exists_ok_of_map hcall
    cases heq
    exact hm.brk hn hres
  case fault p virt =>
    refine h.onMemory (fun hm hn hcall => ?_) hrun
    obtain ⟨⟨res, m⟩, hres, heq⟩ := exists_ok_of_map hcall
    cases heq
    exact hm.fault hn hres
  case fork p q => exact h.fork hrun
  case exec p binaryBase binary linker => exact h.exec hrun
  case execFails p binaryBase binary => exact h.execFails hrun
  case exit p => exact h.exit hrun

end

/-! ## Runs -/

theorem createInitProcess_sound {binaryBase : U64} {binary : List Machine.Segment}
    {linker : Option (U64 × List Machine.Segment)} (hm : KernelOnly m)
    (hrun : createInitProcess m binaryBase binary linker = .ok s) : Sound ∅ s := by
  unfold createInitProcess at hrun
  obtain ⟨⟨proc, m1⟩, h1, rfl⟩ := exists_ok_of_map hrun
  have hslot : ∀ q i, ((Files.booted.table q).slot i).description =
      if q = 1 ∧ i < 3 then some i else none := by
    intro q i
    by_cases hq : q = 1
    · by_cases hi : i < 3
      · rw [if_pos ⟨hq, hi⟩, hq]
        interval_cases i <;> rfl
      · rw [if_neg (fun hc => hi hc.2), hq]
        unfold Table.slot
        rw [List.getD_eq_getElem?_getD, List.getElem?_eq_none (by simp [Files.booted]; omega)]
        rfl
    · simp [Files.booted, hq, Table.slot]
  have hnone : ∀ d, m.rangeRefs d = ∅ := by
    intro d
    rw [Set.eq_empty_iff_forall_notMem]
    rintro r ⟨⟨q, hr⟩, hd⟩
    cases q with
    | kernel => simp [hm.noFile r hr] at hd
    | user n => simp [hm.noUser n] at hr
  have hrefs : ∀ d, Joined Files.booted.slotRefs m.rangeRefs d =
      if d < 3 then {.inl (1, d)} else ∅ := by
    intro d
    ext x
    rcases x with ⟨q, i⟩ | r
    · rw [inl_mem_joined]
      show ((Files.booted.table q).slot i).description = some d ↔ _
      rw [hslot]
      by_cases hd : d < 3
      · rw [if_pos hd]
        simp only [Set.mem_singleton_iff, Sum.inl.injEq, Prod.mk.injEq]
        constructor
        · intro h
          split_ifs at h with hqi
          exact ⟨hqi.1, Option.some.inj h⟩
        · rintro ⟨rfl, rfl⟩
          rw [if_pos ⟨rfl, hd⟩]
      · rw [if_neg hd]
        constructor
        · intro h
          split_ifs at h with hqi
          exact absurd (Option.some.inj h ▸ hqi.2) hd
        · exact fun h => absurd h (Set.notMem_empty _)
    · rw [inr_mem_joined, hnone]
      split_ifs <;> simp
  have hcounted : RefCounted (Joined Files.booted.slotRefs m.rangeRefs) Files.booted.refCount
      Files.booted.closed (· < Files.booted.nextDescription) ∅ := by
    refine ⟨fun d hd _ => ?_, fun d hd => absurd rfl hd, fun d hd => ⟨rfl, ?_⟩, by simp⟩
    · have hd : d < 3 := hd
      rw [hrefs, if_pos hd, Set.ncard_singleton]
      exact ⟨Set.finite_singleton _, Set.singleton_nonempty _, if_pos hd⟩
    · have hd : ¬d < 3 := hd
      rw [hrefs, if_neg hd]
  have hstart : Counted ∅ {1} ∅ { files := Files.booted, mem := m, process := fun _ => ⟨0#64, 0#64⟩
                                  pagemap := fun _ => none, pagemaps := 0 } := by
    refine ⟨⟨hcounted, fun q hq i => ?_⟩, ⟨⟨hm.heap.congr (fun _ => rfl) rfl, hcounted⟩, by simp,
      by simp, fun n _ => hm.noUser n⟩⟩
    rw [hslot, if_neg (fun hc => hq hc.1)]
  have hdone := hstart.withMemory (hstart.mem.execve h1)
  have halive : ({1} : Set Pid) = {p | (update (fun _ : Pid => none) 1 (some 0) p).isSome} := by
    ext r
    by_cases hr : r = 1
    · simp [hr]
    · simp [hr]
  rw [halive] at hdone
  have hmaps : {k | ∃ r, update (fun _ : Pid => (none : Option ℕ)) 1 (some 0) r = some k} ⊆
      insert 0 ∅ := by
    rintro k ⟨r, hr⟩
    by_cases hr1 : r = 1
    · rw [hr1, update_self] at hr
      exact .inl (Option.some.inj hr).symm
    · rw [update_of_ne hr1] at hr
      simp at hr
  have hnew := hdone.mono hmaps
  exact ⟨⟨hnew.files, hnew.mem⟩, inj_update (by simp) (by simp)⟩

/-- In every state of a run the count is right, and what was gone before is gone. -/
theorem run_sound (h : Sound G s) (hrun : Run System.step (fun _ _ => True) s s') : Sound G s' :=
  hrun.invariant (fun _ _ _ hs _ hstep => step_sound hs hstep) h

theorem run_gone (h : Sound ∅ s) (hrun : Run System.step (fun _ _ => True) s s') {d : DescriptionId}
    (hd : s.files.closed d = 1) : s'.files.closed d = 1 := by
  have hs : Sound {e | s.files.closed e = 1} s := by
    refine ⟨⟨⟨⟨h.counted.files.refs.counted, h.counted.files.refs.released,
      h.counted.files.refs.unborn, fun _ he => he⟩, h.counted.files.vacant⟩, ?_⟩, h.inj⟩
    exact ⟨⟨h.counted.mem.kept.heap, ⟨h.counted.files.refs.counted, h.counted.files.refs.released,
      h.counted.files.refs.unborn, fun _ he => he⟩⟩, h.counted.mem.lt, h.counted.mem.cache,
      h.counted.mem.unmade⟩
  exact (run_sound hs hrun).counted.files.refs.stays d hd

theorem slotRefs_eq (h : Sound G s) (d : DescriptionId) : s.slotRefs d = s.files.slotRefs d := by
  ext ⟨p, i⟩
  constructor
  · exact fun hx => hx.2
  · intro hx
    refine ⟨?_, hx⟩
    by_contra hp
    have hx : ((s.files.table p).slot i).description = some d := hx
    rw [h.counted.files.vacant p hp i] at hx
    simp at hx

/-- The count of description `d`, its destructor and its references. -/
structure Accounted (s : System) (d : DescriptionId) : Prop where
  slots_finite : (s.slotRefs d).Finite
  ranges_finite : (s.rangeRefs d).Finite
  /-- While a description lives its count is the number of its references. -/
  count : d < s.files.nextDescription → s.files.closed d = 0 →
    s.files.refCount d = (s.slotRefs d).ncard + (s.rangeRefs d).ncard
  /-- The destructor has run exactly if there is no reference. -/
  gone : d < s.files.nextDescription →
    (s.files.closed d = 1 ↔ s.slotRefs d = ∅ ∧ s.rangeRefs d = ∅)
  once : s.files.closed d ≤ 1
  /-- Nothing refers to a description that has not been made. -/
  unmade : s.files.nextDescription ≤ d →
    s.files.closed d = 0 ∧ s.slotRefs d = ∅ ∧ s.rangeRefs d = ∅

theorem Sound.accounted (h : Sound G s) (d : DescriptionId) : s.Accounted d := by
  have hrefs := h.counted.files.refs
  have hfin := hrefs.finite d
  have hempty : Joined s.files.slotRefs s.mem.rangeRefs d = ∅ ↔
      s.slotRefs d = ∅ ∧ s.rangeRefs d = ∅ := by
    rw [slotRefs_eq h]
    exact joined_eq_empty
  refine ⟨?_, ?_, fun hd hclosed => ?_, fun hd => ?_, hrefs.closed_le_one d, fun hd => ?_⟩
  · rw [slotRefs_eq h]
    exact (hfin.subset Set.subset_union_left).of_finite_image Sum.inl_injective.injOn
  · exact (hfin.subset Set.subset_union_right).of_finite_image Sum.inr_injective.injOn
  · obtain ⟨-, -, hcount⟩ := hrefs.counted d hd hclosed
    rw [hcount, ncard_joined hfin, slotRefs_eq h]
    push_cast
    rfl
  · rw [hrefs.gone_iff hd, hempty]
  · obtain ⟨hclosed, hnone⟩ := hrefs.unborn d (Nat.not_lt.mpr hd)
    exact ⟨hclosed, hempty.mp hnone⟩

end System

/-- **Main theorem.** In every run of the system from the start of the init process, the count of a
    description is the number of slots and mapped ranges that refer to it, its destructor has run,
    once, exactly if there are none, and a description that is gone stays gone: no slot or range ever
    refers to it again. -/
theorem description_lifetime {m : Machine} {binaryBase : U64} {binary : List Machine.Segment}
    {linker : Option (U64 × List Machine.Segment)} {s0 s : System} (hm : System.KernelOnly m)
    (hinit : System.createInitProcess m binaryBase binary linker = .ok s0)
    (hrun : Run System.step (fun _ _ => True) s0 s) :
    (∀ d, s.Accounted d) ∧ ∀ s', Run System.step (fun _ _ => True) s s' →
      ∀ d, s.files.closed d = 1 → s'.files.closed d = 1 := by
  have h := System.run_sound (System.createInitProcess_sound hm hinit) hrun
  exact ⟨h.accounted, fun s' hrun' d hd => System.run_gone h hrun' hd⟩

/-- A file is mapped, the mapping is split and inherited, and the last reference goes with the
    mapping of the child. -/
def mappedOps : List SystemOp := [.open_ 1 false,
  .mmap 1 0#64 0x3000#64 0x3#32 0x2#32 3 0#64 true true .tmpfs, .close 1 3,
  .mprotect 1 0x7f0000811000#64 0x1000#64 0x1#32, .fork 1 2,
  .munmap 1 0x7f0000810000#64 0x3000#64, .munmap 2 0x7f0000810000#64 0x2000#64]

theorem kernelOnly_booted : System.KernelOnly Mem.booted where
  heap := ⟨fun _ => List.nodup_nil, fun _ _ hr => absurd hr List.not_mem_nil,
    fun _ _ _ hr => absurd hr List.not_mem_nil⟩
  noUser := fun _ => rfl
  noFile := fun _ hr => absurd hr List.not_mem_nil

theorem description_lifetime_mapped : ∃ s0 s : System,
    System.createInitProcess Mem.booted 0#64 [] none = .ok s0 ∧
      Run System.step (fun _ _ => True) s0 s ∧ s.files.nextDescription = 4 ∧
      s.files.refCount 3 = 1 ∧ s.files.closed 3 = 0 ∧ s.Accounted 3 := by
  obtain ⟨s, hs, hread⟩ := exists_ok_of_map (show ((System.createInitProcess Mem.booted 0#64 [] none >>=
      fun s0 => mappedOps.foldlM System.step s0)).map
    (fun s => (s.files.nextDescription, s.files.refCount 3, s.files.closed 3)) = .ok (4, 1, 0) by
      decide +kernel)
  obtain ⟨s0, hinit, hops⟩ := bind_ok hs
  have hrun : Run System.step (fun _ _ => True) s0 s := Run.start.foldlM (fun _ _ _ => trivial) hops
  obtain ⟨hnext, hrest⟩ := Prod.mk.inj hread
  obtain ⟨hcount, hclosed⟩ := Prod.mk.inj hrest
  exact ⟨s0, s, hinit, hrun, hnext, hcount, hclosed,
    (description_lifetime kernelOnly_booted hinit hrun).1 3⟩

end Fishix.Fs
