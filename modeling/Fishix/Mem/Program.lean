import Fishix.Mem.Backing

/-!
# The address space of a program

`execve` maps the segments of a binary, those of its linker and the stack, one after the other,
through `map_anonymous` (userland/elf.cpp:38-52, sched/sched.cpp:420-443).

* `execve_windows`: it is a series of calls of `add_range` on an empty page map.
-/

namespace Fishix.Mem

/-- What `elf::load` maps for a `PT_LOAD` header (userland/elf.cpp:38-52). -/
def segmentWindow (loadBase : U64) (ph : Machine.Segment) : RangeArgs :=
  let misalign := ph.virtAddr &&& 0xFFF#64
  let memPageCount := (ph.memSize + misalign + pageSize - 1#64) / pageSize
  (Mapping.anonymous true).args (alignDown (loadBase + ph.virtAddr) pageSize)
    (memPageCount * pageSize) (pagePresent ||| pageUser ||| pageWritable)

/-- The stack (sched/sched.cpp:443). -/
def stackWindow : RangeArgs :=
  (Mapping.anonymous true).args Machine.userMmapBase Machine.userStackSize
    (pagePresent ||| pageUser ||| pageWritable ||| pageNoExecute)

/-- Everything that `execve` maps, in this order. -/
def programWindows (binaryBase : U64) (binary : List Machine.Segment)
    (linker : Option (U64 × List Machine.Segment)) : List RangeArgs :=
  binary.map (segmentWindow binaryBase) ++
    ((linker.elim [] fun l => l.2.map (segmentWindow l.1)) ++ [stackWindow])

/-- A call of `add_range`. -/
def addWindow (p : PagemapId) (m : Machine) (a : RangeArgs) : Except Panic Machine := do
  let (_, m) ← m.addRange p a
  .ok m

section Execve

variable {m m' : Machine} {p : PagemapId}

theorem mapAs_addWindow {k : Mapping} {base length pageFlags : U64}
    (h : m.mapAs p k base length pageFlags = .ok m') :
    addWindow p m (k.args base length pageFlags) = .ok m' := by
  obtain ⟨res, hadd⟩ := mapAs_addRange h
  unfold addWindow
  rw [hadd]
  rfl

theorem foldlM_addWindow_append {l l' : List RangeArgs} {m1 : Machine}
    (h : l.foldlM (addWindow p) m = .ok m1) (h' : l'.foldlM (addWindow p) m1 = .ok m') :
    (l ++ l').foldlM (addWindow p) m = .ok m' := by
  rw [List.foldlM_append, h]
  exact h'

theorem foldlM_loadSegment {loadBase : U64} :
    ∀ {segments : List Machine.Segment} {m : Machine} {f f' : U64},
      segments.foldlM (Machine.loadSegment p loadBase) (f, m) = .ok (f', m') →
      (segments.map (segmentWindow loadBase)).foldlM (addWindow p) m = .ok m' := by
  intro segments
  induction segments with
  | nil =>
    intro m f f' h
    rw [(pure_pair h).2]
    rfl
  | cons ph segments ih =>
    intro m f f' h
    rw [List.foldlM_cons] at h
    obtain ⟨⟨f1, m1⟩, h1, h2⟩ := bind_ok h
    obtain ⟨m2, h3, h4⟩ := bind_ok h1
    obtain rfl := (pure_pair h4).2
    have hadd : addWindow p m (segmentWindow loadBase ph) = .ok m2 :=
      mapAs_addWindow (k := .anonymous true) h3
    rw [List.map_cons, List.foldlM_cons, hadd]
    exact ih h2

theorem elfLoad_addWindow {loadBase f f' : U64} {segments : List Machine.Segment}
    (h : Machine.elfLoad p loadBase segments f m = .ok (f', m')) :
    (segments.map (segmentWindow loadBase)).foldlM (addWindow p) m = .ok m' := by
  obtain ⟨⟨f1, m1⟩, h1, h2⟩ := bind_ok h
  obtain rfl := (pure_pair h2).2
  exact foldlM_loadSegment h1

/-- The machine after `execve` comes from a new page map by the calls of `add_range`. -/
theorem execve_windows {binaryBase : U64} {binary : List Machine.Segment}
    {linker : Option (U64 × List Machine.Segment)} {proc : Process}
    (h : m.execve p binaryBase binary linker = .ok (proc, m')) :
    ∃ m0, m.newPagemap p = .ok m0 ∧
      (programWindows binaryBase binary linker).foldlM (addWindow p) m0 = .ok m' := by
  unfold Machine.execve at h
  obtain ⟨m0, h0, h⟩ := bind_ok h
  obtain ⟨⟨firstFree, m1⟩, h1, h⟩ := bind_ok h
  dsimp only at h
  obtain ⟨m2, h2, h⟩ := bind_ok h
  obtain ⟨m3, h3, h⟩ := bind_ok h
  obtain rfl := (pure_pair h).2
  have hlinker : (linker.elim [] fun l => l.2.map (segmentWindow l.1)).foldlM (addWindow p) m1 =
      .ok m2 := by
    cases linker with
    | none =>
      rw [Except.ok.inj h2]
      rfl
    | some l =>
      obtain ⟨⟨f, m4⟩, h4, rfl⟩ := bind_pure_ok h2
      exact elfLoad_addWindow h4
  have hstack : addWindow p m2 stackWindow = .ok m3 := mapAs_addWindow (k := .anonymous true) h3
  refine ⟨m0, h0, foldlM_addWindow_append (elfLoad_addWindow h1)
    (foldlM_addWindow_append hlinker ?_)⟩
  rw [List.foldlM_cons, hstack]
  rfl

end Execve

end Fishix.Mem
