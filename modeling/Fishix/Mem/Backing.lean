import Fishix.Mem.RangeRun
import Fishix.Mem.Boot

/-!
# Backing positions

A page fault in a FILE, DIRECT or DIRECT_VIRTUAL range takes the page from a position in the
backing: `page_virt - original_base` plus `file_offset` or `phy_base` (mem/vmm.cpp:268-300).
`original_base` exists so that the position survives a change of `base`, but a split, an
`mprotect` and a `fork` make a new range and count from `base` instead. The history of the
calls that mapped each address (`Origins`) runs along with the machine, and the two agree in
every run in which no range is split, protected in part or forked after its front was cut.

* `Follows`: a range serves its addresses from the positions of an origin.
* `Backs.map`, `Backs.protect`, `Backs.fork`: the law is kept, operation by operation.
* `backing_run`: the page fault, in every state of a run.
-/

namespace Fishix.Mem

/-! ## Origins -/

/-- The call that mapped an address: its `base` and the position in the backing that belongs to
    `base`. -/
structure Origin where
  type : RangeType
  file : Option FileId
  base : U64
  offset : U64

/-- The position of the page of `virt`: `o + (page(v) - b)`. -/
def Origin.at (o : Origin) (virt : U64) : U64 := o.offset + (alignDown virt pageSize - o.base)

/-- `file_offset` of a FILE range, `phy_base` of the others. -/
def MappedRange.backingOffset (e : MappedRange) : U64 :=
  if e.type = .file then e.fileOffset else e.phyBase

def RangeArgs.backingOffset (a : RangeArgs) : U64 :=
  if a.type = .file then a.fileOffset else a.phyBase

/-- The range serves from the positions of the origin. -/
structure Follows (e : MappedRange) (o : Origin) : Prop where
  type : e.type = o.type
  file : e.file = o.file
  offset : e.backingOffset - e.originalBase = o.offset - o.base

theorem Follows.position {e : MappedRange} {o : Origin} (h : Follows e o) (virt : U64) :
    e.position virt + e.backingOffset = o.at virt := by
  have hoff := h.offset
  unfold MappedRange.position Origin.at
  bv_omega

/-- For every page map, the call that mapped each address and was not undone since. -/
abbrev Origins := ℕ → U64 → Option Origin

/-- Every address with an origin is in a range of the page map that serves from it. -/
def Backs (m : Machine) (g : Origins) : Prop :=
  ∀ n v o, g n v = some o → o.type ≠ .anonymous ∧
    ∃ r ∈ m.rangeList (.user n), (m.range r).Contains v ∧ Follows (m.range r) o

/-! ## Calls -/

/-- What is mapped over a window: the functions of mem/vmm.cpp:491-504, the call of `MemFD::mmap`
    and that of `munmap`. -/
inductive Mapping where
  | anonymous (keepPages : Bool)
  | direct (phyBase : U64)
  | file (file : FileId) (fileOffset : U64)
  | mirror (address : U64)
  | unmap

/-- The arguments of `add_range`. -/
def Mapping.args (k : Mapping) (base length pageFlags : U64) : RangeArgs :=
  match k with
  | .anonymous keepPages =>
    { base, length, pageFlags, type := .anonymous, phyBase := 0#64, file := none
      fileOffset := 0#64, merge := true, resolveOverlap := true, keepPages }
  | .direct phyBase =>
    { base, length, pageFlags, type := .direct, phyBase, file := none
      fileOffset := 0#64, merge := false, resolveOverlap := true, keepPages := false }
  | .file f fileOffset =>
    { base, length, pageFlags, type := .file, phyBase := 0#64, file := some f
      fileOffset, merge := false, resolveOverlap := true, keepPages := false }
  | .mirror address =>
    { base, length, pageFlags, type := .directVirtual, phyBase := address, file := none
      fileOffset := 0#64, merge := false, resolveOverlap := true, keepPages := false }
  | .unmap =>
    { base, length, pageFlags := 0#64, type := .none, phyBase := 0#64, file := none
      fileOffset := 0#64, merge := false, resolveOverlap := true, keepPages := false }

/-- `map_anonymous`, `map_direct`, `map_file`, the mapping of a shared memory file, `munmap`. -/
def Machine.mapAs (m : Machine) (p : PagemapId) (k : Mapping) (base length pageFlags : U64) :
    Except Panic Machine :=
  match k with
  | .anonymous keepPages => m.mapAnonymous p base length pageFlags keepPages
  | .direct phyBase => m.mapDirect p base length pageFlags phyBase
  | .file file fileOffset => m.mapFile p base length pageFlags file fileOffset
  | .mirror address => m.mapVirtual p base length pageFlags address
  | .unmap => m.unmapRange p base length

theorem mapAs_addRange {m m' : Machine} {p : PagemapId} {k : Mapping} {base length pageFlags : U64}
    (h : m.mapAs p k base length pageFlags = .ok m') :
    ∃ res, m.addRange p (k.args base length pageFlags) = .ok (res, m') := by
  cases k with
  | anonymous keepPages =>
    obtain ⟨-, -, h⟩ := bind_ok h
    obtain ⟨⟨res, m1⟩, h1, h⟩ := bind_ok h
    cases h
    exact ⟨res, h1⟩
  | direct phyBase =>
    obtain ⟨-, -, h⟩ := bind_ok h
    obtain ⟨⟨res, m1⟩, h1, h⟩ := bind_ok h
    cases h
    exact ⟨res, h1⟩
  | file file fileOffset =>
    obtain ⟨-, -, h⟩ := bind_ok h
    obtain ⟨⟨res, m1⟩, h1, h⟩ := bind_ok h
    cases h
    exact ⟨res, h1⟩
  | mirror address =>
    obtain ⟨⟨res, m1⟩, h1, h⟩ := bind_ok h
    cases h
    exact ⟨res, h1⟩
  | unmap =>
    obtain ⟨⟨res, m1⟩, h1, h⟩ := bind_ok h
    cases h
    exact ⟨res, h1⟩

/-- One call into the memory subsystem by a process. -/
inductive Call where
  | map (n : ℕ) (k : Mapping) (base length pageFlags : U64)
  | protect (n : ℕ) (addr length : U64) (prot : Flags)
  | fault (n : ℕ) (virt : U64)
  /-- The body of the loop of `madvise`. -/
  | dontNeed (n : ℕ) (virt : U64)
  | create (n : ℕ)
  | fork (n k : ℕ)

/-- The origin of an address of the window of a call. -/
def Mapping.origin (k : Mapping) (base length pageFlags : U64) : Option Origin :=
  let a := k.args base length pageFlags
  if a.type = .file ∨ a.type = .direct ∨ a.type = .directVirtual then
    some { type := a.type, file := a.file, base := a.base, offset := a.backingOffset }
  else none

/-- The history after a call: a mapping is the origin of its window, a new page map has none, a
    forked one has those of its parent. -/
def Origins.after (g : Origins) : Call → Origins
  | .map n k base length pageFlags =>
    Function.update g n fun v =>
      if (k.args base length pageFlags).Covers v then k.origin base length pageFlags else g n v
  | .create n => Function.update g n fun _ => none
  | .fork n k => Function.update g k (g n)
  | _ => g

def callMachine (m : Machine) : Call → Except Panic Machine
  | .map n k base length pageFlags => m.mapAs (.user n) k base length pageFlags
  | .protect n addr length prot => do
    let (_, m) ← m.syscallMprotect (.user n) addr length prot
    .ok m
  | .fault n virt => do
    let (_, m) ← m.handlePageFault (.user n) virt
    .ok m
  | .dontNeed n virt => m.invalidatePage (.user n) virt none
  | .create n => m.newPagemap (.user n)
  | .fork n k => m.fork (.user n) (.user k)

/-- A call, with the history that runs along. -/
def callStep (s : Machine × Origins) (c : Call) : Except Panic (Machine × Origins) := do
  let m ← callMachine s.1 c
  .ok (m, s.2.after c)

/-! ## When a call keeps the positions -/

/-- The front of the range was never cut, and its `phy_base` is not taken for a missing one. -/
def MappedRange.Movable (e : MappedRange) : Prop :=
  e.base = e.originalBase ∧ (e.type = .file ∨ e.phyBase ≠ 0#64)

/-- A call over `[base, end)` splits no range, except ANONYMOUS ones and those that can be moved. -/
def SplitsMovable (m : Machine) (n : ℕ) (a : RangeArgs) : Prop :=
  ∀ r ∈ m.rangeList (.user n), (m.range r).type ≠ .anonymous → (m.range r).base < a.base →
    a.end_ < (m.range r).end_ → (m.range r).Movable

/-- `mprotect` over `[current, end)` meets only ANONYMOUS ranges, ranges it covers and ranges that
    can be moved (or whose front it takes). -/
def ProtectsMovable (m : Machine) (n : ℕ) (current end_ : U64) : Prop :=
  ∀ r ∈ m.rangeList (.user n), (m.range r).type ≠ .anonymous → current < (m.range r).end_ →
    (m.range r).base < end_ →
    (current ≤ (m.range r).base ∧ (m.range r).end_ ≤ end_) ∨
    (m.range r).base = (m.range r).originalBase ∧
      ((m.range r).type = .file ∨ (m.range r).phyBase ≠ 0#64 ∨ current ≤ (m.range r).base)

/-- The condition on one call, in the state before it. -/
def Call.Keeps (m : Machine) : Call → Prop
  | .map n k base length pageFlags =>
    let a := k.args base length pageFlags
    m.live (.user n) = true ∧ a.base ≤ a.end_ ∧ (a.type ≠ .none → a.base < a.end_) ∧
      a.OffKernel m ∧ SplitsMovable m n a
  | .protect n addr length _ =>
    let end_ := addr + alignUp length pageSize
    m.live (.user n) = true ∧
      (∀ s ∈ m.rangeList .kernel, ∀ v, addr ≤ v → v < end_ → ¬ (m.range s).Contains v) ∧
      ProtectsMovable m n addr end_
  | .fault n _ => m.live (.user n) = true
  | .dontNeed n _ => m.live (.user n) = true
  | .create n => m.live (.user n) = false
  | .fork n k => m.live (.user n) = true ∧ m.live (.user k) = false ∧
      ∀ r ∈ m.rangeList (.user n), (m.range r).type ≠ .anonymous →
        (m.range r).base = (m.range r).originalBase

/-! ## One range -/

/-- What is left of a range follows the same origin, unless it is the second half of a split of a
    range that cannot be moved. -/
theorem Inherits.follows {a : RangeArgs} {e e' : MappedRange} {o : Origin} (h : Inherits a e e')
    (hsplit : e.base < a.base → a.end_ < e.end_ → e.Movable) (hf : Follows e o) : Follows e' o := by
  refine ⟨h.type.trans hf.type, h.file.trans hf.file, ?_⟩
  have hoff := hf.offset
  unfold MappedRange.backingOffset at hoff ⊢
  rw [h.type]
  obtain ⟨h1, h2, h3⟩ | ⟨hlow, hhigh, -, h1, h2, h3⟩ := h.position
  · rw [h1, h2, h3]
    exact hoff
  · obtain ⟨hbase, hkind⟩ := hsplit hlow hhigh
    rw [h1, h2, h3]
    split_ifs at hoff ⊢ with hfile
    · bv_omega
    · unfold Machine.offsetPhy
      rw [if_pos (hkind.resolve_left hfile)]
      bv_omega

/-- The new range of `mprotect` over part of a range follows the same origin. -/
theorem follows_protectArgs {e e' : MappedRange} {o : Origin} {current end_ flags : U64}
    (hf : Follows e o) (hbase : e.base = e.originalBase)
    (hkind : e.type = .file ∨ e.phyBase ≠ 0#64 ∨ current = e.base) {h}
    (he : e' = (Machine.protectArgs e current end_ flags).toRange h) : Follows e' o := by
  subst he
  refine ⟨hf.type, hf.file, ?_⟩
  have hoff := hf.offset
  unfold MappedRange.backingOffset at hoff ⊢
  show (if e.type = .file then e.fileOffset + (current - e.base)
    else Machine.offsetPhy e.phyBase (current - e.base)) - current = _
  split_ifs at hoff ⊢ with hfile
  · bv_omega
  · unfold Machine.offsetPhy
    split_ifs with hphy
    · bv_omega
    · have hcur := (hkind.resolve_left hfile).resolve_left hphy
      bv_omega

/-- A copy made by `fork` follows the same origin if its front was never cut. -/
theorem follows_forkedRange {e : MappedRange} {o : Origin} (hf : Follows e o)
    (hbase : e.base = e.originalBase) : Follows (forkedRange e) o := by
  refine ⟨hf.type, hf.file, ?_⟩
  have hoff := hf.offset
  rw [← hbase] at hoff
  exact hoff

namespace Backs

variable {m m' : Machine} {g : Origins} {n : ℕ}

theorem of_ranges (h : Backs m g) (hl : ∀ q, m'.rangeList q = m.rangeList q)
    (hr : m'.range = m.range) : Backs m' g := by
  intro q v o hg
  rw [hl, hr]
  exact h q v o hg

section

variable (h : Backs m g) (hok : RangesOk m)

include h hok

/-- Page maps that a call of `add_range` is not about. -/
theorem other {a : RangeArgs} (hadd : AddedRange (.user n) a m m') {q : ℕ} (hq : q ≠ n) {v : U64}
    {o : Origin} (hg : g q v = some o) : o.type ≠ .anonymous ∧
      ∃ r ∈ m'.rangeList (.user q), (m'.range r).Contains v ∧ Follows (m'.range r) o := by
  obtain ⟨ht, r, hr, hv, hf⟩ := h q v o hg
  have hne : PagemapId.user q ≠ .user n := by simpa using hq
  refine ⟨ht, r, by rw [hadd.others _ hne]; exact hr, ?_⟩
  rw [hok.range_of_added hadd hne hr]
  exact ⟨hv, hf⟩

theorem outside {a : RangeArgs} (hadd : AddedRange (.user n) a m m') (hsplit : SplitsMovable m n a)
    {v : U64} {o : Origin} (hg : g n v = some o) (hc : ¬ a.Covers v) : o.type ≠ .anonymous ∧
      ∃ r ∈ m'.rangeList (.user n), (m'.range r).Contains v ∧ Follows (m'.range r) o := by
  obtain ⟨ht, s, hs, hsv, hf⟩ := h n v o hg
  obtain ⟨r, hr, hrv⟩ := hadd.keeps s hs v hsv hc
  obtain ⟨s', hs', hsv', hinh⟩ := hadd.outside r hr v hrv hc
  have heq := hok.unique hs' hs hsv' hsv
  subst heq
  refine ⟨ht, r, hr, hrv, hinh.follows (hsplit s' hs' ?_) hf⟩
  rw [hf.type]
  exact ht

theorem map {k : Mapping} {base length pageFlags : U64}
    (hkeeps : (Call.map n k base length pageFlags).Keeps m)
    (hrun : m.mapAs (.user n) k base length pageFlags = .ok m') :
    Backs m' (g.after (.map n k base length pageFlags)) ∧ RangesOk m' := by
  obtain ⟨-, hle, hlt, hoff, hsplit⟩ := hkeeps
  obtain ⟨res, hadd⟩ := mapAs_addRange hrun
  set a := k.args base length pageFlags with ha
  have hover : a.resolveOverlap = true := by cases k <;> rfl
  have hadded := hok.added hle hover hadd
  refine ⟨fun q v o hg => ?_, hok.addRange hle hlt hover hoff hadd⟩
  by_cases hqn : q = n
  · subst hqn
    simp only [Origins.after, Function.update_self, ← ha] at hg
    split_ifs at hg with hc
    · -- the new range serves its window
      unfold Mapping.origin at hg
      dsimp only at hg
      rw [← ha] at hg
      split_ifs at hg with htype
      cases hg
      have hne : a.type ≠ .none := by
        rintro h0
        rw [h0] at htype
        simp at htype
      have hanon : a.type ≠ .anonymous := by
        rintro h0
        rw [h0] at htype
        simp at htype
      refine ⟨hanon, ?_⟩
      obtain ⟨r, hr, hv⟩ := hadded.fills hne v hc
      refine ⟨r, hr, hv, ?_⟩
      cases hadded.inside r hr v hv hc with
      | new h1 heq =>
        rw [heq]
        exact ⟨rfl, rfl, rfl⟩
      | merged anon => exact absurd anon hanon
      | kept _ exact =>
        have hkeep : a.keepPages = true := exact.1
        cases k with
        | anonymous => exact absurd rfl hanon
        | direct => cases hkeep
        | file => cases hkeep
        | mirror => cases hkeep
        | unmap => cases hkeep
    · exact h.outside hok hadded hsplit hg hc
  · have hg' : g q v = some o := by
      simpa only [Origins.after, Function.update_of_ne hqn] using hg
    exact h.other hok hadded hqn hg'

theorem fork {k : ℕ} (hkeeps : (Call.fork n k).Keeps m) (hrun : m.fork (.user n) (.user k) = .ok m')
    : Backs m' (g.after (.fork n k)) ∧ RangesOk m' := by
  obtain ⟨hlive, hdead, hfront⟩ := hkeeps
  have hkn : k ≠ n := by
    rintro rfl
    rw [hlive] at hdead
    cases hdead
  obtain ⟨m0, h0, hc⟩ := fork_copied hok.heap hkn hrun
  refine ⟨fun q v o hg => ?_, hok.fork hlive hdead hrun⟩
  by_cases hqk : q = k
  · subst hqk
    simp only [Origins.after, Function.update_self] at hg
    obtain ⟨ht, s, hs, hsv, hf⟩ := h n v o hg
    obtain ⟨r, hr, heq⟩ := hc.copied s hs
    have hanon : (m.range s).type ≠ .anonymous := by
      rw [hf.type]
      exact ht
    refine ⟨ht, r, hr, ?_⟩
    rw [heq, h0.range]
    exact ⟨hsv, follows_forkedRange hf (hfront s hs hanon)⟩
  · have hg' : g q v = some o := by
      simpa only [Origins.after, Function.update_of_ne hqk] using hg
    obtain ⟨ht, s, hs, hsv, hf⟩ := h q v o hg'
    have hne : PagemapId.user q ≠ .user k := by simpa using hqk
    have hlist : m'.rangeList (.user q) = m.rangeList (.user q) := by
      rw [hc.others _ hne]
      unfold Machine.rangeList
      rw [h0.pagemap _ hne]
    have hlt := hok.heap.lt _ s hs
    rw [← h0.nextRange] at hlt
    refine ⟨ht, s, by rw [hlist]; exact hs, ?_⟩
    rw [hc.range s hlt, h0.range]
    exact ⟨hsv, hf⟩

end

theorem create (h : Backs m g) (hrun : m.newPagemap (.user n) = .ok m') :
    Backs m' (g.after (.create n)) := by
  obtain ⟨-, hother, -, hrange, -⟩ := newPagemap_pagemap hrun
  intro q v o hg
  by_cases hqn : q = n
  · subst hqn
    simp only [Origins.after, Function.update_self] at hg
    cases hg
  · have hg' : g q v = some o := by
      simpa only [Origins.after, Function.update_of_ne hqn] using hg
    have hlist : m'.rangeList (.user q) = m.rangeList (.user q) := by
      unfold Machine.rangeList
      rw [hother _ (by simpa using hqn)]
    rw [hlist, hrange]
    exact h q v o hg'

end Backs

/-! ## `mprotect` -/

section Protect

open Machine

variable {m m1 m' : Machine} {g : Origins} {n : ℕ} {current end_ flags : U64} {r : RangeId}

/-- The window of one iteration: from `current` to the end of the range or of the request. -/
theorem protectArgs_end (e : MappedRange) (current end_ flags : U64) :
    (protectArgs e current end_ flags).end_ = if e.end_ > end_ then end_ else e.end_ := by
  have hend : current + (e.end_ - current) = e.end_ := by bv_omega
  show current + (if current + (e.end_ - current) > end_ then end_ - current else e.end_ - current) = _
  rw [hend]
  split_ifs
  · bv_omega
  · exact hend

theorem protectArgs_end_le (e : MappedRange) (current end_ flags : U64) :
    (protectArgs e current end_ flags).end_ ≤ end_ ∧
      (protectArgs e current end_ flags).end_ ≤ e.end_ := by
  rw [protectArgs_end]
  split_ifs <;> bv_omega

/-- What one iteration relies on. -/
structure ProtectReady (m : Machine) (n : ℕ) (current end_ : U64) (r : RangeId) : Prop where
  ok : RangesOk m
  lt : current < end_
  mem : r ∈ m.rangeList (.user n)
  contains : (m.range r).Contains current
  movable : ProtectsMovable m n current end_

namespace ProtectReady

variable (h : ProtectReady m n current end_ r)

include h

theorem lt_end (flags : U64) : current < (protectArgs (m.range r) current end_ flags).end_ := by
  rw [protectArgs_end]
  have h1 := h.lt
  have h2 := h.contains.2
  split_ifs
  · exact h1
  · exact h2

/-- The window lies in the range. -/
theorem covers (flags : U64) {v : U64}
    (hv : (protectArgs (m.range r) current end_ flags).Covers v) : (m.range r).Contains v := by
  obtain ⟨h1, h2⟩ := hv
  have hle := (protectArgs_end_le (m.range r) current end_ flags).2
  have hb := h.contains.1
  have h1' : current ≤ v := h1
  exact ⟨BitVec.le_trans hb h1', by bv_omega⟩

/-- Only the range itself overlaps the window. -/
theorem hits_self (flags : U64) {s : RangeId} (hs : s ∈ m.rangeList (.user n))
    (hit : (protectArgs (m.range r) current end_ flags).Hits (m.range s)) : s = r := by
  have hlt := h.lt_end flags
  have hle := (protectArgs_end_le (m.range r) current end_ flags).2
  have hb := h.contains.1
  have hne := h.ok.nonempty n s hs
  unfold RangeArgs.Hits at hit
  have hit1 : current < (m.range s).end_ := by
    have : ¬ current ≥ (m.range s).end_ := fun hge => hit (.inl hge)
    bv_omega
  have hit2 : (m.range s).base < (protectArgs (m.range r) current end_ flags).end_ := by
    have : ¬ (protectArgs (m.range r) current end_ flags).end_ ≤ (m.range s).base :=
      fun hge => hit (.inr hge)
    bv_omega
  by_cases hlow : (m.range s).base ≤ current
  · exact h.ok.unique hs h.mem ⟨hlow, hit1⟩ h.contains
  · refine h.ok.unique hs h.mem (v := (m.range s).base) ⟨BitVec.le_refl _, hne⟩ ⟨?_, ?_⟩
    · bv_omega
    · bv_omega

theorem splitsMovable (flags : U64) :
    SplitsMovable m n (protectArgs (m.range r) current end_ flags) := by
  intro s hs hanon hlow hhigh
  have hlow' : (m.range s).base < current := hlow
  have hlt := h.lt_end flags
  have hsr : s = r := h.ok.unique hs h.mem (v := current)
    ⟨BitVec.le_of_lt hlow', by bv_omega⟩ h.contains
  subst hsr
  have hle := (protectArgs_end_le (m.range s) current end_ flags).1
  have hend : current < (m.range s).end_ := h.contains.2
  have hcur := h.lt
  obtain ⟨h1, -⟩ | ⟨h1, h2 | h2 | h2⟩ := h.movable s hs hanon hend (by bv_omega)
  · bv_omega
  · exact ⟨h1, .inl h2⟩
  · exact ⟨h1, .inr h2⟩
  · bv_omega

/-- One iteration keeps the positions. -/
theorem backs (hg : Backs m g) {res : Option RangeId}
    (hrun : m.addRange (.user n) (protectArgs (m.range r) current end_ flags) = .ok (res, m')) :
    Backs m' g := by
  set a := protectArgs (m.range r) current end_ flags with ha
  have hlt : a.base < a.end_ := h.lt_end flags
  have hadd := h.ok.added (BitVec.le_of_lt hlt) rfl hrun
  intro q v o ho
  by_cases hqn : q = n
  · subst hqn
    by_cases hc : a.Covers v
    · obtain ⟨ht, s, hs, hsv, hf⟩ := hg q v o ho
      have hrv := h.covers flags hc
      have hsr := h.ok.unique hs h.mem hsv hrv
      subst hsr
      have hanon : (m.range s).type ≠ .anonymous := by
        rw [hf.type]
        exact ht
      refine ⟨ht, ?_⟩
      by_cases hexact : a.Exact (m.range s)
      · -- the range is kept
        obtain ⟨hl, -, hrange⟩ := h.ok.addRange_exact rfl hs hexact hlt hrun
        refine ⟨s, by rw [hl]; exact hs, ?_⟩
        rw [hrange, if_pos rfl]
        exact ⟨hsv, hf.type, hf.file, hf.offset⟩
      · obtain ⟨t, ht', htv⟩ := hadd.fills (m.range s).type_ne v hc
        refine ⟨t, ht', htv, ?_⟩
        cases hadd.inside t ht' v htv hc with
        | new hne heq =>
          have hend := h.contains.2
          have hcur := h.lt
          have hb := h.contains.1
          obtain ⟨h1, h2⟩ | ⟨h1, h2⟩ := h.movable s hs hanon hend (by bv_omega)
          · exfalso
            refine hexact ⟨rfl, ?_, ?_, rfl⟩
            · show current = (m.range s).base
              bv_omega
            · rw [ha, protectArgs_end, if_neg (by bv_omega)]
          · refine follows_protectArgs hf h1 (h2.imp id (Or.imp id fun h3 => ?_)) heq
            bv_omega
        | merged anon => exact absurd anon hanon
        | kept hmem exact heq =>
          have : (m.range t).Contains v := by
            unfold MappedRange.Contains
            rw [← exact.2.1, ← exact.2.2.1]
            exact hc
          have hts := h.ok.unique hmem hs this hsv
          subst hts
          exact absurd exact hexact
    · exact hg.outside h.ok hadd (h.splitsMovable flags) ho hc
  · exact hg.other h.ok hadd hqn ho

/-- What is left to do meets the condition again. -/
theorem next {res : Option RangeId}
    (hrun : m.addRange (.user n) (protectArgs (m.range r) current end_ flags) = .ok (res, m'))
    (hmore : (protectArgs (m.range r) current end_ flags).end_ < end_) :
    ProtectsMovable m' n (protectArgs (m.range r) current end_ flags).end_ end_ := by
  set a := protectArgs (m.range r) current end_ flags with ha
  have hlt : a.base < a.end_ := h.lt_end flags
  have hcur : a.base = current := rfl
  have hadd := h.ok.added (BitVec.le_of_lt hlt) rfl hrun
  have hend : a.end_ = (m.range r).end_ := by
    rw [ha, protectArgs_end] at hmore ⊢
    split_ifs at hmore ⊢
    · bv_omega
    · rfl
  intro t ht hanon hlow hhigh
  cases hadd.arises t ht with
  | anonymous type => exact absurd type hanon
  | new hne heq =>
    rw [heq] at hlow
    have : a.end_ < a.end_ := hlow
    bv_omega
  | kept hmem exact heq =>
    rw [heq] at hlow
    have : a.end_ < (m.range t).end_ := hlow
    rw [← exact.2.2.1] at this
    bv_omega
  | @piece s hs hp =>
    have hendeq : (m'.range t).end_ = (m.range s).end_ := by
      rcases hp.end_eq with h1 | ⟨-, h1⟩
      · exact h1
      · bv_omega
    have hsr : s ≠ r := by
      rintro rfl
      rw [hendeq, ← hend] at hlow
      bv_omega
    have hmiss : ¬ a.Hits (m.range s) := fun hit => hsr (h.hits_self flags hs hit)
    have hbase : (m'.range t).base = (m.range s).base :=
      hp.base_eq.resolve_right fun h1 => hmiss h1.1
    have hpos := hp.position.resolve_right fun h1 => hmiss h1.2.2.1
    have hbehind : a.end_ ≤ (m.range s).base := by
      unfold RangeArgs.Hits at hmiss
      rw [not_not] at hmiss
      rw [hendeq] at hlow
      rcases hmiss with h1 | h1
      · bv_omega
      · exact h1
    rw [hp.type] at hanon
    rw [hendeq] at hlow ⊢
    rw [hbase] at hhigh ⊢
    rw [hp.type, hpos.1, hpos.2.1]
    rcases h.movable s hs hanon (by bv_omega) hhigh with ⟨-, h1⟩ | ⟨h1, h2⟩
    · exact .inl ⟨hbehind, h1⟩
    · exact .inr ⟨h1, h2.imp id (Or.imp id fun _ => hbehind)⟩

end ProtectReady

theorem Backs.protectLoop {res : SysResult} (fuel : ℕ) :
    ∀ {m m' : Machine} {current : U64}, Backs m g → RangesOk m → m.live (.user n) = true →
      (∀ s ∈ m.rangeList .kernel, ∀ v, current ≤ v → v < end_ → ¬ (m.range s).Contains v) →
      (current < end_ → ProtectsMovable m n current end_) →
      Machine.protectLoop (.user n) end_ flags fuel current m = .ok (res, m') →
      Backs m' g ∧ RangesOk m' := by
  induction fuel with
  | zero =>
    intro m m' current _ _ _ _ _ h
    cases h
  | succ fuel ih =>
    intro m m' current hg hok hlive hkernel hmov h
    unfold Machine.protectLoop at h
    split_ifs at h with hlt
    · cases hfind : m.addrToRange (.user n) current with
      | mk found m1 =>
        rw [hfind] at h
        have hsame := sameRanges_addrToRange hfind
        have hok1 := hok.addrToRange hlive hfind
        have hg1 := hg.of_ranges hsame.rangeList hsame.range
        cases found with
        | none =>
          cases h
          exact ⟨hg1, hok1⟩
        | some r =>
          obtain ⟨⟨res', m2⟩, hadd, h⟩ := bind_ok h
          have hown : r ∈ m.rangeList (.user n) ∧ (m.range r).Contains current := by
            obtain ⟨hr | hr, hc, -⟩ := addrToRange_some (hok.cache n hlive) hfind
            · exact ⟨hr, hc⟩
            · exact absurd hc (hkernel r hr current (BitVec.le_refl _) hlt)
          have hready : ProtectReady m1 n current end_ r := by
            refine ⟨hok1, hlt, ?_, ?_, ?_⟩
            · rw [hsame.rangeList]
              exact hown.1
            · rw [hsame.range]
              exact hown.2
            · intro s hs
              rw [hsame.rangeList] at hs
              rw [hsame.range]
              exact hmov hlt s hs
          set a := protectArgs (m1.range r) current end_ flags with ha
          have hend := hready.lt_end flags
          have hkernel1 : ∀ s ∈ m1.rangeList .kernel, ∀ v, current ≤ v → v < end_ →
              ¬ (m1.range s).Contains v := by
            rw [hsame.rangeList, hsame.range]
            exact hkernel
          have hoff : a.OffKernel m1 := by
            intro s hs v hv
            have hle : a.end_ ≤ end_ := (protectArgs_end_le _ _ _ _).1
            have hv2 : v < a.end_ := hv.2
            exact hkernel1 s hs v hv.1 (by bv_omega)
          have hok2 := hok1.addRange (BitVec.le_of_lt hend) (fun _ => hend) rfl hoff hadd
          have hadded := hok1.added (BitVec.le_of_lt hend) rfl hadd
          have hstep : current + a.length = a.end_ := rfl
          dsimp only at h
          rw [hstep] at h
          refine ih (hready.backs hg1 hadd) hok2 ?_ ?_ (fun hmore => hready.next hadd hmore) h
          · rw [(addRange_frame hok1.heap rfl hadd).1.live, hsame.live]
            exact hlive
          · intro s hs v h1 h2
            rw [hadded.others _ (by simp)] at hs
            rw [hok1.range_of_added hadded (by simp) hs]
            exact hkernel1 s hs v (by bv_omega) h2
    · cases h
      exact ⟨hg, hok⟩

end Protect

/-! ## Runs -/

theorem Backs.step {s s' : Machine × Origins} {c : Call} (h : Backs s.1 s.2 ∧ RangesOk s.1)
    (hkeeps : c.Keeps s.1) (hrun : callStep s c = .ok s') : Backs s'.1 s'.2 ∧ RangesOk s'.1 := by
  obtain ⟨m, g⟩ := s
  obtain ⟨hg, hok⟩ := h
  obtain ⟨m', hc, heq⟩ := bind_ok hrun
  cases heq
  dsimp only at *
  cases c with
  | map n k base length pageFlags => exact hg.map hok hkeeps hc
  | protect n addr length prot =>
    obtain ⟨hlive, hkernel, hmov⟩ := hkeeps
    obtain ⟨⟨res, m1⟩, hp, heq⟩ := bind_ok hc
    cases heq
    unfold Machine.syscallMprotect at hp
    split_ifs at hp
    · cases hp
      exact ⟨hg, hok⟩
    · exact Backs.protectLoop _ hg hok hlive hkernel (fun _ => hmov) hp
  | fault n v =>
    obtain ⟨⟨res, m1⟩, hf, heq⟩ := bind_ok hc
    cases heq
    have hsame := sameRanges_handlePageFault hf
    exact ⟨hg.of_ranges hsame.rangeList hsame.range, hok.fault hkeeps hf⟩
  | dontNeed n v =>
    have hpo := pagesOnly_invalidatePage (show m.invalidatePage (.user n) v none = .ok m' from hc)
    exact ⟨hg.of_ranges hpo.rangeList hpo.range, hok.pagesOnly hpo⟩
  | create n => exact ⟨hg.create hc, hok.create hc⟩
  | fork n k => exact hg.fork hok hkeeps hc

/-- A page fault that takes the page from position `o.at virt` of the backing. -/
inductive ServedFrom (m m' : Machine) (n : ℕ) (virt : U64) (o : Origin) : Option U64 → Prop
  /-- A new page with what the file holds there. -/
  | file {f : Pfn} {file : FileId} (type : o.type = .file) (isFile : o.file = some file)
      (contents : m'.frame f = m.fileRead file (o.at virt)) : ServedFrom m m' n virt o (some f.phy)
  /-- The physical address itself. -/
  | direct (type : o.type = .direct) : ServedFrom m m' n virt o (some (o.at virt))
  /-- The frame that the walk finds at the mirrored address, right before it is mapped. -/
  | mirror {m1 : Machine} {target flags : U64} (type : o.type = .directVirtual)
      (find : m1.findEntry (.user n) (o.at virt) = some target)
      (mapped : m' = m1.writeEntry (.user n) virt ((target &&& frameMask) ||| flags)) :
      ServedFrom m m' n virt o (some (target &&& frameMask))
  /-- The mirrored address is not mapped. -/
  | mirrorFails (type : o.type = .directVirtual) : ServedFrom m m' n virt o none

/-- **Main theorem.** In every state of a run whose calls keep the positions, the next page fault
    at an address that is mapped from a backing takes the page from `o + (page(v) - b)`, where `b`
    and `o` are the base and the offset of the call that mapped the address, in the page map
    itself or in the one it was forked from. -/
theorem backing_run {m : Machine} (hok : RangesOk m) {s : Machine × Origins}
    (hrun : Run callStep (fun s c => c.Keeps s.1) (m, fun _ _ => none) s) {n : ℕ} {v : U64}
    {o : Origin} (hlive : s.1.live (.user n) = true) (hg : s.2 n v = some o)
    (habsent : ¬ s.1.Present (.user n) v) {res : Option U64} {m' : Machine}
    (hfault : s.1.handlePageFault (.user n) v = .ok (res, m')) :
    ServedFrom s.1 m' n v o res := by
  have hstart : Backs m (fun _ _ => none) := by
    intro q v o h0
    cases h0
  obtain ⟨hb, hok'⟩ := hrun.invariant (P := fun s => Backs s.1 s.2 ∧ RangesOk s.1)
    (fun _ _ _ hs hkeeps hnext => Backs.step hs hkeeps hnext) ⟨hstart, hok⟩
  obtain ⟨ht, r, hr, hv, hf⟩ := hb n v o hg
  obtain ⟨m1, h1, hcase⟩ := handlePageFault_cases hfault
  have hpo := pagesOnly_createEntry h1
  have hok1 := hok'.pagesOnly hpo
  have hr1 : r ∈ m1.rangeList (.user n) := by
    rw [hpo.rangeList]
    exact hr
  have hv1 : (m1.range r).Contains v := by
    rw [hpo.range]
    exact hv
  have hlive1 : m1.live (.user n) = true := by
    rw [hpo.live]
    exact hlive
  obtain ⟨hp, -, -⟩ | ⟨-, hnone, -⟩ | ⟨r', m2, -, hsome, hin⟩ := hcase
  · obtain ⟨-, -, -, -, -, -, hentry, -⟩ := createEntry_spec h1
    unfold Machine.Present at hp habsent
    rw [hentry] at hp
    exact absurd hp habsent
  · cases hok1.addrToRange_eq hlive1 hr1 hv1 hnone
  · have heq := hok1.addrToRange_eq hlive1 hr1 hv1 hsome
    cases heq
    have hsame := sameRanges_addrToRange hsome
    have hrange : m2.range r = s.1.range r := by rw [hsame.range, hpo.range]
    have hpos := hf.position v
    unfold MappedRange.backingOffset at hpos
    rw [← hrange] at hpos hf
    cases hin with
    | anonymous type => exact absurd (hf.type.symm.trans type) ht
    | file type isFile alloc =>
      rw [if_pos type] at hpos
      refine .file (hf.type.symm.trans type) (hf.file.symm.trans isFile) ?_
      rw [hpos, hsame.fileRead, hpo.fileRead]
      exact Function.update_self ..
    | direct type =>
      rw [if_neg (by rw [type]; decide)] at hpos
      rw [hpos]
      exact .direct (hf.type.symm.trans type)
    | mirror type walk find =>
      rw [if_neg (by rw [type]; decide)] at hpos
      rw [hpos] at find
      exact .mirror (hf.type.symm.trans type) find rfl
    | mirrorFails type => exact .mirrorFails (hf.type.symm.trans type)

/-! ### A file of which each page holds its number -/

theorem heapOk_booted : HeapOk booted where
  nodup _ := List.nodup_nil
  lt _ _ hr := absurd hr List.not_mem_nil
  owner _ _ _ hr := absurd hr List.not_mem_nil

/-- The booted machine with such files. -/
def withFiles : Machine := { booted with fileRead := fun _ offset _ => (offset >>> 12).setWidth 8 }

theorem rangesOk_withFiles : RangesOk withFiles where
  heap := heapOk_booted.congr (fun _ => rfl) rfl
  disj := fun _ _ hr => absurd hr List.not_mem_nil
  nonempty := fun _ _ hr => absurd hr List.not_mem_nil
  apart := fun _ _ hr => absurd hr List.not_mem_nil
  cache := by
    intro n hn
    cases hn

/-- A process that maps three pages of file 0, from its third page on, at `0x10000`. -/
def mapsFile : Except Panic (Machine × Origins) := do
  let s ← callStep (withFiles, fun _ _ => none) (.create 0)
  callStep s (.map 0 (.file 0 0x2000#64) 0x10000#64 0x3000#64 (mmapProtToPageFlags protRead))

theorem backing_run_mapsFile :
    ∃ s res m', mapsFile = .ok s ∧ s.1.handlePageFault (.user 0) 0x11000#64 = .ok (res, m') ∧
      ServedFrom s.1 m' 0 0x11000#64
        { type := .file, file := some 0, base := 0x10000#64, offset := 0x2000#64 } res := by
  obtain ⟨s, hs⟩ : ∃ s, mapsFile = .ok s := ⟨_, rfl⟩
  obtain ⟨s1, h1, h2⟩ := bind_ok hs
  obtain ⟨⟨res, m'⟩, hf⟩ : ∃ x, (mapsFile >>= fun s => s.1.handlePageFault (.user 0) 0x11000#64) =
      .ok x := ⟨_, rfl⟩
  rw [hs, ok_bind] at hf
  have hkernel : s1.1.rangeList .kernel = [] := map_ok_eq h1 (fun s => s.1.rangeList .kernel) rfl
  have hlist : s1.1.rangeList (.user 0) = [] := map_ok_eq h1 (fun s => s.1.rangeList (.user 0)) rfl
  have hrun : Run callStep (fun s c => c.Keeps s.1) (withFiles, fun _ _ => none) s := by
    refine .step (.step .start ?_ h1) ?_ h2
    · exact rfl
    · refine ⟨map_ok_eq h1 (fun s => s.1.live (.user 0)) rfl, by decide, fun _ => by decide, ?_, ?_⟩
      · intro r hr
        rw [hkernel] at hr
        cases hr
      · intro r hr
        rw [hlist] at hr
        cases hr
  refine ⟨s, res, m', hs, hf, backing_run rangesOk_withFiles hrun ?_ ?_ ?_ hf⟩
  · exact map_ok_eq hs (fun s => s.1.live (.user 0)) rfl
  · exact map_ok_eq hs (fun s => s.2 0 0x11000#64) rfl
  · have habs : isPresent (s.1.entry (.user 0) 0x11000#64) = false :=
      map_ok_eq hs (fun s => isPresent (s.1.entry (.user 0) 0x11000#64)) rfl
    unfold Machine.Present
    rw [habs]
    decide

/-- The process unmaps the first page and protects the last one. -/
def cutThenProtect : Except Panic (Machine × Origins) := do
  let s ← mapsFile
  let s ← callStep s (.map 0 .unmap 0x10000#64 0x1000#64 0#64)
  callStep s (.protect 0 0x12000#64 0x1000#64 protRead)

/-- The last page is the fifth page of the file, but the fault reads the fourth. -/
theorem cutThenProtect_wrong_page :
    ∃ s m' f, cutThenProtect = .ok s ∧
      s.2 0 0x12000#64 =
        some { type := .file, file := some 0, base := 0x10000#64, offset := 0x2000#64 } ∧
      s.1.handlePageFault (.user 0) 0x12000#64 = .ok (some (Pfn.phy f), m') ∧
      s.1.fileRead 0 (0x2000#64 + (0x12000#64 - 0x10000#64)) 0 = 4#8 ∧ m'.frame f 0 = 3#8 := by
  obtain ⟨s, hs⟩ : ∃ s, cutThenProtect = .ok s := ⟨_, rfl⟩
  obtain ⟨m', hf⟩ : ∃ m', (cutThenProtect >>= fun s => s.1.handlePageFault (.user 0) 0x12000#64) =
      .ok (some (Pfn.phy 0x106#40), m') := ⟨_, rfl⟩
  rw [hs, ok_bind] at hf
  refine ⟨s, m', 0x106#40, hs, ?_, hf, ?_, ?_⟩
  · exact map_ok_eq hs (fun s => s.2 0 0x12000#64) rfl
  · exact map_ok_eq hs (fun s => s.1.fileRead 0 (0x2000#64 + (0x12000#64 - 0x10000#64)) 0) rfl
  · have : (cutThenProtect >>= fun s => s.1.handlePageFault (.user 0) 0x12000#64).map
        (fun x => x.2.frame 0x106#40 0) = .ok 3#8 := rfl
    rw [hs, ok_bind, hf] at this
    exact Except.ok.inj this

end Fishix.Mem
