import Fishix.Mem.Basic

/-!
# The physical memory manager

Model of `mem/pmm.cpp` lines 92-131 and of the `klib::ListHead` operations on
`Page::link` (klib/list.hpp:25-48): `find_page`, `alloc_page`, `free_page`.

`find_page` admits the first address after a region (`phy > region->end_phy()` does
not skip it); the `Page` it would index there lies outside the region's array, which
the model reports as `Panic.badPointer`.

* `findPage_eq_some`: `find_page` only returns the `Page` of the frame asked for.
* `allocPage_spec`, `freePage_spec`, `unlink_spec`: what a completed call did.
-/

namespace Fishix.Mem

namespace Region

/-- `num_pages_reserved()` (mem/pmm.hpp:31): `sizeof(Region)` and `sizeof(Page)` are 32. -/
def numPagesReserved (r : Region) : ℕ := (32 + r.numPages * 32 + 4096 - 1) / 4096

/-- `num_pages_usable()` (mem/pmm.hpp:32): the number of `Page` structs of the region. -/
def numPagesUsable (r : Region) : ℕ := r.numPages - r.numPagesReserved

/-- `base_phy()`. -/
def basePhy (r : Region) : ℕ := r.basePfn * 4096

/-- `end_phy()`. -/
def endPhy (r : Region) : ℕ := r.basePhy + r.numPages * 4096

end Region

/-- The loop of `find_page` (mem/pmm.cpp:92-107). `absorb_memmap_entry` gives the
    `Page` at index `i` the frame number `basePfn + num_pages_reserved() + i`. -/
def findPageIn (phy : ℕ) : List Region → Except Panic (Option Pfn)
  | [] => .ok none
  | r :: rs =>
    if phy < r.basePhy ∨ phy > r.endPhy then findPageIn phy rs
    else
      let offsetPages := (phy - r.basePhy) / 4096
      if offsetPages < r.numPagesReserved then .ok none
      else if offsetPages - r.numPagesReserved < r.numPagesUsable then
        let pfn := BitVec.ofNat 40 (r.basePfn + offsetPages)
        if pfn.toNat * 4096 = phy then .ok (some pfn) else .error .assertion
      else .error .badPointer

namespace Machine

/-- `pmm::find_page` (mem/pmm.cpp:92-107). -/
def findPage (m : Machine) (phy : U64) : Except Panic (Option Pfn) :=
  findPageIn phy.toNat m.regions

/-- `ListHead::remove` on `Page::link` (klib/list.hpp:42-47). -/
def unlink (m : Machine) (f : Pfn) : Except Panic Machine :=
  match (m.page f).link with
  | none => .error .badPointer
  | some l =>
    .ok ((m.setList l ((m.list l).erase f)).setPage f { m.page f with link := none })

/-- `list.add_before(&page->link)` on a list head: links the page last. -/
def linkLast (m : Machine) (l : ListId) (f : Pfn) : Machine :=
  (m.setList l (m.list l ++ [f])).setPage f { m.page f with link := some l }

/-- `list.add(&page->link)` on a list head: links the page first. -/
def linkFirst (m : Machine) (l : ListId) (f : Pfn) : Machine :=
  (m.setList l (f :: m.list l)).setPage f { m.page f with link := some l }

/-- `pmm::alloc_page` (mem/pmm.cpp:109-121). -/
def allocPage (m : Machine) : Except Panic (Pfn × Machine) :=
  match m.list .freelist with
  | [] => .error .outOfPhysicalMemory
  | f :: rest => do
    assert (m.page f).free
    .ok (f, (m.setList .freelist rest).setPage f { m.page f with free := false, link := none })

/-- `pmm::free_page` (mem/pmm.cpp:123-131). The page's `link` is overwritten, whatever
    list it was in. -/
def freePage (m : Machine) (f : Pfn) : Except Panic Machine := do
  assert (!(m.page f).free)
  .ok ((m.setPage f { m.page f with free := true, mappedAddr := 0#64 }).linkFirst .freelist f)

/-- The frame has a `pmm::Page`, and `find_page` finds it. -/
def Known (m : Machine) (f : Pfn) : Prop := m.findPage f.phy = .ok (some f)

end Machine

/-! ## Specifications -/

theorem toNat_phy (f : Pfn) : f.phy.toNat = f.toNat * 4096 := by
  unfold Pfn.phy
  have := f.isLt
  rw [BitVec.toNat_shiftLeft, BitVec.toNat_setWidth, Nat.shiftLeft_eq]
  omega

theorem findPageIn_eq_some {phy : ℕ} {g : Pfn} :
    ∀ {rs : List Region}, findPageIn phy rs = .ok (some g) → g.toNat * 4096 = phy
  | [], h => by simp [findPageIn] at h
  | r :: rs, h => by
    unfold findPageIn at h
    split_ifs at h with h1
    · exact findPageIn_eq_some h
    · dsimp only at h
      split_ifs at h with h2 h3 h4
      · cases h
      · cases h
        exact h4

/-- `find_page` only returns the `Page` of the frame it was asked for. -/
theorem findPage_eq_some {m : Machine} {f g : Pfn} (h : m.findPage f.phy = .ok (some g)) :
    g = f := by
  have := findPageIn_eq_some h
  rw [toNat_phy] at this
  exact BitVec.eq_of_toNat_eq (by omega)

theorem known_of_findPage {m : Machine} {f g : Pfn} (h : m.findPage f.phy = .ok (some g)) :
    g = f ∧ m.Known f := by
  have hg := findPage_eq_some h
  subst hg
  exact ⟨rfl, h⟩

theorem assert_ok {x : Bool} {u : Unit} (h : assert x = .ok u) : x = true := by
  unfold assert at h
  split_ifs at h with hx
  exact hx

theorem unlink_spec {m m' : Machine} {f : Pfn} (h : m.unlink f = .ok m') :
    ∃ l, (m.page f).link = some l ∧
      m' = (m.setList l ((m.list l).erase f)).setPage f { m.page f with link := none } := by
  unfold Machine.unlink at h
  split at h
  · cases h
  · rename_i l hl
    cases h
    exact ⟨l, hl, rfl⟩

theorem allocPage_spec {m m' : Machine} {f : Pfn} (h : m.allocPage = .ok (f, m')) :
    ∃ rest, m.list .freelist = f :: rest ∧ (m.page f).free = true ∧
      m' = (m.setList .freelist rest).setPage f { m.page f with free := false, link := none } := by
  unfold Machine.allocPage at h
  split at h
  · cases h
  · rename_i g rest hl
    obtain ⟨u, hu, h⟩ := bind_ok h
    cases h
    exact ⟨rest, hl, assert_ok hu, rfl⟩

theorem freePage_spec {m m' : Machine} {f : Pfn} (h : m.freePage f = .ok m') :
    (m.page f).free = false ∧
      m' = (m.setPage f { m.page f with free := true, mappedAddr := 0#64 }).linkFirst
        .freelist f := by
  unfold Machine.freePage at h
  obtain ⟨u, hu, h⟩ := bind_ok h
  cases h
  exact ⟨by simpa using assert_ok hu, rfl⟩

end Fishix.Mem
