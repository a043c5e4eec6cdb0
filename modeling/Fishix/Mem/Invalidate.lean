import Fishix.Mem.Vmm

/-!
# What `invalidate_page` does

`invalidatePage_cases` says once what a completed call did: nothing if the page is
not present, otherwise one of four things depending on whether a range is given and
whether `find_page` knows the frame. `PagesOnly` is the frame condition: page
structs, page lists and table entries may change, ranges and everything else do not.
-/

namespace Fishix.Mem

/-! ## Frame condition -/

/-- Only page structs, page lists and page tables differ. -/
structure PagesOnly (m m' : Machine) : Prop where
  same : m' = { m with page := m'.page, list := m'.list, pagemap := m'.pagemap }
  maps : ∀ p, m'.pagemap p = { m.pagemap p with pml4 := (m'.pagemap p).pml4 }

namespace PagesOnly

theorem refl (m : Machine) : PagesOnly m m := ⟨rfl, fun _ => rfl⟩

theorem trans {m m1 m2 : Machine} (h : PagesOnly m m1) (h' : PagesOnly m1 m2) :
    PagesOnly m m2 := by
  refine ⟨?_, fun p => ?_⟩
  · rw [h'.same, h.same]
  · rw [h'.maps p, h.maps p]

variable {m m' : Machine} (h : PagesOnly m m')

include h

theorem range : m'.range = m.range := by rw [h.same]
theorem nextRange : m'.nextRange = m.nextRange := by rw [h.same]
theorem regions : m'.regions = m.regions := by rw [h.same]
theorem frame : m'.frame = m.frame := by rw [h.same]
theorem live : m'.live = m.live := by rw [h.same]
theorem fileRefs : m'.fileRefs = m.fileRefs := by rw [h.same]
theorem fileClosed : m'.fileClosed = m.fileClosed := by rw [h.same]
theorem fileRead : m'.fileRead = m.fileRead := by rw [h.same]

theorem rangeList (p : PagemapId) : m'.rangeList p = m.rangeList p := by
  unfold Machine.rangeList
  rw [h.maps p]

theorem cachedRangeLookup (p : PagemapId) :
    (m'.pagemap p).cachedRangeLookup = (m.pagemap p).cachedRangeLookup := by rw [h.maps p]

theorem findPage (phy : U64) : m'.findPage phy = m.findPage phy := by
  unfold Machine.findPage
  rw [h.regions]

theorem known (f : Pfn) : m'.Known f ↔ m.Known f := by
  unfold Machine.Known
  rw [h.findPage]

end PagesOnly

theorem pagesOnly_setPage (m : Machine) (f : Pfn) (p : Page) : PagesOnly m (m.setPage f p) :=
  ⟨rfl, fun _ => rfl⟩

theorem pagesOnly_setList (m : Machine) (l : ListId) (fs : List Pfn) :
    PagesOnly m (m.setList l fs) := ⟨rfl, fun _ => rfl⟩

theorem pagesOnly_linkLast (m : Machine) (l : ListId) (f : Pfn) : PagesOnly m (m.linkLast l f) :=
  ⟨rfl, fun _ => rfl⟩

theorem pagesOnly_setTables (m : Machine) (o : PagemapId) (t : PageTable) :
    PagesOnly m (m.setTables o t) := by
  refine ⟨rfl, fun p => ?_⟩
  unfold Machine.setTables Machine.setPagemap
  dsimp only
  by_cases hp : p = o
  · subst hp
    simp
  · simp [Function.update_of_ne hp]

theorem pagesOnly_writeEntry (m : Machine) (p : PagemapId) (v x : U64) :
    PagesOnly m (m.writeEntry p v x) := pagesOnly_setTables _ _ _

theorem pagesOnly_unlink {m m' : Machine} {f : Pfn} (h : m.unlink f = .ok m') :
    PagesOnly m m' := by
  obtain ⟨l, -, rfl⟩ := unlink_spec h
  exact (pagesOnly_setList _ _ _).trans (pagesOnly_setPage _ _ _)

theorem pagesOnly_allocPage {m m' : Machine} {f : Pfn} (h : m.allocPage = .ok (f, m')) :
    PagesOnly m m' := by
  obtain ⟨rest, -, -, rfl⟩ := allocPage_spec h
  exact (pagesOnly_setList _ _ _).trans (pagesOnly_setPage _ _ _)

theorem pagesOnly_freePage {m m' : Machine} {f : Pfn} (h : m.freePage f = .ok m') :
    PagesOnly m m' := by
  obtain ⟨-, rfl⟩ := freePage_spec h
  exact ⟨rfl, fun _ => rfl⟩

theorem pagesOnly_createEntry {m m' : Machine} {p : PagemapId} {v : U64}
    (h : m.createEntry p v = .ok m') : PagesOnly m m' := by
  obtain ⟨fs, m1, t, ht, rfl, -⟩ := createEntry_spec h
  refine PagesOnly.trans ⟨?_, fun q => ?_⟩ (pagesOnly_setTables _ _ _)
  · rw [ht.same]
  · rw [ht.same]

/-! ## One page -/

/-- The page's frame was taken from its list and linked last into the list of `r`, and the
    entry rewritten with the flags of `r`. -/
def relinked (m : Machine) (p : PagemapId) (virt : U64) (r : RangeId) (f : Pfn) : Machine :=
  ((m.setPage f { m.page f with mappedAddr := virt }).linkLast (.range r) f).writeEntry p virt
    (f.phy ||| (m.range r).pageFlags)

/-- What a completed `invalidate_page` did. -/
theorem invalidatePage_cases {m m' : Machine} {p : PagemapId} {v : U64} {range : Option RangeId}
    (h : m.invalidatePage p v range = .ok m') :
    (¬ m.Present p v ∧ m' = m) ∨
    (m.Present p v ∧ m.Known (frameOf (m.entry p v)) ∧
      (m.page (frameOf (m.entry p v))).free = false ∧
      ∃ m1, m.unlink (frameOf (m.entry p v)) = .ok m1 ∧
        ((∃ r, range = some r ∧ isPresent (m.range r).pageFlags = true ∧
            m' = relinked m1 p v r (frameOf (m.entry p v))) ∨
         (range = none ∧
            (m1.writeEntry p v 0#64).freePage (frameOf (m.entry p v)) = .ok m'))) ∨
    (m.Present p v ∧ m.findPage (frameOf (m.entry p v)).phy = .ok none ∧
      ((∃ r f m1, range = some r ∧ isPresent (m.range r).pageFlags = true ∧
          m.allocPage = .ok (f, m1) ∧ m' = relinked m1 p v r f) ∨
       (range = none ∧ m' = m.writeEntry p v 0#64))) := by
  unfold Machine.invalidatePage at h
  by_cases hpres : isPresent (m.entry p v) = true
  swap
  · rw [if_pos (by simpa using hpres)] at h
    cases h
    exact Or.inl ⟨hpres, rfl⟩
  rw [if_neg (by simpa using hpres)] at h
  dsimp only at h
  rw [and_frameMask] at h
  obtain ⟨page, hfind, h⟩ := bind_ok h
  obtain ⟨m1, hm1, h⟩ := bind_ok h
  cases page with
  | some f =>
    obtain ⟨rfl, hknown⟩ := known_of_findPage hfind
    refine Or.inr (Or.inl ⟨hpres, hknown, ?_⟩)
    obtain ⟨u, hu, hm1⟩ := bind_ok hm1
    refine ⟨by simpa using assert_ok hu, m1, hm1, ?_⟩
    have hr : m1.range = m.range := (pagesOnly_unlink hm1).range
    cases range with
    | some r =>
      obtain ⟨u', hu', h⟩ := bind_ok h
      cases h
      exact Or.inl ⟨r, rfl, by rw [← hr]; exact assert_ok hu', rfl⟩
    | none => exact Or.inr ⟨rfl, h⟩
  | none =>
    cases hm1
    refine Or.inr (Or.inr ⟨hpres, hfind, ?_⟩)
    cases range with
    | some r =>
      obtain ⟨u', hu', h⟩ := bind_ok h
      obtain ⟨⟨f, m1⟩, halloc, h⟩ := bind_ok h
      cases h
      exact Or.inl ⟨r, f, m1, rfl, assert_ok hu', halloc, rfl⟩
    | none =>
      cases h
      exact Or.inr ⟨rfl, rfl⟩

theorem pagesOnly_relinked (m : Machine) (p : PagemapId) (v : U64) (r : RangeId) (f : Pfn) :
    PagesOnly m (relinked m p v r f) :=
  ((pagesOnly_setPage _ _ _).trans (pagesOnly_linkLast _ _ _)).trans (pagesOnly_writeEntry _ _ _ _)

theorem pagesOnly_invalidatePage {m m' : Machine} {p : PagemapId} {v : U64}
    {range : Option RangeId} (h : m.invalidatePage p v range = .ok m') : PagesOnly m m' := by
  rcases invalidatePage_cases h with ⟨-, rfl⟩ | ⟨-, -, -, m1, h1, ⟨r, -, -, rfl⟩ | ⟨-, h2⟩⟩ |
    ⟨-, -, ⟨r, f, m1, -, -, h1, rfl⟩ | ⟨-, rfl⟩⟩
  · exact .refl _
  · exact (pagesOnly_unlink h1).trans (pagesOnly_relinked _ _ _ _ _)
  · exact ((pagesOnly_unlink h1).trans (pagesOnly_writeEntry _ _ _ _)).trans (pagesOnly_freePage h2)
  · exact (pagesOnly_allocPage h1).trans (pagesOnly_relinked _ _ _ _ _)
  · exact pagesOnly_writeEntry _ _ _ _

theorem pagesOnly_invalidatePages {m m' : Machine} {p : PagemapId} {base length : U64}
    {range : Option RangeId} (h : m.invalidatePages p base length range = .ok m') :
    PagesOnly m m' :=
  foldlM_ok_invariant (PagesOnly m) (.refl m)
    (fun _ _ _ _ hs h1 => hs.trans (pagesOnly_invalidatePage h1)) h

end Fishix.Mem
