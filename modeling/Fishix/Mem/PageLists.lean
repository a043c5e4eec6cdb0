import Fishix.Mem.Invalidate

/-!
# The lists of `pmm::Page`s

`PagesOk`: every linked page is linked once, its `link` names its list, and the pages
with `free` set are those of the freelist. `unlink`, `linkLast`, `alloc_page` and
`free_page` keep it, and each has a lemma that says which pages are in which list
afterwards. `invalidatePage_some` and `invalidatePage_none` combine them into the moves of
`invalidate_page`:
a page ends in a range's list, or in the freelist (`Moved`).
-/

namespace Fishix.Mem

open Function (update update_self update_of_ne update_apply)

/-- The list discipline of the physical memory manager. -/
structure PagesOk (m : Machine) : Prop where
  nodup : ∀ l, (m.list l).Nodup
  link : ∀ l, ∀ f ∈ m.list l, (m.page f).link = some l
  known : ∀ l, ∀ f ∈ m.list l, m.Known f
  free : ∀ l, ∀ f ∈ m.list l, ((m.page f).free = true ↔ l = .freelist)
  mem_freelist : ∀ f, m.Known f → (m.page f).free = true → f ∈ m.list .freelist

namespace PagesOk

variable {m m' : Machine} {f g : Pfn}

/-- A page is in one list. -/
theorem unique (h : PagesOk m) {l l' : ListId} (hl : f ∈ m.list l) (hl' : f ∈ m.list l') :
    l = l' := by
  have h1 := h.link l f hl
  rw [h.link l' f hl'] at h1
  exact (Option.some.inj h1).symm

theorem used (h : PagesOk m) {l : ListId} (hl : f ∈ m.list l) (hne : l ≠ .freelist) :
    (m.page f).free = false := by
  by_contra hf
  exact hne ((h.free l f hl).mp (by simpa using hf))

theorem congr (h : PagesOk m) (hp : m'.page = m.page) (hl : m'.list = m.list)
    (hr : m'.regions = m.regions) : PagesOk m' := by
  have hk : ∀ f, m'.Known f ↔ m.Known f := by
    intro f
    unfold Machine.Known Machine.findPage
    rw [hr]
  refine ⟨?_, ?_, ?_, ?_, ?_⟩
  · rw [hl]
    exact h.nodup
  · rw [hl, hp]
    exact h.link
  · intro l f hf
    rw [hl] at hf
    exact (hk f).mpr (h.known l f hf)
  · rw [hl, hp]
    exact h.free
  · intro f hf
    rw [hl, hp]
    exact h.mem_freelist f ((hk f).mp hf)

theorem setMappedAddr (h : PagesOk m) (f : Pfn) (v : U64) :
    PagesOk (m.setPage f { m.page f with mappedAddr := v }) := by
  have hlink : ∀ g, ((m.setPage f { m.page f with mappedAddr := v }).page g).link =
      (m.page g).link := by
    intro g
    by_cases hg : g = f
    · subst hg
      simp [Machine.setPage]
    · simp [Machine.setPage, update_of_ne hg]
  have hfree : ∀ g, ((m.setPage f { m.page f with mappedAddr := v }).page g).free =
      (m.page g).free := by
    intro g
    by_cases hg : g = f
    · subst hg
      simp [Machine.setPage]
    · simp [Machine.setPage, update_of_ne hg]
  refine ⟨h.nodup, ?_, h.known, ?_, ?_⟩
  · intro l g hg
    rw [hlink]
    exact h.link l g hg
  · intro l g hg
    rw [hfree]
    exact h.free l g hg
  · intro g hk hg
    rw [hfree] at hg
    exact h.mem_freelist g hk hg

end PagesOk

/-- `f` is in no list. -/
def Unlinked (m : Machine) (f : Pfn) : Prop := ∀ l, f ∉ m.list l

section Moves

variable {m m' : Machine} {f : Pfn}

section

variable (h : PagesOk m)

include h

/-- One page, now in use, leaves the lists. -/
theorem PagesOk.removed (hknown : ∀ g, m'.Known g ↔ m.Known g) (hnodup : ∀ k, (m'.list k).Nodup)
    (hmem : ∀ k g, g ∈ m'.list k ↔ g ∈ m.list k ∧ g ≠ f)
    (hpage : ∀ g, g ≠ f → m'.page g = m.page g) (hused : (m'.page f).free = false) :
    PagesOk m' := by
  refine ⟨hnodup, ?_, ?_, ?_, ?_⟩
  · intro k g hg
    obtain ⟨hg, hgf⟩ := (hmem k g).mp hg
    rw [hpage g hgf]
    exact h.link k g hg
  · intro k g hg
    exact (hknown g).mpr (h.known k g ((hmem k g).mp hg).1)
  · intro k g hg
    obtain ⟨hg, hgf⟩ := (hmem k g).mp hg
    rw [hpage g hgf]
    exact h.free k g hg
  · intro g hk hg
    have hgf : g ≠ f := by
      rintro rfl
      simp [hused] at hg
    rw [hpage g hgf] at hg
    exact (hmem _ g).mpr ⟨h.mem_freelist g ((hknown g).mp hk) hg, hgf⟩

theorem PagesOk.added {l : ListId} (hf : Unlinked m f) (hk : m.Known f)
    (hknown : ∀ g, m'.Known g ↔ m.Known g) (hnodup : ∀ k, (m'.list k).Nodup)
    (hmem : ∀ k g, g ∈ m'.list k ↔ g ∈ m.list k ∨ g = f ∧ k = l)
    (hpage : ∀ g, g ≠ f → m'.page g = m.page g) (hlink : (m'.page f).link = some l)
    (hfree : (m'.page f).free = true ↔ l = .freelist) : PagesOk m' := by
  refine ⟨hnodup, ?_, ?_, ?_, ?_⟩
  · intro k g hg
    rcases (hmem k g).mp hg with hg | ⟨rfl, rfl⟩
    · rw [hpage g fun he => hf k (he ▸ hg)]
      exact h.link k g hg
    · exact hlink
  · intro k g hg
    rcases (hmem k g).mp hg with hg | ⟨rfl, -⟩
    · exact (hknown g).mpr (h.known k g hg)
    · exact (hknown g).mpr hk
  · intro k g hg
    rcases (hmem k g).mp hg with hg | ⟨rfl, rfl⟩
    · rw [hpage g fun he => hf k (he ▸ hg)]
      exact h.free k g hg
    · exact hfree
  · intro g hkg hg
    by_cases hgf : g = f
    · subst hgf
      exact (hmem _ g).mpr (.inr ⟨rfl, (hfree.mp hg).symm⟩)
    · rw [hpage g hgf] at hg
      exact (hmem _ g).mpr (.inl (h.mem_freelist g ((hknown g).mp hkg) hg))

theorem PagesOk.unlink {l : ListId} (hl : f ∈ m.list l) (hne : l ≠ .freelist)
    (hu : m.unlink f = .ok m') :
    PagesOk m' ∧ (∀ k g, g ∈ m'.list k ↔ g ∈ m.list k ∧ g ≠ f) ∧
      (∀ g, m'.page g = if g = f then { m.page f with link := none } else m.page g) := by
  obtain ⟨l', hl', rfl⟩ := unlink_spec hu
  have : l' = l := by
    rw [h.link l f hl] at hl'
    exact (Option.some.inj hl').symm
  subst this
  have hpage : ∀ g, ((m.setList l' ((m.list l').erase f)).setPage f
      { m.page f with link := none }).page g =
      if g = f then { m.page f with link := none } else m.page g := by
    intro g
    unfold Machine.setPage
    exact update_apply _ _ _ _
  have hmem : ∀ k g, g ∈ ((m.setList l' ((m.list l').erase f)).setPage f
      { m.page f with link := none }).list k ↔ g ∈ m.list k ∧ g ≠ f := by
    intro k g
    show g ∈ update m.list l' ((m.list l').erase f) k ↔ _
    by_cases hk : k = l'
    · subst hk
      rw [update_self, (h.nodup k).mem_erase_iff, and_comm]
    · rw [update_of_ne hk]
      refine ⟨fun hg => ⟨hg, ?_⟩, fun hg => hg.1⟩
      rintro rfl
      exact hk (h.unique hg hl)
  refine ⟨h.removed (f := f) (fun _ => Iff.rfl) ?_ hmem (fun g hg => (hpage g).trans (if_neg hg)) ?_,
    hmem, hpage⟩
  · intro k
    show (update m.list l' ((m.list l').erase f) k).Nodup
    by_cases hk : k = l'
    · subst hk
      rw [update_self]
      exact (h.nodup k).erase f
    · rw [update_of_ne hk]
      exact h.nodup k
  · rw [hpage, if_pos rfl]
    exact h.used hl hne

theorem PagesOk.linkLast (hf : Unlinked m f) (hk : m.Known f) (hfree : (m.page f).free = false)
    {l : ListId} (hne : l ≠ .freelist) :
    PagesOk (m.linkLast l f) ∧
      (∀ k g, g ∈ (m.linkLast l f).list k ↔ g ∈ m.list k ∨ g = f ∧ k = l) ∧
      (∀ g, (m.linkLast l f).page g = if g = f then { m.page f with link := some l } else m.page g)
      := by
  have hpage : ∀ g, (m.linkLast l f).page g =
      if g = f then { m.page f with link := some l } else m.page g := by
    intro g
    unfold Machine.linkLast Machine.setPage
    exact update_apply _ _ _ _
  have hlist : ∀ k, (m.linkLast l f).list k = if k = l then m.list l ++ [f] else m.list k := by
    intro k
    unfold Machine.linkLast Machine.setPage Machine.setList
    exact update_apply _ _ _ _
  have hmem : ∀ k g, g ∈ (m.linkLast l f).list k ↔ g ∈ m.list k ∨ g = f ∧ k = l := by
    intro k g
    rw [hlist]
    split_ifs with hkl
    · subst hkl
      simp
    · simp [hkl]
  have hself := (hpage f).trans (if_pos rfl)
  refine ⟨h.added hf hk (fun _ => Iff.rfl) ?_ hmem (fun g hg => (hpage g).trans (if_neg hg)) ?_ ?_,
    hmem, hpage⟩
  · intro k
    rw [hlist]
    split_ifs with hkl
    · refine List.nodup_append.mpr ⟨h.nodup l, List.nodup_singleton f, ?_⟩
      intro a ha b hb hab
      rw [List.mem_singleton] at hb
      exact hf l (by rwa [hab, hb] at ha)
    · exact h.nodup k
  · rw [hself]
  · rw [hself]
    simp [hfree, hne]

theorem PagesOk.allocPage (ha : m.allocPage = .ok (f, m')) :
    f ∈ m.list .freelist ∧ PagesOk m' ∧ (∀ k g, g ∈ m'.list k ↔ g ∈ m.list k ∧ g ≠ f) ∧
      (∀ g, m'.page g = if g = f then { m.page f with free := false, link := none }
        else m.page g) := by
  obtain ⟨rest, hl, hfree, rfl⟩ := allocPage_spec ha
  have hf : f ∈ m.list .freelist := by rw [hl]; simp
  have hnd := h.nodup .freelist
  rw [hl, List.nodup_cons] at hnd
  have hpage : ∀ g, ((m.setList .freelist rest).setPage f
      { m.page f with free := false, link := none }).page g =
      if g = f then { m.page f with free := false, link := none } else m.page g := by
    intro g
    unfold Machine.setPage
    exact update_apply _ _ _ _
  have hlist : ∀ k, ((m.setList .freelist rest).setPage f
      { m.page f with free := false, link := none }).list k =
      if k = .freelist then rest else m.list k := by
    intro k
    unfold Machine.setPage Machine.setList
    exact update_apply _ _ _ _
  have hmem : ∀ k g, g ∈ ((m.setList .freelist rest).setPage f
      { m.page f with free := false, link := none }).list k ↔ g ∈ m.list k ∧ g ≠ f := by
    intro k g
    rw [hlist]
    split_ifs with hk
    · subst hk
      rw [hl, List.mem_cons]
      constructor
      · intro hg
        refine ⟨.inr hg, ?_⟩
        rintro rfl
        exact hnd.1 hg
      · rintro ⟨hg | hg, hne⟩
        · exact absurd hg hne
        · exact hg
    · refine ⟨fun hg => ⟨hg, ?_⟩, fun hg => hg.1⟩
      rintro rfl
      exact hk (h.unique hg hf)
  refine ⟨hf, h.removed (f := f) (fun _ => Iff.rfl) ?_ hmem
    (fun g hg => (hpage g).trans (if_neg hg)) ?_, hmem, hpage⟩
  · intro k
    rw [hlist]
    split_ifs with hk
    · exact hnd.2
    · exact h.nodup k
  · rw [hpage, if_pos rfl]

theorem PagesOk.freePage (hf : Unlinked m f) (hk : m.Known f) (hr : m.freePage f = .ok m') :
    PagesOk m' ∧ (∀ k g, g ∈ m'.list k ↔ g ∈ m.list k ∨ g = f ∧ k = .freelist) ∧
      (∀ g, m'.page g = if g = f then
        { free := true, mappedAddr := 0#64, link := some .freelist } else m.page g) := by
  obtain ⟨-, rfl⟩ := freePage_spec hr
  have hpage : ∀ g, ((m.setPage f { m.page f with free := true, mappedAddr := 0#64 }).linkFirst
      .freelist f).page g = if g = f then
        { free := true, mappedAddr := 0#64, link := some .freelist } else m.page g := by
    intro g
    unfold Machine.linkFirst Machine.setPage Machine.setList
    by_cases hg : g = f
    · subst hg
      simp
    · simp [hg]
  have hlist : ∀ k, ((m.setPage f { m.page f with free := true, mappedAddr := 0#64 }).linkFirst
      .freelist f).list k = if k = .freelist then f :: m.list .freelist else m.list k := by
    intro k
    unfold Machine.linkFirst Machine.setPage Machine.setList
    exact update_apply _ _ _ _
  have hmem : ∀ k g, g ∈ ((m.setPage f { m.page f with free := true, mappedAddr := 0#64 }).linkFirst
      .freelist f).list k ↔ g ∈ m.list k ∨ g = f ∧ k = .freelist := by
    intro k g
    rw [hlist]
    split_ifs with hkl
    · subst hkl
      simp [or_comm]
    · simp [hkl]
  have hself := (hpage f).trans (if_pos rfl)
  refine ⟨h.added hf hk (fun _ => Iff.rfl) ?_ hmem (fun g hg => (hpage g).trans (if_neg hg)) ?_ ?_,
    hmem, hpage⟩
  · intro k
    rw [hlist]
    split_ifs with hkl
    · exact List.nodup_cons.mpr ⟨hf .freelist, h.nodup .freelist⟩
    · exact h.nodup k
  · rw [hself]
  · rw [hself]
    simp

/-- The pages `create_missing` takes go from the freelist to the list of the tables. -/
theorem PagesOk.tookTables {p : PagemapId} {fs : List Pfn} (ht : TookTables p m fs m') :
    PagesOk m' ∧ (∀ g ∈ fs, g ∈ m.list .freelist) ∧
      (∀ k g, g ∈ m'.list k ↔ g ∈ m.list k ∧ g ∉ fs ∨ g ∈ fs ∧ k = .tables p) ∧
      (∀ g, (m'.page g).mappedAddr = (m.page g).mappedAddr) := by
  have hfree : ∀ g ∈ fs, g ∈ m.list .freelist := by
    intro g hg
    rw [ht.freelist]
    exact List.mem_append_left _ hg
  have hnd := h.nodup .freelist
  rw [ht.freelist, List.nodup_append] at hnd
  have hrest : ∀ g ∈ m'.list .freelist, g ∉ fs := fun g hg hf => hnd.2.2 g hf g hg rfl
  have hout : ∀ k, k ≠ .freelist → ∀ g ∈ m.list k, g ∉ fs := by
    intro k hk g hg hf
    exact hk (h.unique hg (hfree g hf))
  have hmem : ∀ k g, g ∈ m'.list k ↔ g ∈ m.list k ∧ g ∉ fs ∨ g ∈ fs ∧ k = .tables p := by
    intro k g
    by_cases hk : k = .freelist
    · subst hk
      rw [ht.freelist, List.mem_append]
      constructor
      · exact fun hg => .inl ⟨.inr hg, hrest g hg⟩
      · rintro (⟨hg | hg, hn⟩ | ⟨-, he⟩)
        · exact absurd hg hn
        · exact hg
        · cases he
    · by_cases hk' : k = .tables p
      · subst hk'
        rw [ht.tables, List.mem_append]
        constructor
        · rintro (hg | hg)
          · exact .inl ⟨hg, hout _ hk g hg⟩
          · exact .inr ⟨hg, rfl⟩
        · rintro (⟨hg, -⟩ | ⟨hg, -⟩)
          · exact .inl hg
          · exact .inr hg
      · rw [ht.list_other k hk hk']
        constructor
        · exact fun hg => .inl ⟨hg, hout k hk g hg⟩
        · rintro (⟨hg, -⟩ | ⟨-, he⟩)
          · exact hg
          · exact absurd he hk'
  have hknown : ∀ g, m'.Known g ↔ m.Known g := by
    intro g
    unfold Machine.Known Machine.findPage
    rw [ht.same]
  refine ⟨⟨?_, ?_, ?_, ?_, ?_⟩, hfree, hmem, ?_⟩
  · intro k
    by_cases hk : k = .freelist
    · subst hk
      exact hnd.2.1
    · by_cases hk' : k = .tables p
      · subst hk'
        rw [ht.tables]
        refine List.nodup_append.mpr ⟨h.nodup _, ht.nodup, ?_⟩
        rintro a ha b hb rfl
        exact hout _ hk a ha hb
      · rw [ht.list_other k hk hk']
        exact h.nodup k
  · intro k g hg
    rcases (hmem k g).mp hg with ⟨hg', hn⟩ | ⟨hg', rfl⟩
    · rw [ht.page_other g hn]
      exact h.link k g hg'
    · rw [ht.page_took g hg']
  · intro k g hg
    rw [hknown]
    rcases (hmem k g).mp hg with ⟨hg, -⟩ | ⟨hg, -⟩
    · exact h.known k g hg
    · exact h.known _ g (hfree g hg)
  · intro k g hg
    rcases (hmem k g).mp hg with ⟨hg', hn⟩ | ⟨hg', rfl⟩
    · rw [ht.page_other g hn]
      exact h.free k g hg'
    · rw [ht.page_took g hg']
      simp
  · intro g hk hg
    by_cases hf : g ∈ fs
    · rw [ht.page_took g hf] at hg
      simp at hg
    · rw [ht.page_other g hf] at hg
      exact (hmem _ g).mpr (.inl ⟨h.mem_freelist g ((hknown g).mp hk) hg, hf⟩)
  · intro g
    by_cases hf : g ∈ fs
    · rw [ht.page_took g hf]
    · rw [ht.page_other g hf]

/-- All pages of a list are freed and the list is emptied (`~MappedRange`, `~Pagemap`). -/
theorem PagesOk.freeAll {l : ListId} (hl : l ≠ .freelist)
    (hr : (m.list l).foldlM Machine.freePage m = .ok m') :
    PagesOk (m'.setList l []) ∧
      (∀ k g, g ∈ (m'.setList l []).list k ↔
        g ∈ m.list k ∧ k ≠ l ∨ g ∈ m.list l ∧ k = .freelist) ∧
      (∀ g, g ∉ m.list l → m'.page g = m.page g) := by
  have key := foldlM_ok_induction
    (fun pre s => s.list .freelist = pre.reverse ++ m.list .freelist ∧
      (∀ k, k ≠ .freelist → s.list k = m.list k) ∧ s.regions = m.regions ∧
      ∀ g, s.page g = if g ∈ pre then
        { free := true, mappedAddr := 0#64, link := some .freelist } else m.page g)
    (m.list l) [] m m' (by simp) ?_ hr
  · obtain ⟨h1, h2, h3, h4⟩ := key
    rw [List.nil_append] at h1 h4
    have hlist : ∀ k, (m'.setList l []).list k = if k = l then [] else m'.list k := by
      intro k
      unfold Machine.setList
      exact update_apply _ _ _ _
    have hmem : ∀ k g, g ∈ (m'.setList l []).list k ↔
        g ∈ m.list k ∧ k ≠ l ∨ g ∈ m.list l ∧ k = .freelist := by
      intro k g
      rw [hlist]
      by_cases hk : k = l
      · rw [if_pos hk]
        subst hk
        simp [hl]
      · rw [if_neg hk]
        by_cases hkf : k = .freelist
        · subst hkf
          rw [h1, List.mem_append, List.mem_reverse]
          simp [hk, or_comm]
        · rw [h2 k hkf]
          simp [hk, hkf]
    have hin : ∀ g ∈ m.list l, ∀ k, g ∈ m.list k → k = l := fun g hg k hk => h.unique hk hg
    have hknown : ∀ g, (m'.setList l []).Known g ↔ m.Known g := by
      intro g
      unfold Machine.Known Machine.findPage
      show findPageIn _ m'.regions = _ ↔ _
      rw [h3]
    refine ⟨⟨?_, ?_, ?_, ?_, ?_⟩, hmem, fun g hg => by rw [h4, if_neg hg]⟩
    · intro k
      rw [hlist]
      split_ifs with hk
      · exact List.nodup_nil
      · by_cases hkf : k = .freelist
        · subst hkf
          rw [h1]
          refine List.nodup_append.mpr ⟨List.nodup_reverse.mpr (h.nodup l), h.nodup _, ?_⟩
          rintro a ha b hb rfl
          exact hl (h.unique (List.mem_reverse.mp ha) hb)
        · rw [h2 k hkf]
          exact h.nodup k
    · intro k g hg
      show (m'.page g).link = some k
      rw [h4]
      rcases (hmem k g).mp hg with ⟨hg1, hk⟩ | ⟨hg1, rfl⟩
      · rw [if_neg (fun hg' => hk (hin g hg' k hg1))]
        exact h.link k g hg1
      · rw [if_pos hg1]
    · intro k g hg
      rw [hknown]
      rcases (hmem k g).mp hg with ⟨hg, -⟩ | ⟨hg, -⟩
      · exact h.known k g hg
      · exact h.known l g hg
    · intro k g hg
      show (m'.page g).free = true ↔ _
      rw [h4]
      rcases (hmem k g).mp hg with ⟨hg1, hk⟩ | ⟨hg1, rfl⟩
      · rw [if_neg (fun hg' => hk (hin g hg' k hg1))]
        exact h.free k g hg1
      · rw [if_pos hg1]
        simp
    · intro g hk hg
      have hg' : (m'.page g).free = true := hg
      rw [h4] at hg'
      split_ifs at hg' with hgl
      · exact (hmem _ g).mpr (.inr ⟨hgl, rfl⟩)
      · exact (hmem _ g).mpr (.inl ⟨h.mem_freelist g ((hknown g).mp hk) hg', fun he => hl he.symm⟩)
  · rintro pre f s s' ⟨h1, h2, h3, h4⟩ _ hstep
    obtain ⟨-, rfl⟩ := freePage_spec hstep
    refine ⟨?_, ?_, h3, ?_⟩
    · show update s.list .freelist (f :: s.list .freelist) .freelist = _
      rw [update_self, h1]
      simp
    · intro k hk
      show update s.list .freelist (f :: s.list .freelist) k = _
      rw [update_of_ne hk, h2 k hk]
    · intro g
      unfold Machine.linkFirst Machine.setPage Machine.setList
      by_cases hg : g = f
      · subst hg
        simp
      · simp [hg, h4 g]

end

end Moves

/-! ## The moves of `invalidate_page` -/

/-- `m'` is `m` with the entry of `v` in `p` set to `x` and `page`, if it is one, moved to the
    list `dst` with `mapped_addr` set to `addr`. -/
structure Moved (m : Machine) (p : PagemapId) (v x : U64) (page : Option Pfn) (dst : ListId)
    (addr : U64) (m' : Machine) : Prop where
  pages : PagesOk m'
  mem : ∀ k g, g ∈ m'.list k ↔ g ∈ m.list k ∧ some g ≠ page ∨ some g = page ∧ k = dst
  mappedAddr : ∀ g, (m'.page g).mappedAddr =
    if some g = page then addr else (m.page g).mappedAddr
  entry : ∀ q w, m'.entry q w =
    if tablesOf q w = tablesOf p v ∧ vpn w = vpn v then x else m.entry q w
  table : ∀ q g, m'.HasTable q g ↔ m.HasTable q g
  range : m'.range = m.range
  nextRange : m'.nextRange = m.nextRange
  rangeList : ∀ q, m'.rangeList q = m.rangeList q
  live : m'.live = m.live
  regions : m'.regions = m.regions

/-- Page `f` moves into the list of range `r` and is mapped at `v`. -/
abbrev Placed (m : Machine) (p : PagemapId) (v : U64) (r : RangeId) (f : Pfn) (m' : Machine) :
    Prop :=
  Moved m p v (f.phy ||| (m.range r).pageFlags) (some f) (.range r) v m'

/-- The entry of `v` is cleared and its page, if it has one, freed. -/
abbrev Dropped (m : Machine) (p : PagemapId) (v : U64) (page : Option Pfn) (m' : Machine) : Prop :=
  Moved m p v 0#64 page .freelist 0#64 m'

section Effect

variable {m m1 m' : Machine} {p : PagemapId} {v : U64} {r : RangeId} {f : Pfn}

theorem entry_of_pagemap (h : m'.pagemap = m.pagemap) (q : PagemapId) (w : U64) :
    m'.entry q w = m.entry q w := by
  unfold Machine.entry Machine.findEntry
  rw [h]

theorem hasTable_of_pagemap (h : m'.pagemap = m.pagemap) (q : PagemapId) (g : Pfn) :
    m'.HasTable q g ↔ m.HasTable q g := by
  unfold Machine.HasTable
  rw [h]

/-- A page taken out of its list (or off the freelist) is linked into a range and mapped. -/
theorem placed_relinked (hm1 : PagesOk m1) (hmem : ∀ k g, g ∈ m1.list k ↔ g ∈ m.list k ∧ g ≠ f)
    (haddr : ∀ g, (m1.page g).mappedAddr = (m.page g).mappedAddr)
    (hfree : (m1.page f).free = false) (hknown : m.Known f) (ho : PagesOnly m m1)
    (hmaps : m1.pagemap = m.pagemap) (hentry : (m.findEntry p v).isSome) :
    Placed m p v r f (relinked m1 p v r f) := by
  have hout : Unlinked m1 f := fun k hk => ((hmem k f).mp hk).2 rfl
  have hset := hm1.setMappedAddr f v
  have hpage : ∀ g, (m1.setPage f { m1.page f with mappedAddr := v }).page g =
      if g = f then { m1.page f with mappedAddr := v } else m1.page g := by
    intro g
    unfold Machine.setPage
    exact update_apply _ _ _ _
  obtain ⟨hl1, hl2, hl3⟩ := hset.linkLast (f := f) (l := .range r) hout
    ((ho.known f).mpr hknown) (by rw [hpage, if_pos rfl]; exact hfree) (by simp)
  have hpo := ho.trans (pagesOnly_relinked m1 p v r f)
  have hsome : (((m1.setPage f { m1.page f with mappedAddr := v }).linkLast
      (.range r) f).findEntry p v).isSome := by
    unfold Machine.findEntry at hentry ⊢
    rw [← hmaps] at hentry
    exact hentry
  refine ⟨hl1.congr rfl rfl rfl, ?_, ?_, ?_, ?_, hpo.range, hpo.nextRange, hpo.rangeList, hpo.live,
    hpo.regions⟩
  · intro k g
    show g ∈ ((m1.setPage f { m1.page f with mappedAddr := v }).linkLast (.range r) f).list k ↔ _
    rw [hl2]
    show g ∈ m1.list k ∨ _ ↔ _
    rw [hmem]
    simp only [ne_eq, Option.some.injEq]
  · intro g
    show (((m1.setPage f { m1.page f with mappedAddr := v }).linkLast (.range r) f).page
      g).mappedAddr = _
    rw [hl3, hpage, hpage, if_pos rfl]
    simp only [Option.some.injEq]
    split_ifs
    · rfl
    · exact haddr g
  · intro q w
    unfold relinked
    rw [entry_writeEntry hsome, ho.range]
    split_ifs
    · rfl
    · exact entry_of_pagemap hmaps q w
  · intro q g
    unfold relinked
    rw [hasTable_writeEntry]
    exact hasTable_of_pagemap hmaps q g

theorem invalidatePage_some (hm : PagesOk m)
    (hown : m.Present p v → m.Known (frameOf (m.entry p v)) →
      ∃ l, l ≠ .freelist ∧ frameOf (m.entry p v) ∈ m.list l)
    (h : m.invalidatePage p v (some r) = .ok m') :
    (¬ m.Present p v ∧ m' = m) ∨
    ∃ f, m.Present p v ∧ isPresent (m.range r).pageFlags = true ∧ Placed m p v r f m' ∧
      (f = frameOf (m.entry p v) ∧ m.Known f ∨
       f ∈ m.list .freelist ∧ m.findPage (frameOf (m.entry p v)).phy = .ok none) := by
  rcases invalidatePage_cases h with ⟨hp, rfl⟩ |
    ⟨hp, hk, hfree, m1, h1, ⟨s, hs, hfl, rfl⟩ | ⟨hn, -⟩⟩ |
    ⟨hp, hk, ⟨s, g, m1, hs, hfl, h1, rfl⟩ | ⟨hn, -⟩⟩
  · exact .inl ⟨hp, rfl⟩
  · cases hs
    obtain ⟨l, hl, hmem⟩ := hown hp hk
    obtain ⟨hm1, hmem1, hpage1⟩ := hm.unlink hmem hl h1
    refine .inr ⟨_, hp, hfl, placed_relinked hm1 hmem1 ?_ ?_ hk (pagesOnly_unlink h1) ?_
      (isSome_findEntry_of_present hp), .inl ⟨rfl, hk⟩⟩
    · intro g
      rw [hpage1]
      split_ifs with hg
      · rw [hg]
      · rfl
    · rw [hpage1, if_pos rfl]
      exact hfree
    · obtain ⟨-, -, rfl⟩ := unlink_spec h1
      rfl
  · cases hn
  · cases hs
    obtain ⟨hmem, hm1, hmem1, hpage1⟩ := hm.allocPage h1
    refine .inr ⟨g, hp, hfl, placed_relinked hm1 hmem1 ?_ ?_ (hm.known _ _ hmem)
      (pagesOnly_allocPage h1) ?_ (isSome_findEntry_of_present hp), .inr ⟨hmem, hk⟩⟩
    · intro g'
      rw [hpage1]
      split_ifs with hg
      · rw [hg]
      · rfl
    · rw [hpage1, if_pos rfl]
    · obtain ⟨-, -, -, rfl⟩ := allocPage_spec h1
      rfl
  · cases hn

theorem invalidatePage_none (hm : PagesOk m)
    (hown : m.Present p v → m.Known (frameOf (m.entry p v)) →
      ∃ l, l ≠ .freelist ∧ frameOf (m.entry p v) ∈ m.list l)
    (h : m.invalidatePage p v none = .ok m') :
    (¬ m.Present p v ∧ m' = m) ∨
    ∃ page, m.Present p v ∧ Dropped m p v page m' ∧
      (page = some (frameOf (m.entry p v)) ∧ m.Known (frameOf (m.entry p v)) ∨
       page = none ∧ m.findPage (frameOf (m.entry p v)).phy = .ok none) := by
  rcases invalidatePage_cases h with ⟨hp, rfl⟩ |
    ⟨hp, hk, hfree, m1, h1, ⟨s, hs, -, -⟩ | ⟨-, h2⟩⟩ |
    ⟨hp, hk, ⟨s, g, m1, hs, -, -, -⟩ | ⟨-, rfl⟩⟩
  · exact .inl ⟨hp, rfl⟩
  · cases hs
  · obtain ⟨l, hl, hmem⟩ := hown hp hk
    obtain ⟨hm1, hmem1, hpage1⟩ := hm.unlink hmem hl h1
    have ho := pagesOnly_unlink h1
    have hmaps : m1.pagemap = m.pagemap := by
      obtain ⟨-, -, rfl⟩ := unlink_spec h1
      rfl
    have hsome : (m1.findEntry p v).isSome := by
      have := isSome_findEntry_of_present hp
      unfold Machine.findEntry at this ⊢
      rw [hmaps]
      exact this
    have hout : Unlinked m1 (frameOf (m.entry p v)) := fun k hk => ((hmem1 k _).mp hk).2 rfl
    have hmw : PagesOk (m1.writeEntry p v 0#64) := hm1.congr rfl rfl rfl
    obtain ⟨hf1, hf2, hf3⟩ := hmw.freePage (f := frameOf (m.entry p v)) hout ((ho.known _).mpr hk) h2
    have hpo := (ho.trans (pagesOnly_writeEntry m1 p v 0#64)).trans (pagesOnly_freePage h2)
    have hmaps' : m'.pagemap = (m1.writeEntry p v 0#64).pagemap := by
      obtain ⟨-, rfl⟩ := freePage_spec h2
      rfl
    refine .inr ⟨some (frameOf (m.entry p v)), hp, ⟨hf1, ?_, ?_, ?_, ?_, hpo.range, hpo.nextRange,
      hpo.rangeList, hpo.live, hpo.regions⟩, .inl ⟨rfl, hk⟩⟩
    · intro k g
      rw [hf2]
      show g ∈ m1.list k ∨ _ ↔ _
      rw [hmem1]
      simp only [ne_eq, Option.some.injEq]
    · intro g
      rw [hf3]
      simp only [Option.some.injEq]
      split_ifs with hg
      · rfl
      · show (m1.page g).mappedAddr = _
        rw [hpage1, if_neg hg]
    · intro q w
      rw [entry_of_pagemap hmaps', entry_writeEntry hsome]
      split_ifs
      · rfl
      · exact entry_of_pagemap hmaps q w
    · intro q g
      rw [hasTable_of_pagemap hmaps', hasTable_writeEntry]
      exact hasTable_of_pagemap hmaps q g
  · cases hs
  · have hpo := pagesOnly_writeEntry m p v 0#64
    refine .inr ⟨none, hp, ⟨hm.congr rfl rfl rfl, ?_, fun _ => by simp; rfl, ?_, ?_, hpo.range,
      hpo.nextRange, hpo.rangeList, hpo.live, hpo.regions⟩, .inr ⟨rfl, hk⟩⟩
    · intro k g
      show g ∈ m.list k ↔ _
      simp
    · intro q w
      rw [entry_writeEntry (isSome_findEntry_of_present hp)]
    · intro q g
      rw [hasTable_writeEntry]

end Effect

end Fishix.Mem
