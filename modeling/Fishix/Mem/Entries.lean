import Fishix.Mem.Resolve

/-!
# What the calls do to page-table entries

These facts hold in every state; they do not depend on the page lists.

* `invalidatePages_entry_other`: entries that are not visited do not change.
* `invalidatePages_none`: without a range no visited page is present afterwards.
* `invalidatePages_some`: with a range, a visited page is present iff it was, and a frame
  that has a `pmm::Page` stays (`SameFrames`).
-/

namespace Fishix.Mem

/-- The two addresses share one page-table entry. -/
abbrev SamePage (q : PagemapId) (w : U64) (p : PagemapId) (v : U64) : Prop :=
  tablesOf q w = tablesOf p v ∧ vpn w = vpn v

/-- `invalidate_pages(base, length, ·)` on `p` visits the entry of `w` in `q`. -/
def Visits (p : PagemapId) (base length : U64) (q : PagemapId) (w : U64) : Prop :=
  ∃ i < numPages length, SamePage q w p (base + BitVec.ofNat 64 i * pageSize)

theorem entry_samePage (m : Machine) {p q : PagemapId} {v w : U64} (h : SamePage q w p v) :
    m.entry q w = m.entry p v := entry_congr m h.1 h.2

theorem present_samePage (m : Machine) {p q : PagemapId} {v w : U64} (h : SamePage q w p v) :
    m.Present q w ↔ m.Present p v := by
  unfold Machine.Present
  rw [entry_samePage m h]

/-! ## One page -/

section One

variable {m m' : Machine} {p : PagemapId} {v : U64} {range : Option RangeId}

theorem entry_writeEntry_of_present {m1 : Machine} (hmaps : m1.pagemap = m.pagemap)
    (hp : m.Present p v) (x : U64) (q : PagemapId) (w : U64) :
    (m1.writeEntry p v x).entry q w = if SamePage q w p v then x else m.entry q w := by
  have hsome : (m1.findEntry p v).isSome := by
    have := isSome_findEntry_of_present hp
    unfold Machine.findEntry at this ⊢
    rw [hmaps]
    exact this
  rw [entry_writeEntry hsome]
  split_ifs
  · rfl
  · unfold Machine.entry Machine.findEntry
    rw [hmaps]

section

variable (h : m.invalidatePage p v range = .ok m')

include h

/-- The entry of an invalidated page that was present. -/
theorem invalidatePage_entry (hp : m.Present p v) :
    ∃ x, (∀ q w, m'.entry q w = if SamePage q w p v then x else m.entry q w) ∧
      (range = none ∧ x = 0#64 ∨
       ∃ r f, range = some r ∧ isPresent (m.range r).pageFlags = true ∧
        x = f.phy ||| (m.range r).pageFlags ∧
        (m.Known (frameOf (m.entry p v)) ∧ f = frameOf (m.entry p v) ∨
         m.findPage (frameOf (m.entry p v)).phy = .ok none ∧ f ∈ m.list .freelist)) := by
  rcases invalidatePage_cases h with ⟨hn, -⟩ |
    ⟨-, hk, -, m1, h1, ⟨r, hr, hfl, rfl⟩ | ⟨hr, h2⟩⟩ |
    ⟨-, hk, ⟨r, f, m1, hr, hfl, h1, rfl⟩ | ⟨hr, rfl⟩⟩
  · exact absurd hp hn
  · have hmaps : m1.pagemap = m.pagemap := by
      obtain ⟨-, -, rfl⟩ := unlink_spec h1
      rfl
    refine ⟨_, fun q w => ?_, .inr ⟨r, _, hr, hfl, rfl, .inl ⟨hk, rfl⟩⟩⟩
    rw [← (pagesOnly_unlink h1).range]
    exact entry_writeEntry_of_present hmaps hp _ q w
  · have hmaps : m1.pagemap = m.pagemap := by
      obtain ⟨-, -, rfl⟩ := unlink_spec h1
      rfl
    refine ⟨0#64, fun q w => ?_, .inl ⟨hr, rfl⟩⟩
    obtain ⟨-, rfl⟩ := freePage_spec h2
    exact entry_writeEntry_of_present hmaps hp _ q w
  · have hmaps : m1.pagemap = m.pagemap := by
      obtain ⟨-, -, -, rfl⟩ := allocPage_spec h1
      rfl
    have hfree : f ∈ m.list .freelist := by
      obtain ⟨rest, hl, -, -⟩ := allocPage_spec h1
      rw [hl]
      simp
    refine ⟨_, fun q w => ?_, .inr ⟨r, f, hr, hfl, rfl, .inr ⟨hk, hfree⟩⟩⟩
    rw [← (pagesOnly_allocPage h1).range]
    exact entry_writeEntry_of_present hmaps hp _ q w
  · refine ⟨0#64, fun q w => ?_, .inl ⟨hr, rfl⟩⟩
    exact entry_writeEntry_of_present rfl hp _ q w

theorem invalidatePage_absent (hp : ¬ m.Present p v) : m' = m := by
  rcases invalidatePage_cases h with ⟨-, rfl⟩ | ⟨h1, -⟩ | ⟨h1, -⟩
  · rfl
  · exact absurd h1 hp
  · exact absurd h1 hp

theorem invalidatePage_entry_other {q : PagemapId} {w : U64} (hne : ¬ SamePage q w p v) :
    m'.entry q w = m.entry q w := by
  by_cases hp : m.Present p v
  · obtain ⟨x, hx, -⟩ := invalidatePage_entry h hp
    rw [hx, if_neg hne]
  · rw [invalidatePage_absent h hp]

end

end One

/-! ## A span of pages -/

section Span

variable {m m' : Machine} {p : PagemapId} {base length : U64}

theorem invalidatePages_entry_other {range : Option RangeId}
    (h : m.invalidatePages p base length range = .ok m') {q : PagemapId} {w : U64}
    (hne : ¬ Visits p base length q w) : m'.entry q w = m.entry q w := by
  refine foldlM_ok_invariant (fun s => s.entry q w = m.entry q w) rfl ?_ h
  intro i s s' hi hs hstep
  rw [invalidatePage_entry_other hstep (fun hsame => hne ⟨i, List.mem_range.mp hi, hsame⟩)]
  exact hs

theorem invalidatePages_none (h : m.invalidatePages p base length none = .ok m') {q : PagemapId}
    {w : U64} (hv : Visits p base length q w) : ¬ m'.Present q w := by
  have key := foldlM_ok_induction
    (fun pre s => ∀ i ∈ pre, SamePage q w p (base + BitVec.ofNat 64 i * pageSize) →
      ¬ s.Present q w)
    (List.range (numPages length)) [] m m' (by simp) ?_ h
  · obtain ⟨i, hi, hsame⟩ := hv
    exact key i (List.mem_range.mpr hi) hsame
  · intro pre i s s' hs hi hstep j hj hsame
    by_cases hvis : SamePage q w p (base + BitVec.ofNat 64 i * pageSize)
    · by_cases hp : s.Present p (base + BitVec.ofNat 64 i * pageSize)
      · obtain ⟨x, hx, ⟨-, rfl⟩ | ⟨r, f, hr, -⟩⟩ := invalidatePage_entry hstep hp
        · unfold Machine.Present
          rw [hx, if_pos hvis]
          simp
        · cases hr
      · rw [invalidatePage_absent hstep hp, present_samePage s hvis]
        exact hp
    · rcases List.mem_append.mp hj with hj | hj
      · unfold Machine.Present
        rw [invalidatePage_entry_other hstep hvis]
        exact hs j hj hsame
      · rw [List.mem_singleton] at hj
        subst hj
        exact absurd hsame hvis

/-- Every page is present iff it was, and a frame with a `pmm::Page` stays. -/
structure SameFrames (m m' : Machine) : Prop where
  present : ∀ q w, m'.Present q w ↔ m.Present q w
  frame : ∀ q w, m.Present q w → m.Known (frameOf (m.entry q w)) →
    frameOf (m'.entry q w) = frameOf (m.entry q w)

theorem SameFrames.refl (m : Machine) : SameFrames m m := ⟨fun _ _ => Iff.rfl, fun _ _ _ _ => rfl⟩

theorem SameFrames.trans {m m1 m2 : Machine} (h : SameFrames m m1) (h' : SameFrames m1 m2)
    (hk : ∀ f, m1.Known f ↔ m.Known f) : SameFrames m m2 := by
  refine ⟨fun q w => (h'.present q w).trans (h.present q w), fun q w hp hf => ?_⟩
  have h1 := h.frame q w hp hf
  rw [h'.frame q w ((h.present q w).mpr hp) (by rw [h1, hk]; exact hf), h1]

/-- With a range whose flags are a flag word, pages stay present and keep their frames. -/
theorem invalidatePages_some {r : RangeId} (hmask : (m.range r).pageFlags &&& frameMask = 0#64)
    (h : m.invalidatePages p base length (some r) = .ok m') : SameFrames m m' := by
  have key := foldlM_ok_invariant (fun s => SameFrames m s ∧ PagesOnly m s) ⟨.refl m, .refl m⟩ ?_ h
  · exact key.1
  · rintro i s s' - ⟨hs, ho⟩ hstep
    refine ⟨hs.trans ?_ ho.known, ho.trans (pagesOnly_invalidatePage hstep)⟩
    by_cases hp : s.Present p (base + BitVec.ofNat 64 i * pageSize)
    · obtain ⟨x, hx, ⟨hr, -⟩ | ⟨r', f, hr, hfl, rfl, hf⟩⟩ := invalidatePage_entry hstep hp
      · cases hr
      · cases hr
        rw [← ho.range] at hmask
        refine ⟨fun q w => ?_, fun q w hpres hk => ?_⟩
        · unfold Machine.Present
          rw [hx]
          split_ifs with hsame
          · rw [isPresent_phy_or, hfl, entry_samePage s hsame]
            exact ⟨fun _ => hp, fun _ => rfl⟩
          · rfl
        · rw [hx]
          split_ifs with hsame
          · rw [frameOf_phy_or hmask, entry_samePage s hsame]
            rw [entry_samePage s hsame] at hk
            rcases hf with ⟨-, rfl⟩ | ⟨hn, -⟩
            · rfl
            · unfold Machine.Known at hk
              rw [hn] at hk
              cases hk
          · rfl
    · rw [invalidatePage_absent hstep hp]
      exact .refl s

end Span

end Fishix.Mem
