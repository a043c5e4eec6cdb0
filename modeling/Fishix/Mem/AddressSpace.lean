import Fishix.Mem.OwnedAddRange

/-!
# The address space as a function of the address

`kindAt m p v` is the (type, flags) of the range of `p` that holds `v`. A call of
`add_range` ends (`addRange_avoids`) and updates this function at the addresses of the
call and nowhere else (`addRange_pointwise`). It panics only over a page that is not one of the
page map's own.
-/

namespace Fishix.Mem

open Machine

/-! ## Calls end -/

section Ends

theorem findPageIn_avoids (phy : ℕ) : ∀ rs, Avoids Panic.diverges (findPageIn phy rs)
  | [] => avoids_ok _ _
  | r :: rs => by
    unfold findPageIn
    dsimp only
    split_ifs
    · exact findPageIn_avoids phy rs
    · exact avoids_ok _ _
    · exact avoids_ok _ _
    · exact avoids_error (by decide)
    · exact avoids_error (by decide)

theorem assert_avoids (x : Bool) : Avoids Panic.diverges (assert x) := by
  unfold assert
  split_ifs
  · exact avoids_ok _ _
  · exact avoids_error (by decide)

theorem unlink_avoids (m : Machine) (f : Pfn) : Avoids Panic.diverges (m.unlink f) := by
  unfold unlink
  split
  · exact avoids_error (by decide)
  · exact avoids_ok _ _

theorem allocPage_avoids (m : Machine) : Avoids Panic.diverges m.allocPage := by
  unfold allocPage
  split
  · exact avoids_error (by decide)
  · exact (assert_avoids _).bind fun _ _ => avoids_ok _ _

theorem freePage_avoids (m : Machine) (f : Pfn) : Avoids Panic.diverges (m.freePage f) :=
  (assert_avoids _).bind fun _ _ => avoids_ok _ _

section

variable (m : Machine) (p : PagemapId)

include m p

theorem invalidatePage_avoids (v : U64) (range : Option RangeId) :
    Avoids Panic.diverges (m.invalidatePage p v range) := by
  unfold invalidatePage
  split_ifs
  · exact avoids_ok _ _
  · refine (findPageIn_avoids _ _).bind fun page _ => Avoids.bind ?_ fun m1 _ => ?_
    · cases page with
      | some f => exact (assert_avoids _).bind fun _ _ => unlink_avoids m f
      | none => exact avoids_ok _ _
    · cases range with
      | some r =>
        refine (assert_avoids _).bind fun _ _ => Avoids.bind ?_ fun _ _ => avoids_ok _ _
        cases page with
        | some f => exact avoids_ok _ _
        | none => exact allocPage_avoids m1
      | none =>
        cases page with
        | some f => exact freePage_avoids _ f
        | none => exact avoids_ok _ _

theorem invalidatePages_avoids (base length : U64) (range : Option RangeId) :
    Avoids Panic.diverges (m.invalidatePages p base length range) :=
  avoids_foldlM (fun n _ => invalidatePage_avoids n p _ range) _ m

theorem deleteRange_avoids (r : RangeId) : Avoids Panic.diverges (m.deleteRange p r) := by
  unfold deleteRange
  exact (avoids_foldlM freePage_avoids _ _).bind fun _ _ => avoids_ok _ _

theorem finishAddRange_avoids (a : RangeArgs) (had : Bool) :
    Avoids Panic.diverges (m.finishAddRange p a had) := by
  have hif : ∀ (n : Machine) (r : RangeId), Avoids Panic.diverges
      (if had then n.invalidatePages p a.base a.length (some r) else .ok n) := by
    intro n r
    split_ifs
    · exact invalidatePages_avoids _ _ _ _ _
    · exact avoids_ok _ _
  unfold finishAddRange
  dsimp only
  split
  · exact (hif _ _).bind fun _ _ => avoids_ok _ _
  · by_cases h : a.type = .none
    · rw [dif_pos h]
      exact (invalidatePages_avoids _ _ _ _ _).bind fun _ _ => avoids_ok _ _
    · rw [dif_neg h]
      exact (hif _ _).bind fun _ _ => avoids_ok _ _

theorem resolveOne_avoids (a : RangeArgs) (r : RangeId) :
    Avoids Panic.diverges (m.resolveOne p a r) := by
  unfold resolveOne
  dsimp only
  split_ifs
  · exact avoids_ok _ _
  · exact (invalidatePages_avoids _ _ _ _ _).bind fun _ _ => avoids_ok _ _
  · exact avoids_ok _ _
  · exact (invalidatePages_avoids _ _ _ _ _).bind fun _ _ =>
      (deleteRange_avoids _ _ _).bind fun _ _ => avoids_ok _ _
  · exact avoids_ok _ _
  · exact avoids_ok _ _
  · refine (finishAddRange_avoids _ _ _ _).bind fun x _ => Avoids.bind ?_ fun _ _ => avoids_ok _ _
    obtain ⟨split, n⟩ := x
    cases split with
    | some s => exact invalidatePages_avoids _ _ _ _ _
    | none => exact avoids_ok _ _

end

theorem resolvePass_avoids (p : PagemapId) (a : RangeArgs) :
    ∀ (rest : List RangeId) (again : Bool) (m : Machine),
      Avoids Panic.diverges (resolvePass p a rest again m)
  | [], _, _ => avoids_ok _ _
  | r :: rest, again, m => by
    unfold resolvePass
    refine (resolveOne_avoids m p a r).bind fun x _ => ?_
    obtain ⟨res, n⟩ := x
    cases res with
    | noOverlap => exact resolvePass_avoids p a rest again n
    | changed => exact resolvePass_avoids p a rest true n
    | found => exact avoids_ok _ _

/-- The overlap loop of `add_range` ends, whatever the list and the arguments. -/
theorem addRange_avoids {m : Machine} (hm : HeapOk m) (p : PagemapId) (a : RangeArgs) :
    Avoids Panic.diverges (m.addRange p a) := by
  unfold addRange
  dsimp only
  split_ifs with hover
  · rw [resolveLoop_eq p a _ (hm.clearCache p)]
    refine (resolvePass_avoids p a _ _ _).bind fun x _ => ?_
    obtain ⟨found, had, n⟩ := x
    cases found with
    | some r => exact avoids_ok _ _
    | none => exact finishAddRange_avoids _ _ _ _
  · exact finishAddRange_avoids _ _ _ _

end Ends

/-! ## The update -/

/-- The type and flags of the range of `p` that holds `v`. -/
def Machine.kindAt (m : Machine) (p : PagemapId) (v : U64) : Option (RangeType × U64) :=
  ((m.ranges p).find? fun e => decide (e.Contains v)).map fun e => (e.type, e.pageFlags)

/-- In a list of disjoint ranges the order does not matter. -/
theorem kindAt_eq_some_iff {m : Machine} {p : PagemapId} (hd : DisjointRanges m p) (v : U64)
    (k : RangeType × U64) :
    m.kindAt p v = some k ↔
      ∃ r ∈ m.rangeList p, (m.range r).Contains v ∧
        ((m.range r).type, (m.range r).pageFlags) = k := by
  unfold kindAt ranges
  rw [List.find?_map, Option.map_map, Option.map_eq_some_iff]
  constructor
  · rintro ⟨r, hr, hk⟩
    have hmem := List.mem_of_find?_eq_some hr
    have hcon := List.find?_some hr
    exact ⟨r, hmem, by simpa using hcon, hk⟩
  · rintro ⟨r, hr, hcon, hk⟩
    cases hf : (m.rangeList p).find? ((fun e => decide (e.Contains v)) ∘ m.range) with
    | none =>
      have := List.find?_eq_none.mp hf r hr
      simp [hcon] at this
    | some s =>
      have hs := List.mem_of_find?_eq_some hf
      have hcon' : (m.range s).Contains v := by simpa using List.find?_some hf
      by_cases hsr : s = r
      · subst hsr
        exact ⟨s, rfl, hk⟩
      · exact absurd hcon (hd s hs r hr hsr v hcon')

theorem kindAt_eq_none_iff (m : Machine) (p : PagemapId) (v : U64) :
    m.kindAt p v = none ↔ ∀ r ∈ m.rangeList p, ¬ (m.range r).Contains v := by
  unfold kindAt ranges
  simp

/-- The (type, flags) an address of the call gets. -/
def RangeArgs.kind (a : RangeArgs) : Option (RangeType × U64) :=
  if a.type = .none then none else some (a.type, a.pageFlags)

theorem FillsWindow.kind {m : Machine} {p : PagemapId} {a : RangeArgs} {r : RangeId}
    {e : MappedRange} (h : FillsWindow m p a r e) : a.kind = some (e.type, e.pageFlags) := by
  unfold RangeArgs.kind
  rcases h with ⟨hne, rfl⟩ | ⟨anon, htype, hflags⟩ | ⟨-, hex, rfl⟩
  · rw [if_neg hne]
    rfl
  · rw [anon, if_neg (by decide), htype, hflags]
  · rw [hex.2.2.2, if_neg (m.range r).type_ne]

theorem AddedRange.kindAt {p : PagemapId} {a : RangeArgs} {m m' : Machine}
    (h : AddedRange p a m m') (hd : DisjointRanges m p) (v : U64) :
    m'.kindAt p v = if a.Covers v then a.kind else m.kindAt p v := by
  by_cases hc : a.Covers v
  · rw [if_pos hc]
    by_cases htype : a.type = .none
    · have hk : a.kind = none := by
        unfold RangeArgs.kind
        rw [if_pos htype]
      rw [hk, kindAt_eq_none_iff]
      intro r hr hv
      have := (h.inside r hr v hv hc).kind
      rw [hk] at this
      cases this
    · obtain ⟨r, hr, hv⟩ := h.fills htype v hc
      rw [(h.inside r hr v hv hc).kind, kindAt_eq_some_iff h.disj]
      exact ⟨r, hr, hv, rfl⟩
  · rw [if_neg hc]
    cases hk : m.kindAt p v with
    | none =>
      rw [kindAt_eq_none_iff] at hk ⊢
      intro r hr hv
      obtain ⟨s, hs, hsv, -⟩ := h.outside r hr v hv hc
      exact hk s hs hsv
    | some k =>
      rw [kindAt_eq_some_iff hd] at hk
      obtain ⟨s, hs, hsv, hk⟩ := hk
      obtain ⟨r, hr, hv⟩ := h.keeps s hs v hsv hc
      rw [kindAt_eq_some_iff h.disj]
      refine ⟨r, hr, hv, ?_⟩
      obtain ⟨t, ht, htv, hinh⟩ := h.outside r hr v hv hc
      have hts : t = s := by
        by_contra hne
        exact hd t ht s hs hne v htv hsv
      subst hts
      rw [hinh.type, hinh.pageFlags]
      exact hk

/-- **Main theorem.** `add_range` on a list of disjoint, non-empty ranges: the overlap loop
    ends; the new list is again disjoint and non-empty; and the (type, flags) at every
    address is the requested one in `[base, base + length)` and unchanged elsewhere. What is left
    is a panic over a page: in a user page map whose pages are in order, the call then touches one
    that it has from a device or from the kernel. -/
theorem addRange_pointwise (m : Machine) (p : PagemapId) (a : RangeArgs) (heap : HeapOk m)
    (disjoint : DisjointRanges m p)
    (nonempty : ∀ r ∈ m.rangeList p, (m.range r).base < (m.range r).end_)
    (pos : 0 < a.length.toNat) (fits : a.base.toNat + a.length.toNat < 2 ^ 64)
    (resolve : a.resolveOverlap = true) :
    match m.addRange p a with
    | .ok (_, m') =>
      DisjointRanges m' p ∧ (∀ r ∈ m'.rangeList p, (m'.range r).base < (m'.range r).end_) ∧
        ∀ v, m'.kindAt p v = if a.Covers v then a.kind else m.kindAt p v
    | .error e => e ≠ .diverges ∧ ∀ window n, p = .user n →
        Owned window n (fun _ _ => False) m → m.live p = true → UserArgs a →
        ∃ v, LowerPage v ∧ Touches m p a v ∧ Foreign m n v := by
  have hlt : a.base < a.end_ := by
    unfold RangeArgs.end_
    bv_omega
  have hle : a.base ≤ a.end_ := BitVec.le_of_lt hlt
  have ho : OrderedRanges m p := fun r hr => BitVec.le_of_lt (nonempty r hr)
  cases h : m.addRange p a with
  | ok x =>
    obtain ⟨res, m'⟩ := x
    have hadd := addRange_added heap disjoint ho hle resolve h
    exact ⟨hadd.disj, hadd.nonempty nonempty fun _ => hlt, hadd.kindAt disjoint⟩
  | error e =>
    refine ⟨?_, ?_⟩
    · rintro rfl
      exact addRange_avoids heap p a h
    · rintro window n rfl hown hlive ha
      by_contra hno
      push Not at hno
      obtain ⟨x, hx⟩ := hown.addRange_completes hlive ha resolve hno
      rw [h] at hx
      cases hx

/-- One anonymous range of three pages at `0x1000`, in the first user page map. -/
def threePages : Machine :=
  { blank with
    range := fun _ =>
      { base := 0x1000#64, originalBase := 0x1000#64, length := 0x3000#64
        pageFlags := pagePresent ||| pageUser, type := .anonymous, phyBase := 0#64, file := none
        fileOffset := 0#64, type_ne := RangeType.anonymous_ne_none }
    nextRange := 1
    pagemap := fun p =>
      { pml4 := Radix.empty 0#64 3 0#40, rangeList := if p = .user 0 then [0] else []
        cachedRangeLookup := none } }

/-- The arguments of `munmap(0x2000, 0x1000)`. -/
def middlePage : RangeArgs :=
  { base := 0x2000#64, length := 0x1000#64, pageFlags := 0#64, type := .none, phyBase := 0#64
    file := none, fileOffset := 0#64, merge := false, resolveOverlap := true, keepPages := false }

theorem heapOk_threePages : HeapOk threePages := by
  have hl : ∀ p, threePages.rangeList p = if p = .user 0 then [0] else [] := fun _ => rfl
  refine ⟨fun p => ?_, fun p r hr => ?_, fun p q r hp hq => ?_⟩
  · rw [hl]
    split_ifs <;> simp
  · rw [hl] at hr
    split_ifs at hr with h
    · rw [List.mem_singleton] at hr
      subst hr
      exact Nat.zero_lt_one
    · cases hr
  · rw [hl] at hp hq
    split_ifs at hp hq with h1 h2
    · rw [h1, h2]
    · cases hq
    · cases hp
    · cases hp

theorem disjointRanges_threePages : DisjointRanges threePages (.user 0) := by
  intro r hr s hs hne
  have h1 : r ∈ [0] := hr
  have h2 : s ∈ [0] := hs
  rw [List.mem_singleton] at h1 h2
  exact absurd (h1.trans h2.symm) hne

/-- Unmapping the middle page of three splits the range. -/
theorem addRange_pointwise_threePages : ∃ m', threePages.addRange (.user 0) middlePage = .ok (none, m') ∧
    (m'.ranges (.user 0)).map (fun e => (e.base, e.length)) =
      [(0x1000#64, 0x1000#64), (0x3000#64, 0x1000#64)] ∧
    ∀ v, m'.kindAt (.user 0) v =
      if middlePage.Covers v then none else threePages.kindAt (.user 0) v := by
  obtain ⟨⟨res, m'⟩, hrun, hx⟩ := exists_ok_of_map
    (f := fun x : Option RangeId × Machine =>
      (x.1, (x.2.ranges (.user 0)).map fun e => (e.base, e.length)))
    (show (threePages.addRange (.user 0) middlePage).map _ =
      .ok (none, [(0x1000#64, 0x1000#64), (0x3000#64, 0x1000#64)]) from rfl)
  obtain ⟨rfl, hranges⟩ := Prod.mk.inj hx
  have h := addRange_pointwise threePages (.user 0) middlePage heapOk_threePages
    disjointRanges_threePages (by decide) (by decide) (by decide) rfl
  rw [hrun] at h
  exact ⟨m', hrun, hranges, h.2.2⟩

end Fishix.Mem
