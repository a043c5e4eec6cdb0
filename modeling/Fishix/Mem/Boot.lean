import Fishix.Mem.Vmm

/-!
# Physical memory at boot

Model of `pmm::init`, `absorb_memmap_entry` and `find_page` (mem/pmm.cpp:17-62, 92-107) on the
memory map that the boot protocol hands over, with the `Page` structs themselves, and of
`map_pages` (mem/vmm.cpp:140-144), which builds the direct map.

A struct is placed by its physical address: `ptr - hhdm` in the source. Where the source
computes in `usize`, the model computes in `ℕ`: an entry ends below `2^64`, so no sum or
product wraps.

* `Region.structs_fit`: header and structs of a region fit into its reserved frames.
* `absorbMemmapEntry_eq`: what one entry becomes.
* `findStruct_iff`: `find_page` is right exactly if no region ends at the address, or a region
  that starts there comes first in the list.
* `pmmInit_sound`: the three together, for every memory map.
-/

namespace Fishix.Mem

open BitVec (ofNat toNat_ofNat eq_of_toNat_eq)

/-! ## The memory map -/

/-- `limine_memmap_entry`; only `LIMINE_MEMMAP_USABLE` entries are absorbed. -/
structure MemmapEntry where
  base : U64
  length : U64
  usable : Bool

/-- A `Page` struct: its physical address and the `pfn` in it. -/
structure PageStruct where
  address : ℕ
  pfn : ℕ
deriving DecidableEq

/-- A region with the array of `Page` structs behind its header. -/
structure Absorbed where
  region : Region
  structs : List PageStruct

/-- `pfn_start` (mem/pmm.cpp:32-35). -/
def MemmapEntry.pfnStart (e : MemmapEntry) : U64 :=
  let start := e.base / pageSize
  if e.base % pageSize ≠ 0#64 then start + 1#64 else start

/-- `pfn_end` (mem/pmm.cpp:33-37). -/
def MemmapEntry.pfnEnd (e : MemmapEntry) : U64 :=
  let end_ := e.base / pageSize + e.length / pageSize
  if e.length % pageSize ≠ 0#64 then end_ - 1#64 else end_

/-- The region of an entry: it starts at `pfn_start` and has `pfn_end - pfn_start` pages. -/
def MemmapEntry.region (e : MemmapEntry) : Region :=
  { basePfn := e.pfnStart.toNat, numPages := (e.pfnEnd - e.pfnStart).toNat }

/-- `absorb_memmap_entry` (mem/pmm.cpp:31-62): the structs follow the header, which takes
    `sizeof(Region) = 32` bytes, each `sizeof(Page) = 32` bytes further. -/
def absorbMemmapEntry (hhdm : U64) (e : MemmapEntry) : Except Panic Absorbed := do
  let region := e.region
  let structs ← (List.range region.numPagesUsable).foldlM
    (fun structs i => do
      let address := region.basePhy + 32 + 32 * i
      assert ((ofNat 64 address + hhdm) % 32#64 = 0#64)
      .ok (structs ++ [{ address, pfn := region.basePfn + region.numPagesReserved + i }])) []
  .ok { region, structs }

/-- `pmm::init` (mem/pmm.cpp:17-24): `region_list`, in list order. -/
def pmmInit (hhdm : U64) (entries : List MemmapEntry) : Except Panic (List Absorbed) :=
  entries.foldlM
    (fun absorbed e =>
      if e.usable then do
        let a ← absorbMemmapEntry hhdm e
        .ok (absorbed ++ [a])
      else .ok absorbed) []

/-- `page_freelist` after `pmm::init`. -/
def freelistOf (absorbed : List Absorbed) : List ℕ :=
  absorbed.flatMap fun a => a.structs.map PageStruct.pfn

/-- `find_page` (mem/pmm.cpp:92-107) over the structs; an index outside the array is
    `Panic.badPointer`. -/
def findStruct (phy : ℕ) : List Absorbed → Except Panic (Option PageStruct)
  | [] => .ok none
  | a :: rest =>
    if phy < a.region.basePhy ∨ phy > a.region.endPhy then findStruct phy rest
    else
      let offsetPages := (phy - a.region.basePhy) / 4096
      if offsetPages < a.region.numPagesReserved then .ok none
      else
        match a.structs[offsetPages - a.region.numPagesReserved]? with
        | none => .error .badPointer
        | some page => if page.pfn * 4096 = phy then .ok (some page) else .error .assertion

/-- `map_pages` (mem/vmm.cpp:140-144). -/
def Machine.mapPages (m : Machine) (p : PagemapId) (phy virt size flags : U64) :
    Except Panic Machine :=
  (List.range (numPages size)).foldlM
    (fun m i => m.mapPage p (phy + ofNat 64 i * pageSize)
      (virt + ofNat 64 i * pageSize) flags) m

/-! ## One region -/

/-- The `i`th struct of a region. -/
def Region.struct (r : Region) (i : ℕ) : PageStruct :=
  { address := r.basePhy + 32 + 32 * i, pfn := r.basePfn + r.numPagesReserved + i }

/-- The structs of a region. -/
def Region.structs (r : Region) : List PageStruct := (List.range r.numPagesUsable).map r.struct

namespace Region

variable {r : Region}

theorem mem_structs {x : PageStruct} : x ∈ r.structs ↔ ∃ i < r.numPagesUsable, r.struct i = x := by
  unfold structs
  simp

/-- A region that is not empty has room for the frames it reserves. -/
theorem numPagesReserved_le (h : 0 < r.numPages) : r.numPagesReserved ≤ r.numPages := by
  unfold numPagesReserved
  omega

theorem structs_fit {x : PageStruct} (hx : x ∈ r.structs) :
    r.basePhy + 32 ≤ x.address ∧ x.address + 32 ≤ r.basePhy + r.numPagesReserved * 4096 := by
  obtain ⟨i, hi, rfl⟩ := mem_structs.mp hx
  have hle : r.numPagesUsable ≤ r.numPages := Nat.sub_le _ _
  have hres : 32 + r.numPages * 32 ≤ r.numPagesReserved * 4096 := by
    unfold numPagesReserved
    omega
  show r.basePhy + 32 ≤ r.basePhy + 32 + 32 * i ∧ _
  refine ⟨by omega, ?_⟩
  show r.basePhy + 32 + 32 * i + 32 ≤ _
  omega

theorem pfn_mem_structs (h : 0 < r.numPages) {pfn : ℕ} :
    (∃ x ∈ r.structs, x.pfn = pfn) ↔
      r.basePfn + r.numPagesReserved ≤ pfn ∧ pfn < r.basePfn + r.numPages := by
  have hres := numPagesReserved_le h
  have husable : r.numPagesUsable = r.numPages - r.numPagesReserved := rfl
  constructor
  · rintro ⟨x, hx, rfl⟩
    obtain ⟨i, hi, rfl⟩ := mem_structs.mp hx
    show _ ≤ r.basePfn + r.numPagesReserved + i ∧ r.basePfn + r.numPagesReserved + i < _
    omega
  · rintro ⟨h1, h2⟩
    refine ⟨r.struct (pfn - (r.basePfn + r.numPagesReserved)), mem_structs.mpr ⟨_, ?_, rfl⟩, ?_⟩
    · omega
    · show r.basePfn + r.numPagesReserved + (pfn - (r.basePfn + r.numPagesReserved)) = pfn
      omega

theorem nodup_pfn (r : Region) : (r.structs.map PageStruct.pfn).Nodup := by
  unfold structs
  rw [List.map_map]
  refine List.Nodup.map ?_ List.nodup_range
  intro i j hij
  have : r.basePfn + r.numPagesReserved + i = r.basePfn + r.numPagesReserved + j := hij
  omega

/-- Two regions without a common frame. -/
def Disjoint (r s : Region) : Prop :=
  r.basePfn + r.numPages ≤ s.basePfn ∨ s.basePfn + s.numPages ≤ r.basePfn

end Region

/-! ## The loop of `absorb_memmap_entry` -/

/-- What the boot protocol guarantees of the memory map: entries are page-aligned, not empty and
    end below `2^64`, usable ones do not overlap, and the direct map starts at a page. -/
structure Guaranteed (hhdm : U64) (entries : List MemmapEntry) : Prop where
  hhdm : hhdm.toNat % 4096 = 0
  base : ∀ e ∈ entries, e.base.toNat % 4096 = 0
  length : ∀ e ∈ entries, e.length.toNat % 4096 = 0
  nonempty : ∀ e ∈ entries, 0 < e.length.toNat
  fits : ∀ e ∈ entries, e.base.toNat + e.length.toNat < 2 ^ 64
  apart : (entries.filter MemmapEntry.usable).Pairwise fun e f =>
    e.base.toNat + e.length.toNat ≤ f.base.toNat ∨ f.base.toNat + f.length.toNat ≤ e.base.toNat

theorem MemmapEntry.region_of_aligned {e : MemmapEntry} (hb : e.base.toNat % 4096 = 0)
    (hl : e.length.toNat % 4096 = 0) :
    e.region = { basePfn := e.base.toNat / 4096, numPages := e.length.toNat / 4096 } := by
  have hbase : e.base % pageSize = 0#64 := by
    apply eq_of_toNat_eq
    simpa [pageSize] using hb
  have hlength : e.length % pageSize = 0#64 := by
    apply eq_of_toNat_eq
    simpa [pageSize] using hl
  have hs : e.pfnStart.toNat = e.base.toNat / 4096 := by
    unfold pfnStart
    rw [if_neg (not_not.mpr hbase)]
    simp [BitVec.toNat_udiv, pageSize]
  have he : e.pfnEnd = e.base / pageSize + e.length / pageSize := by
    unfold pfnEnd
    rw [if_neg (not_not.mpr hlength)]
  have hn : (e.pfnEnd - e.pfnStart).toNat = e.length.toNat / 4096 := by
    have hstart : e.pfnStart = e.base / pageSize := by
      unfold pfnStart
      rw [if_neg (not_not.mpr hbase)]
    rw [he, hstart, BitVec.add_comm, BitVec.add_sub_cancel]
    simp [BitVec.toNat_udiv, pageSize]
  unfold region
  rw [hs, hn]

/-- Every `Page` struct is aligned, so the `ASSERT` of the loop holds. -/
theorem absorbMemmapEntry_eq {hhdm : U64} (hh : hhdm.toNat % 4096 = 0) (e : MemmapEntry) :
    absorbMemmapEntry hhdm e = .ok { region := e.region, structs := e.region.structs } := by
  have hloop : ∀ n, (List.range n).foldlM
      (fun (structs : List PageStruct) i => do
        let address := e.region.basePhy + 32 + 32 * i
        assert ((ofNat 64 address + hhdm) % 32#64 = 0#64)
        .ok (structs ++ [{ address, pfn := e.region.basePfn + e.region.numPagesReserved + i }])) []
      = (.ok ((List.range n).map e.region.struct) : Except Panic (List PageStruct)) := by
    intro n
    induction n with
    | zero => rfl
    | succ n ih =>
      have haligned : (ofNat 64 (e.region.basePhy + 32 + 32 * n) + hhdm) % 32#64 = 0#64 := by
        apply eq_of_toNat_eq
        rw [BitVec.toNat_umod, BitVec.toNat_add, toNat_ofNat]
        show _ % 32 = 0
        unfold Region.basePhy
        omega
      have hassert : assert (decide ((ofNat 64 (e.region.basePhy + 32 + 32 * n) + hhdm) % 32#64
          = 0#64)) = .ok () := by
        rw [decide_eq_true haligned]
        rfl
      rw [List.range_succ, List.foldlM_append, ih, ok_bind, List.foldlM_cons, List.map_append]
      dsimp only
      rw [hassert]
      rfl
  unfold absorbMemmapEntry
  dsimp only
  rw [hloop]
  rfl

theorem pmmInit_eq {hhdm : U64} (hh : hhdm.toNat % 4096 = 0) (entries : List MemmapEntry) :
    pmmInit hhdm entries = .ok ((entries.filter MemmapEntry.usable).map fun e =>
      { region := e.region, structs := e.region.structs }) := by
  unfold pmmInit
  suffices h : ∀ done : List Absorbed, entries.foldlM
      (fun (absorbed : List Absorbed) e =>
        if e.usable then do
          let a ← absorbMemmapEntry hhdm e
          .ok (absorbed ++ [a])
        else .ok absorbed) done
      = (.ok (done ++ (entries.filter MemmapEntry.usable).map fun e =>
          { region := e.region, structs := e.region.structs }) : Except Panic (List Absorbed)) from
    h []
  induction entries with
  | nil =>
    intro done
    simp [pure, Except.pure]
  | cons e entries ih =>
    intro done
    rw [List.foldlM_cons]
    by_cases hu : e.usable
    · rw [if_pos hu, absorbMemmapEntry_eq hh, ok_bind, ok_bind, ih, List.filter_cons_of_pos hu]
      simp
    · rw [if_neg hu, ok_bind, ih, List.filter_cons_of_neg hu]

/-! ## `find_page` -/

/-- The list `pmm::init` leaves: arrays as `absorb_memmap_entry` fills them, regions that are not
    empty and share no frame. -/
structure WellAbsorbed (absorbed : List Absorbed) : Prop where
  structs : ∀ a ∈ absorbed, a.structs = a.region.structs
  nonempty : ∀ a ∈ absorbed, 0 < a.region.numPages
  apart : absorbed.Pairwise fun a b => a.region.Disjoint b.region

/-- `find_page(phy)` returns the `Page` of the frame if there is one and `nullptr` otherwise. -/
def FindsPage (absorbed : List Absorbed) (phy : ℕ) : Prop :=
  (∀ a ∈ absorbed, ∀ x ∈ a.structs, x.pfn * 4096 = phy → findStruct phy absorbed = .ok (some x)) ∧
  ((∀ a ∈ absorbed, ∀ x ∈ a.structs, x.pfn * 4096 ≠ phy) → findStruct phy absorbed = .ok none)

/-- Every region that ends at `phy` comes behind one that starts there. -/
def EndsBehindStart (absorbed : List Absorbed) (phy : ℕ) : Prop :=
  ∀ pre a post, absorbed = pre ++ a :: post → a.region.endPhy = phy →
    ∃ b ∈ pre, b.region.basePhy = phy

theorem WellAbsorbed.tail {a : Absorbed} {rest : List Absorbed} (h : WellAbsorbed (a :: rest)) :
    WellAbsorbed rest :=
  ⟨fun b hb => h.structs b (List.mem_cons_of_mem _ hb),
    fun b hb => h.nonempty b (List.mem_cons_of_mem _ hb), (List.pairwise_cons.mp h.apart).2⟩

theorem endsBehindStart_cons {a : Absorbed} {rest : List Absorbed} {phy : ℕ} :
    EndsBehindStart (a :: rest) phy ↔ a.region.endPhy ≠ phy ∧
      (a.region.basePhy = phy ∨ EndsBehindStart rest phy) := by
  constructor
  · intro h
    refine ⟨fun hend => ?_, ?_⟩
    · obtain ⟨b, hb, -⟩ := h [] a rest rfl hend
      cases hb
    · by_cases hbase : a.region.basePhy = phy
      · exact .inl hbase
      · refine .inr fun pre b post heq hend => ?_
        obtain ⟨c, hc, hcb⟩ := h (a :: pre) b post (by rw [heq]; rfl) hend
        rcases List.mem_cons.mp hc with rfl | hc
        · exact absurd hcb hbase
        · exact ⟨c, hc, hcb⟩
  · rintro ⟨hend, hcase⟩ pre b post heq hb
    cases pre with
    | nil =>
      cases heq
      exact absurd hb hend
    | cons c pre =>
      cases heq
      obtain hbase | hrest := hcase
      · exact ⟨_, List.mem_cons_self, hbase⟩
      · obtain ⟨d, hd, hdb⟩ := hrest pre b post rfl hb
        exact ⟨d, List.mem_cons_of_mem _ hd, hdb⟩

/-- A region whose frames are behind or before `phy` has no struct for it. -/
theorem not_struct_of_outside {a : Absorbed} (hs : a.structs = a.region.structs)
    (hne : 0 < a.region.numPages) {phy : ℕ} (hout : phy < a.region.basePhy ∨ a.region.endPhy ≤ phy) :
    ∀ x ∈ a.structs, x.pfn * 4096 ≠ phy := by
  intro x hx heq
  rw [hs] at hx
  obtain ⟨h1, h2⟩ := (Region.pfn_mem_structs hne).mp ⟨x, hx, rfl⟩
  unfold Region.endPhy Region.basePhy at hout
  omega

/-- `find_page` is right at a page-aligned address exactly if no region ends there, or one that
    starts there comes first. -/
theorem findStruct_iff {absorbed : List Absorbed} (h : WellAbsorbed absorbed) {phy : ℕ}
    (hphy : phy % 4096 = 0) : FindsPage absorbed phy ↔ EndsBehindStart absorbed phy := by
  induction absorbed with
  | nil =>
    refine ⟨fun _ pre a post heq => by simp at heq, fun _ => ⟨by simp, fun _ => rfl⟩⟩
  | cons a rest ih =>
    have hs := h.structs a (by simp)
    have hne := h.nonempty a (by simp)
    have hres := Region.numPagesReserved_le hne
    have hend : a.region.endPhy = a.region.basePhy + a.region.numPages * 4096 := rfl
    have hbase : a.region.basePhy = a.region.basePfn * 4096 := rfl
    have hrest := List.pairwise_cons.mp h.apart
    rw [endsBehindStart_cons]
    by_cases hout : phy < a.region.basePhy ∨ phy > a.region.endPhy
    · -- the scan goes on
      have hnone := not_struct_of_outside hs hne (hout.imp id le_of_lt)
      have hskip : findStruct phy (a :: rest) = findStruct phy rest := by
        rw [findStruct, if_pos hout]
      have hiff : FindsPage (a :: rest) phy ↔ FindsPage rest phy := by
        unfold FindsPage
        rw [hskip]
        constructor
        · rintro ⟨h1, h2⟩
          refine ⟨fun b hb => h1 b (List.mem_cons_of_mem _ hb), fun h3 => h2 ?_⟩
          intro b hb x hx
          rcases List.mem_cons.mp hb with rfl | hb
          · exact hnone x hx
          · exact h3 b hb x hx
        · rintro ⟨h1, h2⟩
          refine ⟨fun b hb x hx hpfn => ?_, fun h3 => h2 fun b hb =>
            h3 b (List.mem_cons_of_mem _ hb)⟩
          rcases List.mem_cons.mp hb with rfl | hb
          · exact absurd hpfn (hnone x hx)
          · exact h1 b hb x hx hpfn
      rw [hiff, ih h.tail]
      constructor
      · intro h1
        exact ⟨by omega, .inr h1⟩
      · rintro ⟨-, h1 | h1⟩
        · omega
        · exact h1
    · obtain ⟨hlow, hhigh⟩ := not_or.mp hout
      have hunfold : findStruct phy (a :: rest) =
          if (phy - a.region.basePhy) / 4096 < a.region.numPagesReserved then .ok none
          else
            match a.structs[(phy - a.region.basePhy) / 4096 - a.region.numPagesReserved]? with
            | none => .error .badPointer
            | some page => if page.pfn * 4096 = phy then .ok (some page) else .error .assertion := by
        rw [findStruct, if_neg hout]
      by_cases hlast : phy = a.region.endPhy
      · -- one past the array
        refine ⟨fun hfinds => ?_, fun hc => absurd hlast.symm hc.1⟩
        exfalso
        have hoff : (phy - a.region.basePhy) / 4096 = a.region.numPages := by omega
        have hbad : findStruct phy (a :: rest) = .error .badPointer := by
          rw [hunfold, hoff, if_neg (by omega), hs]
          have : a.region.structs[a.region.numPages - a.region.numPagesReserved]? = none := by
            unfold Region.structs Region.numPagesUsable
            simp
          rw [this]
        by_cases hex : ∃ b ∈ a :: rest, ∃ x ∈ b.structs, x.pfn * 4096 = phy
        · obtain ⟨b, hb, x, hx, hpfn⟩ := hex
          have := hfinds.1 b hb x hx hpfn
          rw [hbad] at this
          cases this
        · have := hfinds.2 fun b hb x hx hpfn => hex ⟨b, hb, x, hx, hpfn⟩
          rw [hbad] at this
          cases this
      · -- inside the region: no other region is concerned
        have hother : ∀ b ∈ rest, ∀ x ∈ b.structs, x.pfn * 4096 ≠ phy := by
          intro b hb
          refine not_struct_of_outside (h.structs b (List.mem_cons_of_mem _ hb))
            (h.nonempty b (List.mem_cons_of_mem _ hb)) ?_
          have := hrest.1 b hb
          unfold Region.Disjoint at this
          unfold Region.endPhy Region.basePhy at *
          omega
        have hcond : a.region.endPhy ≠ phy ∧
            (a.region.basePhy = phy ∨ EndsBehindStart rest phy) := by
          refine ⟨fun he => hlast he.symm, ?_⟩
          by_cases hb : a.region.basePhy = phy
          · exact .inl hb
          · refine .inr fun pre b post heq hbend => ?_
            exfalso
            have hmem : b ∈ rest := by rw [heq]; simp
            have := hrest.1 b hmem
            have hbne := h.nonempty b (List.mem_cons_of_mem _ hmem)
            unfold Region.Disjoint at this
            unfold Region.endPhy Region.basePhy at *
            omega
        refine ⟨fun _ => hcond, fun _ => ?_⟩
        set offset := (phy - a.region.basePhy) / 4096 with hoffset
        by_cases hreserved : offset < a.region.numPagesReserved
        · have hok : findStruct phy (a :: rest) = .ok none := by
            rw [hunfold, if_pos hreserved]
          refine ⟨fun b hb x hx hpfn => ?_, fun _ => hok⟩
          exfalso
          rcases List.mem_cons.mp hb with rfl | hb
          · rw [hs] at hx
            have := (Region.pfn_mem_structs hne).mp ⟨x, hx, rfl⟩
            omega
          · exact hother b hb x hx hpfn
        · have hget : a.structs[offset - a.region.numPagesReserved]? =
              some (a.region.struct (offset - a.region.numPagesReserved)) := by
            rw [hs]
            unfold Region.structs Region.numPagesUsable
            rw [List.getElem?_map, List.getElem?_range (by omega)]
            rfl
          have hpfn' : (a.region.struct (offset - a.region.numPagesReserved)).pfn * 4096 = phy := by
            show (a.region.basePfn + a.region.numPagesReserved +
              (offset - a.region.numPagesReserved)) * 4096 = phy
            omega
          have hok : findStruct phy (a :: rest) =
              .ok (some (a.region.struct (offset - a.region.numPagesReserved))) := by
            rw [hunfold, if_neg hreserved, hget]
            show (if _ then _ else _) = _
            rw [if_pos hpfn']
          refine ⟨fun b hb x hx hpfn => ?_, fun hnone => ?_⟩
          · rw [hok]
            rcases List.mem_cons.mp hb with rfl | hb
            · rw [hs] at hx
              obtain ⟨i, hi, rfl⟩ := Region.mem_structs.mp hx
              have hi' : (b.region.basePfn + b.region.numPagesReserved + i) * 4096 = phy := hpfn
              have : i = offset - b.region.numPagesReserved := by omega
              rw [this]
            · exact absurd hpfn (hother b hb x hx)
          · exfalso
            refine hnone a (by simp) _ ?_ hpfn'
            rw [hs]
            exact Region.mem_structs.mpr ⟨_, by unfold Region.numPagesUsable; omega, rfl⟩

/-- The model of `find_page` that works without the structs agrees, on frames of 40 bits. -/
theorem findPageIn_eq_findStruct {absorbed : List Absorbed} (h : WellAbsorbed absorbed)
    (hfits : ∀ a ∈ absorbed, a.region.basePfn + a.region.numPages ≤ 2 ^ 40) (phy : ℕ) :
    findPageIn phy (absorbed.map Absorbed.region) =
      (findStruct phy absorbed).map (Option.map fun x => ofNat 40 x.pfn) := by
  induction absorbed with
  | nil => rfl
  | cons a rest ih =>
    have ih := ih h.tail fun b hb => hfits b (List.mem_cons_of_mem _ hb)
    have hs := h.structs a (by simp)
    have hfit := hfits a (by simp)
    rw [List.map_cons, findPageIn, findStruct]
    split_ifs with hout
    · exact ih
    · dsimp only
      set offset := (phy - a.region.basePhy) / 4096
      have hn : offset - a.region.numPagesReserved < a.region.numPagesUsable →
          (ofNat 40 (a.region.basePfn + offset)).toNat = a.region.basePfn + offset := by
        intro husable
        rw [toNat_ofNat]
        unfold Region.numPagesUsable at husable
        omega
      have hpfn : ¬offset < a.region.numPagesReserved → a.region.basePfn +
          a.region.numPagesReserved + (offset - a.region.numPagesReserved) =
          a.region.basePfn + offset := by omega
      split_ifs with hres husable hassert
      · rfl
      all_goals
        rw [hs]
        unfold Region.structs
        rw [List.getElem?_map]
      · rw [hn husable] at hassert
        simp only [List.getElem?_range husable, Option.map_some, Region.struct, hpfn hres,
          if_pos hassert]
        rfl
      · rw [hn husable] at hassert
        simp only [List.getElem?_range husable, Option.map_some, Region.struct, hpfn hres,
          if_neg hassert]
        rfl
      · have hnone : (List.range a.region.numPagesUsable)[offset - a.region.numPagesReserved]? =
            none := List.getElem?_eq_none (by rw [List.length_range]; omega)
        rw [hnone]
        rfl

/-! ## The whole memory map -/

namespace Guaranteed

variable {hhdm : U64} {entries : List MemmapEntry}

theorem region (h : Guaranteed hhdm entries) {e : MemmapEntry} (he : e ∈ entries) :
    e.region = { basePfn := e.base.toNat / 4096, numPages := e.length.toNat / 4096 } :=
  MemmapEntry.region_of_aligned (h.base e he) (h.length e he)

theorem wellAbsorbed (h : Guaranteed hhdm entries) :
    WellAbsorbed ((entries.filter MemmapEntry.usable).map fun e =>
      { region := e.region, structs := e.region.structs }) := by
  have hmem : ∀ e ∈ entries.filter MemmapEntry.usable, e ∈ entries :=
    fun e he => (List.mem_filter.mp he).1
  refine ⟨?_, ?_, ?_⟩
  · intro a ha
    obtain ⟨e, -, rfl⟩ := List.mem_map.mp ha
    rfl
  · intro a ha
    obtain ⟨e, he, rfl⟩ := List.mem_map.mp ha
    show 0 < e.region.numPages
    rw [h.region (hmem e he)]
    have h1 := h.nonempty e (hmem e he)
    have h2 := h.length e (hmem e he)
    show 0 < e.length.toNat / 4096
    omega
  · rw [List.pairwise_map]
    refine h.apart.imp_of_mem fun {e f} he hf hef => ?_
    show e.region.Disjoint f.region
    rw [h.region (hmem e he), h.region (hmem f hf)]
    unfold Region.Disjoint
    have := h.base e (hmem e he)
    have := h.base f (hmem f hf)
    have := h.length e (hmem e he)
    have := h.length f (hmem f hf)
    show _ / 4096 + _ / 4096 ≤ _ / 4096 ∨ _ / 4096 + _ / 4096 ≤ _ / 4096
    omega

end Guaranteed

/-- No frame has two structs. -/
theorem WellAbsorbed.nodup {absorbed : List Absorbed} (h : WellAbsorbed absorbed) :
    (freelistOf absorbed).Nodup := by
  unfold freelistOf
  rw [List.nodup_flatMap]
  refine ⟨fun a ha => ?_, h.apart.imp_of_mem fun {a b} ha hb hab => ?_⟩
  · rw [h.structs a ha]
    exact a.region.nodup_pfn
  · intro pfn hpa hpb
    dsimp only at hpa hpb
    rw [h.structs a ha, List.mem_map] at hpa
    rw [h.structs b hb, List.mem_map] at hpb
    have h1 := (Region.pfn_mem_structs (h.nonempty a ha)).mp hpa
    have h2 := (Region.pfn_mem_structs (h.nonempty b hb)).mp hpb
    unfold Region.Disjoint at hab
    omega

/-- **Main theorem.** On every memory map that the boot protocol allows, `pmm::init` returns; the
    structs and the header of each usable entry fit into its reserved frames, the frames of the
    structs are distinct, inside their entry and outside the reserved frames; and `find_page` is
    right at a page-aligned address exactly if every region that ends there comes behind one that
    starts there. -/
theorem pmmInit_sound {hhdm : U64} {entries : List MemmapEntry} (h : Guaranteed hhdm entries) :
    ∃ absorbed, pmmInit hhdm entries = .ok absorbed ∧
      absorbed.map Absorbed.region = (entries.filter MemmapEntry.usable).map (fun e =>
        { basePfn := e.base.toNat / 4096, numPages := e.length.toNat / 4096 }) ∧
      (∀ a ∈ absorbed, a.region.numPagesReserved ≤ a.region.numPages ∧
        32 ≤ a.region.numPagesReserved * 4096 ∧ ∀ x ∈ a.structs,
          a.region.basePhy + 32 ≤ x.address ∧
          x.address + 32 ≤ a.region.basePhy + a.region.numPagesReserved * 4096) ∧
      (freelistOf absorbed).Nodup ∧
      (∀ a ∈ absorbed, ∀ x ∈ a.structs, a.region.basePfn + a.region.numPagesReserved ≤ x.pfn ∧
        x.pfn < a.region.basePfn + a.region.numPages) ∧
      ∀ phy, phy % 4096 = 0 → (FindsPage absorbed phy ↔ EndsBehindStart absorbed phy) := by
  have hw := h.wellAbsorbed
  refine ⟨_, pmmInit_eq h.hhdm entries, ?_, ?_, hw.nodup, ?_, fun phy => findStruct_iff hw⟩
  · rw [List.map_map]
    exact List.map_congr_left fun e he => h.region (List.mem_filter.mp he).1
  · intro a ha
    refine ⟨Region.numPagesReserved_le (hw.nonempty a ha), ?_, fun x hx => ?_⟩
    · unfold Region.numPagesReserved
      omega
    · rw [hw.structs a ha] at hx
      exact Region.structs_fit hx
  · intro a ha x hx
    rw [hw.structs a ha] at hx
    exact (Region.pfn_mem_structs (hw.nonempty a ha)).mp ⟨x, hx, rfl⟩

/-- A memory map with one usable entry of 64 KiB at 1 MiB. -/
def oneEntry : List MemmapEntry :=
  [{ base := 0x100000#64, length := 0x10000#64, usable := true }]

theorem guaranteed_oneEntry : Guaranteed 0xFFFF800000000000#64 oneEntry where
  hhdm := by decide
  base := by decide
  length := by decide
  nonempty := by decide
  fits := by decide
  apart := List.pairwise_singleton _ _

theorem pmmInit_sound_oneEntry :
    ∃ absorbed, pmmInit 0xFFFF800000000000#64 oneEntry = .ok absorbed ∧
      (freelistOf absorbed).Nodup ∧ FindsPage absorbed 0x101000 := by
  obtain ⟨absorbed, hrun, hregions, -, hnodup, -, hfinds⟩ := pmmInit_sound guaranteed_oneEntry
  refine ⟨absorbed, hrun, hnodup, (hfinds 0x101000 (by decide)).mpr ?_⟩
  intro pre a post heq hend
  exfalso
  have hr : a.region ∈ absorbed.map Absorbed.region :=
    List.mem_map_of_mem (by rw [heq]; simp)
  rw [hregions] at hr
  have ha : a.region = { basePfn := 0x100, numPages := 16 } := by simpa [oneEntry] using hr
  rw [ha] at hend
  exact absurd hend (by decide)

/-- The address after the entry: `find_page` reads the struct behind the last one. -/
theorem findStruct_end_of_oneEntry :
    Guaranteed 0xFFFF800000000000#64 oneEntry ∧
      ∃ absorbed, pmmInit 0xFFFF800000000000#64 oneEntry = .ok absorbed ∧
        (∀ a ∈ absorbed, ∀ x ∈ a.structs, x.pfn * 4096 ≠ 0x110000) ∧
        findStruct 0x110000 absorbed = .error .badPointer :=
  ⟨guaranteed_oneEntry, _, pmmInit_eq guaranteed_oneEntry.hhdm oneEntry, by decide +kernel,
    by decide +kernel⟩

/-! ## A booted machine -/

/-- The free pages of `booted`. -/
def bootPages : List Pfn := (List.range 14).map fun i => ofNat 40 (0x102 + i)

theorem mem_bootPages (f : Pfn) : f ∈ bootPages ↔ 0x102 ≤ f.toNat ∧ f.toNat < 0x110 := by
  unfold bootPages
  rw [List.mem_map]
  constructor
  · rintro ⟨i, hi, rfl⟩
    rw [List.mem_range] at hi
    rw [toNat_ofNat]
    omega
  · rintro ⟨h1, h2⟩
    refine ⟨f.toNat - 0x102, List.mem_range.mpr (by omega), eq_of_toNat_eq ?_⟩
    rw [toNat_ofNat]
    omega

/-- A machine with 64 KiB of memory at 1 MiB, before the direct map: the first page holds the
    structs, the second one the kernel's PML4. -/
def booted : Machine :=
  { Machine.blank with
    regions := [{ basePfn := 0x100, numPages := 16 }]
    page := fun f =>
      if f ∈ bootPages then { free := true, mappedAddr := 0#64, link := some .freelist }
      else if f = 0x101#40 then { free := false, mappedAddr := 0#64, link := some (.tables .kernel) }
      else { free := false, mappedAddr := 0#64, link := none }
    list := fun l =>
      if l = .freelist then bootPages else if l = .tables .kernel then [0x101#40] else []
    pagemap := fun _ => Machine.emptyPagemap 0x101#40
    live := fun p => decide (p = .kernel) }

theorem list_booted (l : ListId) :
    booted.list l = if l = .freelist then bootPages else if l = .tables .kernel then [0x101#40] else [] :=
  rfl

theorem known_booted {f : Pfn} (h1 : 0x101 ≤ f.toNat) (h2 : f.toNat < 0x110) : booted.Known f := by
  let r : Region := { basePfn := 0x100, numPages := 16 }
  have hpfn : ofNat 40 (0x100 + (f.toNat * 4096 - 0x100000) / 4096) = f := by
    apply eq_of_toNat_eq
    rw [toNat_ofNat]
    omega
  have hbase : r.basePhy = 0x100000 := by decide
  have hend : r.endPhy = 0x110000 := by decide
  have hres : r.numPagesReserved = 1 := by decide
  have husable : r.numPagesUsable = 15 := by decide
  show findPageIn f.phy.toNat [r] = .ok (some f)
  rw [toNat_phy, findPageIn, hbase, hend, hres, husable, if_neg (by omega)]
  dsimp only
  rw [if_neg (by omega), if_pos (by omega)]
  show (if (ofNat 40 (0x100 + (f.toNat * 4096 - 0x100000) / 4096)).toNat * 4096 = _ then
    Except.ok (some (ofNat 40 (0x100 + (f.toNat * 4096 - 0x100000) / 4096)))
    else Except.error Panic.assertion) = _
  rw [hpfn, if_pos rfl]

end Fishix.Mem
