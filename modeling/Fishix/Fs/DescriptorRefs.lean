import Fishix.Common.RefCount
import Fishix.Fs.Descriptors

/-!
# References of descriptor tables

Every occupied slot holds a reference to its description: `open` and the like make a description
with one, `duplicate` takes one more, `FileDescriptor::close` drops it. `f.CountedWith P T G` is the
count of the references of slots (`slotRefs`) and of others (`T`), which no call on descriptors
changes.

* `CountedWith.made`, `CountedWith.duplicated`, `CountedWith.dropped`: one slot.
* `CountedWith.open_`, `CountedWith.close`, `CountedWith.dup3`, `CountedWith.fork` and so on: the
  calls.
* `CountedWith.exit`: a process that ends leaves no slot occupied.
-/

namespace Fishix.Fs

open Fishix.Mem (Panic)

namespace Files

/-- The slots that refer to `d`. -/
def slotRefs (f : Files) (d : DescriptionId) : Set (Pid × ℕ) :=
  {x | ((f.table x.1).slot x.2).description = some d}

variable {κ : Type*} {P : Set Pid} {T : DescriptionId → Set κ} {G : Set DescriptionId}
  {f f' : Files} {p q : Pid} {fd : ℕ}
  {d : DescriptionId}

/-- The descriptions are counted, with the references `T` from elsewhere; only the processes of `P`
    have descriptors, and the descriptions of `G` are gone. -/
structure CountedWith (P : Set Pid) (T : DescriptionId → Set κ) (G : Set DescriptionId) (f : Files) : Prop where
  refs : RefCounted (Joined f.slotRefs T) f.refCount f.closed (· < f.nextDescription) G
  vacant : ∀ q, q ∉ P → ∀ i, ((f.table q).slot i).description = none

/-! ## One slot -/

/-- `f'` has `v` in slot `fd` of process `p`, and what `f` has elsewhere. -/
def Refilled (f f' : Files) (p : Pid) (fd : ℕ) (v : Option DescriptionId) : Prop :=
  ∀ q i, ((f'.table q).slot i).description =
    if q = p ∧ i = fd then v else ((f.table q).slot i).description

theorem Refilled.of_setSlot {x : Table} {e : FileDescriptor} (hlt : fd < x.fileDescriptors.length)
    (hx : ∀ i, (x.slot i).description = ((f.table p).slot i).description)
    (htable : ∀ q, f'.table q = if q = p then x.setSlot fd e else f.table q) :
    Refilled f f' p fd e.description := by
  intro q i
  rw [htable]
  by_cases hq : q = p
  · rw [if_pos hq, Table.slot_setSlot hlt]
    by_cases hi : i = fd
    · rw [if_pos hi, if_pos ⟨hq, hi⟩]
    · rw [if_neg hi, if_neg (fun hc => hi hc.2), hx, hq]
  · rw [if_neg hq, if_neg (fun hc => hq hc.1)]

/-- Slots that do not change what they refer to. -/
theorem slotRefs_congr (h : ∀ q i, ((f'.table q).slot i).description =
    ((f.table q).slot i).description) (d : DescriptionId) : f'.slotRefs d = f.slotRefs d := by
  unfold slotRefs
  simp only [h]

theorem Refilled.insert (h : Refilled f f' p fd (some d)) :
    f'.slotRefs d = insert (p, fd) (f.slotRefs d) := by
  ext ⟨q, i⟩
  unfold slotRefs
  simp only [Set.mem_insert_iff, Set.mem_ofPred_eq, Prod.mk.injEq, h q i]
  by_cases hx : q = p ∧ i = fd
  · simp [hx]
  · simp [hx]

theorem Refilled.erase (h : Refilled f f' p fd none) (d : DescriptionId) :
    f'.slotRefs d = f.slotRefs d \ {(p, fd)} := by
  ext ⟨q, i⟩
  unfold slotRefs
  simp only [Set.mem_sdiff, Set.mem_singleton_iff, Set.mem_ofPred_eq, Prod.mk.injEq, h q i]
  by_cases hx : q = p ∧ i = fd
  · simp [hx]
  · simp [hx]

theorem Refilled.other {v : Option DescriptionId} (h : Refilled f f' p fd v) (hv : v ≠ some d)
    (hold : ((f.table p).slot fd).description ≠ some d) : f'.slotRefs d = f.slotRefs d := by
  ext ⟨q, i⟩
  unfold slotRefs
  simp only [Set.mem_ofPred_eq, h q i]
  by_cases hx : q = p ∧ i = fd
  · rw [if_pos hx, hx.1, hx.2]
    exact ⟨fun hc => absurd hc hv, fun hc => absurd hc hold⟩
  · rw [if_neg hx]

/-! ## The table of a forked process -/

/-- In the middle of the loop of `clone_impl`: `c.1` is what the table of `q` has so far. -/
def Copying (f : Files) (q : Pid) (x : Table) (c : List FileDescriptor × Files) : Files :=
  { c.2 with table := Function.update f.table q { x with fileDescriptors := c.1 } }

@[simp] theorem copying_self (f : Files) (q : Pid) (x : Table) (c : List FileDescriptor × Files) :
    (Copying f q x c).table q = { x with fileDescriptors := c.1 } := Function.update_self ..

theorem copying_of_ne (f : Files) (x : Table) (c : List FileDescriptor × Files) {o : Pid}
    (ho : o ≠ q) : (Copying f q x c).table o = f.table o := Function.update_of_ne ho ..

/-! ## One slot, counted -/

namespace CountedWith

section

variable (h : f.CountedWith P T G)

include h

theorem congr (hslot : ∀ q i, ((f'.table q).slot i).description = ((f.table q).slot i).description)
    (hrefs : f'.refCount = f.refCount) (hclosed : f'.closed = f.closed)
    (hnext : f'.nextDescription = f.nextDescription) : f'.CountedWith P T G := by
  refine ⟨?_, fun q hq i => (hslot q i).trans (h.vacant q hq i)⟩
  rw [hrefs, hclosed, hnext]
  exact h.refs.congr fun d => joined_congr (slotRefs_congr hslot d) rfl

/-- One more process may have descriptors. -/
theorem more : f.CountedWith (insert q P) T G :=
  ⟨h.refs, fun r hr => h.vacant r (fun hc => hr (Set.mem_insert_of_mem q hc))⟩

theorem mem_of_occupied (hocc : (f.table p).Occupied fd) : p ∈ P := by
  by_contra hp
  exact hocc (h.vacant p hp fd)

theorem vacant_refilled {v : Option DescriptionId} (hp : p ∈ P) (hslot : Refilled f f' p fd v)
    (q : Pid) (hq : q ∉ P) (i : ℕ) : ((f'.table q).slot i).description = none := by
  have hother : ¬(q = p ∧ i = fd) := by
    rintro ⟨rfl, -⟩
    exact hq hp
  rw [hslot q i, if_neg hother]
  exact h.vacant q hq i

theorem made (hp : p ∈ P) (hfree : ((f.table p).slot fd).description = none)
    (hslot : Refilled f f' p fd (some f.nextDescription))
    (hrefs : f'.refCount = Function.update f.refCount f.nextDescription 1)
    (hclosed : f'.closed = f.closed) (hnext : f'.nextDescription = f.nextDescription + 1) :
    f'.CountedWith P T G := by
  refine ⟨?_, h.vacant_refilled hp hslot⟩
  rw [hrefs, hclosed, hnext]
  have hempty : Joined f.slotRefs T f.nextDescription = ∅ := (h.refs.unborn _ (by simp)).2
  refine h.refs.fresh (x := .inl (p, fd)) (by simp) ?_ ?_ ?_
  · exact fun e => Nat.lt_succ_iff_lt_or_eq
  · rw [joined_insert_left hslot.insert, hempty]
    exact LawfulSingleton.insert_empty_eq _
  · intro e he
    exact joined_congr (hslot.other (fun hc => he (Option.some.inj hc).symm) (by simp [hfree])) rfl

/-- A description that is referred to gets into one more slot. -/
theorem duplicated (hp : p ∈ P) (hfree : ((f.table p).slot fd).description = none)
    (hd : (f.slotRefs d).Nonempty) (hslot : Refilled f f' p fd (some d))
    (hrefs : f'.refCount = (f.incrementRefCount d).refCount) (hclosed : f'.closed = f.closed)
    (hnext : f'.nextDescription = f.nextDescription) : f'.CountedWith P T G := by
  refine ⟨?_, h.vacant_refilled hp hslot⟩
  rw [hrefs, hclosed, hnext]
  obtain ⟨x, hx⟩ := hd
  refine h.refs.share (x := .inl (p, fd)) ⟨.inl x, inl_mem_joined.mpr hx⟩ ?_ ?_ ?_
  · rw [inl_mem_joined]
    unfold slotRefs
    simp [hfree]
  · exact joined_insert_left hslot.insert
  · intro e he
    exact joined_congr (hslot.other (fun hc => he (Option.some.inj hc).symm) (by simp [hfree])) rfl

theorem dropped (hold : ((f.table p).slot fd).description = some d)
    (hslot : Refilled f f' p fd none) (hrefs : f'.refCount = (f.decrementRefCount d).refCount)
    (hclosed : f'.closed = (f.decrementRefCount d).closed)
    (hnext : f'.nextDescription = f.nextDescription) : f'.CountedWith P T G := by
  have hocc : (f.table p).Occupied fd := by simp [Table.Occupied, hold]
  have hp : p ∈ P := h.mem_of_occupied hocc
  refine ⟨?_, h.vacant_refilled hp hslot⟩
  rw [hrefs, hclosed, hnext]
  have hmem : (p, fd) ∈ f.slotRefs d := hold
  refine h.refs.release (x := .inl (p, fd)) (inl_mem_joined.mpr hmem) ?_ ?_
  · exact joined_diff_left (hslot.erase d)
  · intro e he
    exact joined_congr (hslot.other (by simp) (by simpa [hold] using he.symm)) rfl

end

/-! ## The calls -/

section

variable (h : f.CountedWith P T G)

include h

theorem close (hrun : f.close p fd = .ok f') : f'.CountedWith P T G := by
  obtain ⟨hocc, htable⟩ := close_cases hrun
  have hslot : Refilled f f' p fd none :=
    Refilled.of_setSlot (x := { f.table p with
      numFileDescriptors := (f.table p).numFileDescriptors - 1
      firstFreeFdnum := if (f.table p).firstFreeFdnum > fd then fd
        else (f.table p).firstFreeFdnum }) (e := {}) (Table.lt_of_occupied hocc) (fun _ => rfl) htable
  unfold Files.close at hrun
  cases hd : ((f.table p).slot fd).description with
  | none => simp [hd] at hrun
  | some d =>
    simp only [hd] at hrun
    cases hrun
    exact h.dropped hd hslot rfl rfl rfl

theorem open_ (hp : p ∈ P) (cloexec : Bool) : (f.open_ p cloexec).2.CountedWith P T G := by
  have halloc := (f.table p).allocateFdnum_spec 0
  have hfree : ((f.table p).slot ((f.table p).allocateFdnum 0).1).description = none :=
    not_not.mp halloc.free
  refine h.made hp hfree ?_ rfl rfl rfl
  refine Refilled.of_setSlot (x := ((f.table p).allocateFdnum 0).2)
    (e := ⟨some f.nextDescription, cloexec⟩) halloc.lt (fun i => by rw [halloc.slot]) ?_
  intro q
  split_ifs with hq
  · subst hq
    simp [Files.open_, newDescription, updateTable]
  · simp [Files.open_, newDescription, updateTable, hq]

theorem pipe (hp : p ∈ P) (cloexec : Bool) :
    (f.pipe p cloexec).CountedWith P T G := (h.open_ hp cloexec).open_ hp cloexec

theorem syscallClose {fd : ℤ} (hrun : f.syscallClose p fd = .ok f') : f'.CountedWith P T G := by
  unfold Files.syscallClose at hrun
  split_ifs at hrun
  · exact h.close hrun
  · cases hrun
    exact h

theorem closeAll {b : FileDescriptor → Bool} (hrun : f.closeAll p b = .ok f') :
    f'.CountedWith P T G := by
  unfold Files.closeAll at hrun
  refine foldlM_ok_invariant (CountedWith P T G) h ?_ hrun
  intro fd f1 f2 _ h1 hstep
  split_ifs at hstep
  · exact h1.close hstep
  · cases hstep
    exact h1

theorem relabelled {e : FileDescriptor} (hocc : (f.table p).Occupied fd)
    (he : e.description = ((f.table p).slot fd).description) :
    (f.updateTable p fun x => x.setSlot fd e).CountedWith P T G := by
  refine h.congr (fun q i => ?_) rfl rfl rfl
  by_cases hq : q = p
  · rw [hq, updateTable_self, Table.slot_setSlot (Table.lt_of_occupied hocc)]
    split_ifs with hi
    · rw [he, hi]
    · rfl
  · rw [updateTable_of_ne _ hq]

theorem closeRange {first last : ℕ} {cloexec : Bool}
    (hrun : f.closeRange p first last cloexec = .ok f') : f'.CountedWith P T G := by
  unfold Files.closeRange at hrun
  by_cases hlast : first > last
  · rw [if_pos hlast] at hrun
    cases hrun
    exact h
  rw [if_neg hlast] at hrun
  by_cases hnone : (f.table p).fileDescriptors.length = 0
  · rw [if_pos hnone] at hrun
    simp at hrun
  rw [if_neg hnone] at hrun
  refine foldlM_ok_invariant (CountedWith P T G) h ?_ hrun
  intro fd f1 f2 _ h1 hstep
  cases hd : ((f1.table p).slot fd).description with
  | none =>
    simp only [hd] at hstep
    cases hstep
    exact h1
  | some d =>
    simp only [hd] at hstep
    split_ifs at hstep
    · cases hstep
      exact h1.relabelled (by simp [Table.Occupied, hd]) hd.symm
    · exact h1.close hstep

theorem setFlags {fd : ℤ} {cloexec : Bool} : (f.setFlags p fd cloexec).CountedWith P T G := by
  unfold Files.setFlags
  split_ifs with hopen
  · exact h.relabelled hopen.2.2 rfl
  · exact h

theorem stored {e : FileDescriptor} {b cloexec : Bool} (hp : p ∈ P)
    (hlt : fd < (f.table p).fileDescriptors.length)
    (hfree : ((f.table p).slot fd).description = none) (he : e.description = some d)
    (hd : (f.slotRefs d).Nonempty) :
    ((f.duplicate e b).2.updateTable p fun x =>
      x.setSlot fd { (f.duplicate e b).1 with cloexec := cloexec }).CountedWith P T G := by
  have hdup : (f.duplicate e b).2 = f.incrementRefCount d := by
    unfold duplicate
    rw [he]
  have hdesc : (f.duplicate e b).1.description = some d := he
  rw [hdup]
  refine h.duplicated hp hfree hd ?_ rfl rfl rfl
  rw [← hdesc]
  refine Refilled.of_setSlot (e := { (f.duplicate e b).1 with cloexec := cloexec }) hlt
    (fun _ => rfl) ?_
  intro q
  split_ifs with hq
  · subst hq
    rw [updateTable_self]
    rfl
  · rw [updateTable_of_ne _ hq]
    rfl

theorem dupfd {fd minFdnum : ℤ} {cloexec : Bool} :
    (f.dupfd p fd minFdnum cloexec).CountedWith P T G := by
  unfold Files.dupfd
  split_ifs with hopen
  · have halloc := (f.table p).allocateFdnum_spec minFdnum
    obtain ⟨newfd, x, hx⟩ : ∃ newfd x, (f.table p).allocateFdnum minFdnum = (newfd, x) := ⟨_, _, rfl⟩
    rw [hx] at halloc ⊢
    obtain ⟨d, hd⟩ := Option.ne_none_iff_exists'.mp hopen.2.2
    have hslot : ∀ q i, (((f.updateTable p fun _ => x).table q).slot i).description =
        ((f.table q).slot i).description := by
      intro q i
      by_cases hq : q = p
      · rw [hq, updateTable_self, halloc.slot]
      · rw [updateTable_of_ne _ hq]
    have hgrown : (f.updateTable p fun _ => x).CountedWith P T G := h.congr hslot rfl rfl rfl
    refine hgrown.stored (h.mem_of_occupied hopen.2.2) ?_ ?_ (d := d) ?_ ⟨(p, fd.toNat), ?_⟩
    · rw [updateTable_self]
      exact halloc.lt
    · rw [hslot]
      exact not_not.mp halloc.free
    · rw [hslot, hd]
    · show _ = _
      rw [hslot, hd]
  · exact h

theorem vacate (hrun : f.vacate p fd = .ok f') :
    f'.CountedWith P T G ∧ ((f'.table p).slot fd).description = none := by
  unfold Files.vacate at hrun
  split_ifs at hrun with hocc
  · refine ⟨h.close hrun, ?_⟩
    obtain ⟨-, htable⟩ := close_cases hrun
    rw [htable, if_pos rfl]
    show (((f.table p).setSlot fd {}).slot fd).description = none
    rw [Table.slot_setSlot (Table.lt_of_occupied hocc), if_pos rfl]
  · cases hrun
    exact ⟨h, not_not.mp hocc⟩

theorem dup3 {oldfd newfd : ℤ} {cloexec : Bool} (hrun : f.dup3 p oldfd newfd cloexec = .ok f') :
    f'.CountedWith P T G := by
  unfold Files.dup3 at hrun
  by_cases hskip : ¬f.Open p oldfd ∨ 1023 < newfd ∨ newfd < 0 ∨ oldfd = newfd
  · rw [if_pos hskip] at hrun
    cases hrun
    exact h
  rw [if_neg hskip] at hrun
  obtain ⟨hopen, -, hnew, hne⟩ : f.Open p oldfd ∧ ¬1023 < newfd ∧ ¬newfd < 0 ∧ ¬oldfd = newfd := by
    simpa only [not_or, not_not] using hskip
  obtain ⟨f1, hf1, rfl⟩ := exists_ok_of_map hrun
  obtain ⟨d, hd⟩ := Option.ne_none_iff_exists'.mp hopen.2.2
  have hgrown : (f.updateTable p fun x => x.growTo newfd.toNat).CountedWith P T G := by
    refine h.congr (fun q i => ?_) rfl rfl rfl
    by_cases hq : q = p
    · rw [hq, updateTable_self, Table.slot_growTo]
    · rw [updateTable_of_ne _ hq]
  obtain ⟨h1, hfree⟩ := hgrown.vacate hf1
  obtain ⟨-, hlen, hslot, -⟩ := vacate_table hf1
  rw [updateTable_self] at hlen hslot
  -- the slot that is duplicated is another one
  have hold : ((f1.table p).slot oldfd.toNat).description = some d := by
    have h0 := hopen.1
    rw [hslot _ (by omega), Table.slot_growTo]
    exact hd
  refine h1.stored (h.mem_of_occupied hopen.2.2) ?_ hfree hold ⟨(p, oldfd.toNat), hold⟩
  rw [hlen]
  exact Table.growTo_length

/-- A description that is made and deleted because `open` of its node fails (fs/vfs.cpp:381-385). -/
theorem stillborn {count : DescriptionId → ℤ}
    (hcount : ∀ e, e ≠ f.nextDescription → count e = f.refCount e) :
    ({ f with refCount := count
              closed := Function.update f.closed f.nextDescription 1
              nextDescription := f.nextDescription + 1 } : Files).CountedWith P T G :=
  ⟨h.refs.stillborn (by simp) (fun _ => Nat.lt_succ_iff_lt_or_eq) hcount, h.vacant⟩

end

/-! ## `fork` -/

theorem copySlot {x : Table} {c : List FileDescriptor × Files} {e : FileDescriptor}
    (h : (Copying f q x c).CountedWith P T G) (hq : q ∈ P)
    (he : ∀ d, e.description = some d → ((Copying f q x c).slotRefs d).Nonempty) :
    (Copying f q x (Files.copySlot c e)).CountedWith P T G := by
  have hlast : ∀ (e' : FileDescriptor) (i : ℕ),
      (({ x with fileDescriptors := c.1 ++ [e'] } : Table).slot i).description =
        if i = c.1.length then e'.description
        else (({ x with fileDescriptors := c.1 } : Table).slot i).description := by
    intro e' i
    unfold Table.slot
    simp only [List.getD_eq_getElem?_getD]
    rcases lt_trichotomy i c.1.length with hi | hi | hi
    · rw [List.getElem?_append_left hi, if_neg hi.ne]
    · rw [if_pos hi, hi, List.getElem?_concat_length]
      rfl
    · rw [if_neg hi.ne', List.getElem?_eq_none (by simp; omega), List.getElem?_eq_none (by omega)]
  have hnew : (({ x with fileDescriptors := c.1 } : Table).slot c.1.length).description = none := by
    simp [Table.slot]
  have hslot : ∀ (e' : FileDescriptor) (g : Files), Refilled (Copying f q x c)
      (Copying f q x (c.1 ++ [e'], g)) q c.1.length e'.description := by
    intro e' g o i
    by_cases ho : o = q
    · rw [ho]
      simp only [copying_self, hlast, true_and]
    · simp only [copying_of_ne _ _ _ ho, ho, false_and, if_false]
  unfold Files.copySlot
  cases hd : e.description with
  | none =>
    refine h.congr (fun o i => ?_) rfl rfl rfl
    rw [hslot ⟨none, false⟩ c.2 o i]
    split_ifs with hi
    · rw [hi.1, hi.2, copying_self, hnew]
    · rfl
  | some d =>
    have hfree : (((Copying f q x c).table q).slot c.1.length).description = none := by
      rw [copying_self, hnew]
    show (Copying f q x (c.1 ++ [(c.2.duplicate e true).1], (c.2.duplicate e true).2)).CountedWith P T G
    refine h.duplicated hq hfree (he d hd) ?_ ?_ ?_ ?_
    · have := hslot (c.2.duplicate e true).1 (c.2.duplicate e true).2
      rwa [show (c.2.duplicate e true).1.description = some d from hd] at this
    all_goals
      unfold Copying duplicate
      simp only [hd]
      rfl

/-- The forked process refers to every description of its parent once more. -/
theorem fork (h : f.CountedWith P T G) (hne : p ≠ q)
    (hq : q ∉ P) :
    (f.fork p q).CountedWith (insert q P) T G := by
  have hempty := h.vacant q hq
  have hloop : ∀ (ds : List FileDescriptor) (c : List FileDescriptor × Files),
      (∀ e ∈ ds, ∀ d, e.description = some d → ∃ i, ((f.table p).slot i).description = some d) →
      (Copying f q (f.table p) c).CountedWith (insert q P) T G →
      (Copying f q (f.table p) (ds.foldl Files.copySlot c)).CountedWith (insert q P) T G := by
    intro ds
    induction ds with
    | nil => exact fun c _ hc => hc
    | cons e ds ih =>
      intro c hmem hc
      rw [List.foldl_cons]
      refine ih _ (fun e' he' => hmem e' (List.mem_cons_of_mem _ he')) (hc.copySlot (Set.mem_insert q P) ?_)
      intro d hd
      obtain ⟨i, hi⟩ := hmem e (by simp) d hd
      refine ⟨(p, i), ?_⟩
      unfold slotRefs
      simp only [Set.mem_ofPred_eq, copying_of_ne _ _ _ hne]
      exact hi
  have hstart : (Copying f q (f.table p) ([], f)).CountedWith (insert q P) T G := by
    refine h.more.congr (fun o i => ?_) rfl rfl rfl
    by_cases ho : o = q
    · rw [ho, copying_self, hempty]
      simp [Table.slot]
    · rw [copying_of_ne _ _ _ ho]
  have hdone := hloop (f.table p).fileDescriptors ([], f) ?_ hstart
  · obtain ⟨-, -, -, htable⟩ := copySlot_foldl (f.table p).fileDescriptors ([], f)
    refine hdone.congr (fun o i => ?_) rfl rfl rfl
    unfold Files.fork Copying
    simp only [htable]
  · intro e he d hd
    obtain ⟨i, hi, heq⟩ := List.mem_iff_getElem.mp he
    refine ⟨i, ?_⟩
    unfold Table.slot
    rw [List.getD_eq_getElem?_getD, List.getElem?_eq_getElem hi, heq]
    exact hd

/-! ## `exit` -/

/-- A process that ends has no slot occupied. -/
theorem exit (h : f.CountedWith P T G) (hrun : f.exit p = .ok f') : f'.CountedWith (P \ {p}) T G := by
  have hdone : ∀ i, ((f'.table p).slot i).description = none := by
    unfold Files.exit Files.closeAll at hrun
    have hlen : (f'.table p).fileDescriptors.length = (f.table p).fileDescriptors.length ∧
        ∀ i ∈ List.range (f.table p).fileDescriptors.length, ¬(f'.table p).Occupied i := by
      refine foldlM_ok_induction (fun pre (g : Files) =>
        (g.table p).fileDescriptors.length = (f.table p).fileDescriptors.length ∧
          ∀ i ∈ pre, ¬(g.table p).Occupied i) _ [] f f' ⟨rfl, by simp⟩ ?_ hrun
      rintro pre fd g g' ⟨hlen, hpre⟩ - hstep
      split_ifs at hstep with hocc
      · obtain ⟨hocc, htable⟩ := close_cases hstep
        have hself : g'.table p = (g.table p).closed fd := by rw [htable, if_pos rfl]
        have hslot : ∀ i, (g'.table p).slot i = if i = fd then {} else (g.table p).slot i := by
          intro i
          rw [hself]
          exact Table.slot_setSlot (Table.lt_of_occupied hocc) i
        refine ⟨?_, ?_⟩
        · rw [hself]
          exact Table.setSlot_length.trans hlen
        · intro i hi
          unfold Table.Occupied
          rw [hslot]
          split_ifs with hif
          · simp
          · rcases List.mem_append.mp hi with hi | hi
            · exact hpre i hi
            · exact absurd (List.mem_singleton.mp hi) hif
      · cases hstep
        refine ⟨hlen, fun i hi => ?_⟩
        rcases List.mem_append.mp hi with hi | hi
        · exact hpre i hi
        · rw [List.mem_singleton.mp hi]
          simpa [Table.Occupied] using hocc
    intro i
    by_contra hocc
    have hlt := Table.lt_of_occupied hocc
    rw [hlen.1] at hlt
    exact hlen.2 i (List.mem_range.mpr hlt) hocc
  have hall : f'.CountedWith P T G := h.closeAll hrun
  refine ⟨hall.refs, fun q hq i => ?_⟩
  by_cases hqp : q = p
  · rw [hqp]
    exact hdone i
  · exact hall.vacant q (fun hc => hq ⟨hc, hqp⟩) i

end CountedWith

end Files

end Fishix.Fs
