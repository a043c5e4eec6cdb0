import Fishix.Process.System
import Fishix.Sched.Wake

/-!
# Parents, children and groups

`Family`: the lists of children and of group members agree with the `parent` and `group` pointers of
the processes. Every function that changes one of them keeps the agreement.

* `Family.addProcess`, `Family.setParent`, `Family.adoptLoop`: a process is moved.
* `Family.fork`: a child is born; `Family.destroyProcess`: a process is deleted.
-/

namespace Fishix.ProcessTree

open Fishix.Sched (Panic orPanic assert Signal SIGCHLD SIGCONT orPanic_ok_iff assert_ok_iff)
open Function (update update_self update_of_ne)

/-- A process that has been forked. -/
def Ordinary (p : Pid) : Prop := p ≠ initProcess ∧ p ≠ kernelProcess

instance (p : Pid) : Decidable (Ordinary p) := inferInstanceAs (Decidable (_ ∧ _))

/-- The lists agree with the pointers. -/
structure Family (k : Tree) (created alive : Pid → Prop) (children : Pid → List Pid)
    (members : GroupId → List Pid) : Prop where
  childRings : Rings k.childLinks created children
  groupRings : Rings k.groupLinks (fun g => g < k.nextGroup) members
  child : ∀ p c, c ∈ children p ↔ alive c ∧ Ordinary c ∧ (k.process c).parent = some p
  member : ∀ g c, c ∈ members g ↔ alive c ∧ Ordinary c ∧ (k.process c).group = some g
  parent : ∀ c, alive c → Ordinary c → ∃ p, (k.process c).parent = some p
  group : ∀ c, alive c → Ordinary c → ∃ g, (k.process c).group = some g
  initGroup : ∃ g < k.nextGroup, (k.process initProcess).group = some g
  kernelGroup : (k.process kernelProcess).group = none
  created_of_alive : ∀ c, alive c → created c
  initAlive : alive initProcess

/-- Everything but the processes and the links of the lists is the same. -/
structure Still (k k' : Tree) : Prop where
  thread : k'.thread = k.thread
  table : k'.table = k.table
  nextTid : k'.nextTid = k.nextTid
  group : k'.group = k.group
  nextGroup : k'.nextGroup = k.nextGroup
  session : k'.session = k.session
  nextSession : k'.nextSession = k.nextSession
  waiting : k'.waiting = k.waiting

theorem Still.refl (k : Tree) : Still k k := ⟨rfl, rfl, rfl, rfl, rfl, rfl, rfl, rfl⟩

theorem Still.trans {k k' k'' : Tree} (h : Still k k') (h' : Still k' k'') : Still k k'' :=
  ⟨h'.thread.trans h.thread, h'.table.trans h.table, h'.nextTid.trans h.nextTid,
    h'.group.trans h.group, h'.nextGroup.trans h.nextGroup, h'.session.trans h.session,
    h'.nextSession.trans h.nextSession, h'.waiting.trans h.waiting⟩

/-- The process `c` is changed by `f`. -/
structure Moved (k : Tree) (c : Pid) (f : Process → Process) (k' : Tree) : Prop
    extends Still k k' where
  process : k'.process = update k.process c (f (k.process c))

theorem Moved.process_of_ne {k k' : Tree} {c d : Pid} {f : Process → Process} (h : Moved k c f k')
    (hd : d ≠ c) : k'.process d = k.process d := by
  rw [h.process, update_of_ne hd]

theorem Moved.process_self {k k' : Tree} {c : Pid} {f : Process → Process} (h : Moved k c f k') :
    k'.process c = f (k.process c) := by
  rw [h.process, update_self]

/-- A node that can be removed is linked. -/
theorem linked_of_remove {α : Type} [DecidableEq α] {l l' : Links α} {a : α}
    (h : l.remove a = some l') : ¬((l a).next = none ∨ (l a).prev = none) := by
  unfold Links.remove at h
  cases hn : (l a).next with
  | none => simp [hn] at h
  | some n =>
    cases hp : (l a).prev with
    | none => simp [hn, hp] at h
    | some p => simp

section Family

variable {k k' : Tree} {created alive : Pid → Prop} {children : Pid → List Pid}
  {members : GroupId → List Pid} {c p q : Pid} {g : GroupId}

section

variable (hf : Family k created alive children members)

include hf

theorem Family.group_lt (hc : alive c) (ho : Ordinary c) (hg : (k.process c).group = some g) :
    g < k.nextGroup :=
  hf.groupRings.on_of_mem ((hf.member g c).mpr ⟨hc, ho, hg⟩)

/-- A process with a list of children that agrees is kept by what changes neither. -/
theorem Family.congr (hchild : k'.childLinks = k.childLinks) (hgroup : k'.groupLinks = k.groupLinks)
    (hnext : k'.nextGroup = k.nextGroup)
    (hparent : ∀ c, (k'.process c).parent = (k.process c).parent)
    (hmember : ∀ c, (k'.process c).group = (k.process c).group) :
    Family k' created alive children members where
  childRings := hchild ▸ hf.childRings
  groupRings := by
    rw [hgroup, hnext]
    exact hf.groupRings
  child := fun p c => by rw [hf.child, hparent]
  member := fun g c => by rw [hf.member, hmember]
  parent := fun c hc ho => by
    rw [hparent]
    exact hf.parent c hc ho
  group := fun c hc ho => by
    rw [hmember]
    exact hf.group c hc ho
  initGroup := by
    rw [hnext, hmember]
    exact hf.initGroup
  kernelGroup := by
    rw [hmember]
    exact hf.kernelGroup
  created_of_alive := hf.created_of_alive
  initAlive := hf.initAlive

theorem Family.addProcess (hc : alive c) (ho : Ordinary c) (hg : g < k.nextGroup)
    (h : k.addProcess g c = .ok k') :
    (∃ members', Family k' created alive children members') ∧
      Moved k c (fun x => { x with group := some g }) k' ∧ k'.childLinks = k.childLinks := by
  obtain ⟨g0, hg0⟩ := hf.group c hc ho
  have hmem := (hf.member g0 c).mpr ⟨hc, ho, hg0⟩
  obtain ⟨l1, l2, members', hremove, hadd, hrings, hiff, -⟩ := hf.groupRings.move hmem hg
  unfold Tree.addProcess at h
  obtain ⟨l1', h1, h⟩ := bind_ok h
  unfold Tree.leaveGroup at h1
  simp only [hg0] at h1
  obtain ⟨l2', h2, h⟩ := bind_ok h
  obtain rfl : l1 = l1' := Option.some.inj (hremove.symm.trans (orPanic_ok_iff.mp h1))
  obtain rfl : l2 = l2' := Option.some.inj (hadd.symm.trans (orPanic_ok_iff.mp h2))
  cases h
  have hmoved : Moved k c (fun x => { x with group := some g })
      (({ k with groupLinks := l2 } : Tree).updateProcess c fun x => { x with group := some g }) :=
    ⟨⟨rfl, rfl, rfl, rfl, rfl, rfl, rfl, rfl⟩, rfl⟩
  refine ⟨⟨members', ?_⟩, hmoved, rfl⟩
  have hself := hmoved.process_self
  refine ⟨hf.childRings, hrings, ?_, ?_, ?_, ?_, ?_, ?_, hf.created_of_alive, hf.initAlive⟩
  · intro p d
    by_cases hd : d = c
    · subst hd
      rw [hf.child, hself]
    · rw [hf.child, hmoved.process_of_ne hd]
  · intro h d
    rw [hiff]
    by_cases hd : d = c
    · subst hd
      rw [hself]
      constructor
      · rintro (⟨hne, -⟩ | ⟨-, rfl⟩)
        · exact absurd rfl hne
        · exact ⟨hc, ho, rfl⟩
      · rintro ⟨-, -, hh⟩
        exact .inr ⟨rfl, (Option.some.inj hh).symm⟩
    · rw [hf.member, hmoved.process_of_ne hd]
      simp [hd]
  · intro d hd hod
    by_cases hdc : d = c
    · subst hdc
      rw [hself]
      exact hf.parent d hd hod
    · rw [hmoved.process_of_ne hdc]
      exact hf.parent d hd hod
  · intro d hd hod
    by_cases hdc : d = c
    · subst hdc
      exact ⟨g, by rw [hself]⟩
    · rw [hmoved.process_of_ne hdc]
      exact hf.group d hd hod
  · rw [hmoved.process_of_ne ho.1.symm]
    exact hf.initGroup
  · rw [hmoved.process_of_ne ho.2.symm]
    exact hf.kernelGroup

theorem Family.group_bound (hc : alive c) (hg : (k.process c).group = some g) :
    g < k.nextGroup := by
  by_cases hi : c = initProcess
  · subst hi
    obtain ⟨g', hlt, hg'⟩ := hf.initGroup
    rw [hg] at hg'
    cases hg'
    exact hlt
  · by_cases hk : c = kernelProcess
    · subst hk
      rw [hf.kernelGroup] at hg
      cases hg
    · exact hf.group_lt hc ⟨hi, hk⟩ hg

theorem Family.moveChild {l2 : Links (ListNode Pid Pid)} {children' : Pid → List Pid} (hc : alive c)
    (ho : Ordinary c) (hrings : Rings l2 created children')
    (hiff : ∀ p d, d ∈ children' p ↔ d ≠ c ∧ d ∈ children p ∨ d = c ∧ p = q)
    (hk' : k' = { k.updateProcess c fun x => { x with parent := some q } with childLinks := l2 }) :
    Family k' created alive children' members := by
  have hself : k'.process c = { k.process c with parent := some q } := by
    rw [hk']
    exact update_self c _ _
  have hother : ∀ d, d ≠ c → k'.process d = k.process d := by
    intro d hd
    rw [hk']
    exact update_of_ne hd _ _
  have hgroup : ∀ d, (k'.process d).group = (k.process d).group := by
    intro d
    by_cases hd : d = c
    · rw [hd, hself]
    · rw [hother d hd]
  have hnext : k'.nextGroup = k.nextGroup := by
    rw [hk']
    rfl
  refine ⟨?_, ?_, ?_, ?_, ?_, ?_, ?_, ?_, hf.created_of_alive, hf.initAlive⟩
  · rw [hk']
    exact hrings
  · rw [hnext, hk']
    exact hf.groupRings
  · intro p d
    rw [hiff]
    by_cases hd : d = c
    · subst hd
      rw [hself]
      constructor
      · rintro (⟨hne, -⟩ | ⟨-, rfl⟩)
        · exact absurd rfl hne
        · exact ⟨hc, ho, rfl⟩
      · rintro ⟨-, -, hp⟩
        exact .inr ⟨rfl, (Option.some.inj hp).symm⟩
    · rw [hf.child, hother d hd]
      simp [hd]
  · intro g d
    rw [hf.member, hgroup]
  · intro d hd hod
    by_cases hdc : d = c
    · exact ⟨q, by rw [hdc, hself]⟩
    · rw [hother d hdc]
      exact hf.parent d hd hod
  · intro d hd hod
    rw [hgroup]
    exact hf.group d hd hod
  · rw [hnext, hgroup]
    exact hf.initGroup
  · rw [hgroup]
    exact hf.kernelGroup

theorem Family.setParent (hc : alive c) (ho : Ordinary c) (hq : alive q)
    (h : k.setParent c q = .ok k') :
    ∃ g children' members', (k.process q).group = some g ∧
      Family k' created alive children' members' ∧
      Moved k c (fun x => { x with parent := some q, group := some g }) k' ∧
      ∀ p, (k.process c).parent = some p → p ≠ q → children' p = (children p).erase c := by
  obtain ⟨p0, hp0⟩ := hf.parent c hc ho
  have hmem := (hf.child p0 c).mpr ⟨hc, ho, hp0⟩
  obtain ⟨l1, l2, children', hremove, hadd, hrings, hiff, herase⟩ :=
    hf.childRings.move hmem (hf.created_of_alive q hq)
  unfold Tree.setParent at h
  have hlinks : (k.updateProcess c fun x => { x with parent := some q }).childLinks = k.childLinks :=
    rfl
  obtain ⟨l1', h1, h⟩ := bind_ok h
  unfold Tree.leaveSiblings at h1
  simp only [hlinks, if_neg (linked_of_remove hremove)] at h1
  obtain ⟨l2', h2, h⟩ := bind_ok h
  obtain rfl : l1 = l1' := Option.some.inj (hremove.symm.trans (orPanic_ok_iff.mp h1))
  obtain rfl : l2 = l2' := Option.some.inj (hadd.symm.trans (orPanic_ok_iff.mp h2))
  obtain ⟨g, hg, h⟩ := bind_ok h
  have hfamily := hf.moveChild (q := q) hc ho hrings hiff rfl
  have hgroup : (k.process q).group = some g := by
    have hg := orPanic_ok_iff.mp hg
    by_cases hqc : q = c
    · subst hqc
      simpa [Tree.updateProcess] using hg
    · simpa [Tree.updateProcess, hqc] using hg
  obtain ⟨⟨members', hfamily'⟩, hmoved, -⟩ :=
    hfamily.addProcess hc ho (hf.group_bound hq hgroup) h
  refine ⟨g, children', members', hgroup, hfamily', ?_, ?_⟩
  · refine ⟨⟨hmoved.thread, hmoved.table, hmoved.nextTid, hmoved.group, hmoved.nextGroup,
      hmoved.session, hmoved.nextSession, hmoved.waiting⟩, ?_⟩
    rw [hmoved.process]
    simp [Tree.updateProcess]
  · intro p hp hne
    obtain rfl : p0 = p := Option.some.inj (hp0.symm.trans hp)
    exact herase hne

end

/-- The init process has taken over the processes `cs`. -/
structure Adopted (k : Tree) (cs : List Pid) (k' : Tree) : Prop extends Still k k' where
  mem : ∀ d, d ∈ cs → k'.process d =
    { k.process d with parent := some initProcess, group := (k.process initProcess).group }
  notMem : ∀ d, d ∉ cs → k'.process d = k.process d

/-- The walk over the children of a dead process. -/
theorem Family.adoptLoop (hp : p ≠ initProcess) {cs : List Pid} :
    ∀ {turns : ℕ} {k k' : Tree} {children : Pid → List Pid} {members : GroupId → List Pid}
      {next : ListNode Pid Pid}, Family k created alive children members → children p = cs →
      (∀ c rest, cs = c :: rest → next = firstNode p rest) →
      Tree.adoptLoop p turns k (firstNode p cs) next = .ok k' →
      ∃ children' members', Family k' created alive children' members' ∧ children' p = [] ∧
        Adopted k cs k' := by
  induction cs with
  | nil =>
    intro turns k k' children members next hf hcs _ h
    cases turns with
    | zero => cases h
    | succ turns =>
      simp only [Tree.adoptLoop, firstNode, if_true] at h
      cases h
      exact ⟨children, members, hf, hcs, ⟨.refl k, fun d hd => absurd hd List.not_mem_nil,
        fun _ _ => rfl⟩⟩
  | cons c rest ih =>
    intro turns k k' children members next hf hcs hnext h
    cases turns with
    | zero => cases h
    | succ turns =>
      have hmem : c ∈ children p := by
        rw [hcs]
        exact List.mem_cons_self
      obtain ⟨hc, ho, hparent⟩ := (hf.child p c).mp hmem
      obtain rfl := hnext c rest rfl
      simp only [Tree.adoptLoop, firstNode] at h
      obtain ⟨k1, h1, h⟩ := bind_ok h
      obtain ⟨next', hnext', h⟩ := bind_ok h
      obtain ⟨g, children1, members1, hg, hf1, hmoved, herase⟩ := hf.setParent hc ho hf.initAlive h1
      have hcs1 : children1 p = rest := by
        rw [herase p hparent hp, hcs, List.erase_cons_head]
      have hnd : c ∉ rest := by
        have hnd := hf.childRings.nodup p
        rw [hcs] at hnd
        exact (List.nodup_cons.mp hnd).1
      -- the saved pointer goes on along the rest of the list
      have hsaved : ∀ d ds, rest = d :: ds → next' = firstNode p ds := by
        intro d ds hrest
        have hring := hf1.childRings.ring p (hf.childRings.on_of_mem hmem)
        rw [hcs1, hrest] at hring
        have hd : (k1.childLinks (.link d)).next = some next' := by
          rw [hrest] at hnext'
          exact orPanic_ok_iff.mp hnext'
        have hlink : (k1.childLinks (.link d)).next = some (firstNode p ds) :=
          @next_link _ _ _ p d [] ds hring
        exact Option.some.inj (hd.symm.trans hlink)
      obtain ⟨children', members', hf', hnil, hadopted⟩ := ih hf1 hcs1 hsaved h
      refine ⟨children', members', hf', hnil, hmoved.toStill.trans hadopted.toStill, ?_, ?_⟩
      · intro d hd
        by_cases hdc : d = c
        · subst hdc
          rw [hadopted.notMem d hnd, hmoved.process_self, hg]
        · have hrest := (List.mem_cons.mp hd).resolve_left hdc
          rw [hadopted.mem d hrest, hmoved.process_of_ne hdc, hmoved.process_of_ne ho.1.symm]
      · intro d hd
        rw [List.mem_cons, not_or] at hd
        rw [hadopted.notMem d hd.2, hmoved.process_of_ne hd.1]

section

variable (hf : Family k created alive children members)

include hf

theorem Family.markDead (terminateSignal : Option Signal) :
    Family (k.markDead p terminateSignal) created alive children members := by
  have hfields : ∀ c, ((k.markDead p terminateSignal).process c).parent = (k.process c).parent ∧
      ((k.markDead p terminateSignal).process c).group = (k.process c).group := by
    intro c
    by_cases hc : c = p
    · subst hc
      cases terminateSignal <;> simp [Tree.markDead, Tree.updateProcess]
    · simp [Tree.markDead, Tree.updateProcess, hc]
  exact hf.congr rfl rfl rfl (fun c => (hfields c).1) fun c => (hfields c).2

theorem Family.zombify {terminateSignal : Option Signal} (hp : created p)
    (h : k.zombify p terminateSignal = .ok k') :
    p ≠ initProcess ∧ ∃ children' members', Family k' created alive children' members' ∧
      children' p = [] ∧ Adopted (k.markDead p terminateSignal) (children p) k' := by
  unfold Tree.zombify at h
  split_ifs at h with hinit
  refine ⟨hinit, ?_⟩
  have hf' := hf.markDead (p := p) terminateSignal
  obtain ⟨pos, hpos, h⟩ := bind_ok h
  obtain ⟨next, hnext, h⟩ := bind_ok h
  obtain ⟨k1, hloop, h⟩ := bind_ok h
  obtain ⟨parent, -, h⟩ := bind_ok h
  obtain ⟨_, -, rfl⟩ := bind_pure_ok h
  have hring := hf'.childRings.ring p hp
  obtain rfl : firstNode p (children p) = pos :=
    Option.some.inj ((next_head hring).symm.trans (orPanic_ok_iff.mp hpos))
  refine hf'.adoptLoop hinit rfl ?_ hloop
  intro c rest hcs
  have hsecond : ((k.markDead p terminateSignal).childLinks (.link c)).next = some next := by
    rw [hcs] at hnext
    exact orPanic_ok_iff.mp hnext
  rw [hcs] at hring
  exact Option.some.inj (hsecond.symm.trans (@next_link _ _ _ p c [] rest hring))

theorem Family.setParent_new (hc : ¬alive c) (hcc : created c) (ho : Ordinary c)
    (hgroup : (k.process c).group = none) (hq : alive q) (h : k.setParent c q = .ok k') :
    ∃ g children' members', (k.process q).group = some g ∧
      Family k' created (fun d => d = c ∨ alive d) children' members' ∧
      Moved k c (fun x => { x with parent := some q, group := some g }) k' := by
  have hqc : q ≠ c := by
    rintro rfl
    exact hc hq
  have hnochild : ∀ p, c ∉ children p := fun p hm => hc ((hf.child p c).mp hm).1
  have hnomember : ∀ g, c ∉ members g := fun g hm => hc ((hf.member g c).mp hm).1
  have hnull := hf.childRings.unlinked c hnochild
  obtain ⟨l1, hl1, hrings⟩ := hf.childRings.append (hf.created_of_alive q hq) hnochild
  unfold Tree.setParent at h
  have hlinks : (k.updateProcess c fun x => { x with parent := some q }).childLinks = k.childLinks :=
    rfl
  obtain ⟨_, hskip, h⟩ := bind_ok h
  unfold Tree.leaveSiblings at hskip
  simp only [hlinks, hnull, true_or, if_true] at hskip
  cases hskip
  obtain ⟨l1', h1, h⟩ := bind_ok h
  obtain rfl : l1 = l1' := Option.some.inj (hl1.symm.trans (orPanic_ok_iff.mp h1))
  obtain ⟨g, hg, h⟩ := bind_ok h
  have hgq : (k.process q).group = some g := by
    have hg := orPanic_ok_iff.mp hg
    simpa [Tree.updateProcess, hqc] using hg
  obtain ⟨l2, hl2, hgrings⟩ := hf.groupRings.append (hf.group_bound hq hgq) hnomember
  unfold Tree.addProcess at h
  have hnone : ((k.updateProcess c fun x => { x with parent := some q }).process c).group = none := by
    simpa [Tree.updateProcess] using hgroup
  obtain ⟨_, hskip, h⟩ := bind_ok h
  unfold Tree.leaveGroup at hskip
  simp only [hnone] at hskip
  cases hskip
  obtain ⟨l2', h2, h⟩ := bind_ok h
  obtain rfl : l2 = l2' := Option.some.inj (hl2.symm.trans (orPanic_ok_iff.mp h2))
  have hk' := Except.ok.inj h
  have hself : k'.process c = { k.process c with parent := some q, group := some g } := by
    rw [← hk']
    simp [Tree.updateProcess]
  have hother : ∀ d, d ≠ c → k'.process d = k.process d := by
    intro d hd
    rw [← hk']
    simp [Tree.updateProcess, hd]
  refine ⟨g, update children q (children q ++ [c]),
    update members g (members g ++ [c]), hgq, ⟨?_, ?_, ?_, ?_, ?_, ?_, ?_, ?_, ?_,
      .inr hf.initAlive⟩, ⟨?_, ?_⟩⟩
  · rw [← hk']
    exact hrings
  · rw [← hk']
    exact hgrings
  · intro p d
    by_cases hd : d = c
    · subst hd
      rw [hself]
      by_cases hp : p = q
      · subst hp
        simp [ho]
      · rw [update_of_ne hp]
        constructor
        · exact fun hm => absurd hm (hnochild p)
        · rintro ⟨-, -, hq'⟩
          exact absurd (Option.some.inj hq').symm hp
    · rw [hother d hd]
      by_cases hp : p = q
      · subst hp
        simp [hf.child, hd]
      · rw [update_of_ne hp]
        simp [hf.child, hd]
  · intro g' d
    by_cases hd : d = c
    · subst hd
      rw [hself]
      by_cases hg' : g' = g
      · subst hg'
        simp [ho]
      · rw [update_of_ne hg']
        constructor
        · exact fun hm => absurd hm (hnomember g')
        · rintro ⟨-, -, hq'⟩
          exact absurd (Option.some.inj hq').symm hg'
    · rw [hother d hd]
      by_cases hg' : g' = g
      · subst hg'
        simp [hf.member, hd]
      · rw [update_of_ne hg']
        simp [hf.member, hd]
  · intro d hd hod
    by_cases hdc : d = c
    · exact ⟨q, by rw [hdc, hself]⟩
    · rw [hother d hdc]
      exact hf.parent d (hd.resolve_left hdc) hod
  · intro d hd hod
    by_cases hdc : d = c
    · exact ⟨g, by rw [hdc, hself]⟩
    · rw [hother d hdc]
      exact hf.group d (hd.resolve_left hdc) hod
  · rw [hother _ ho.1.symm, ← hk']
    exact hf.initGroup
  · rw [hother _ ho.2.symm]
    exact hf.kernelGroup
  · intro d hd
    rcases hd with rfl | hd
    · exact hcc
    · exact hf.created_of_alive d hd
  · rw [← hk']
    exact ⟨rfl, rfl, rfl, rfl, rfl, rfl, rfl, rfl⟩
  · rw [← hk']
    simp [Tree.updateProcess]

end

/-- The new process before it has a parent. -/
def Tree.newborn (k : Tree) (uid : ℕ) : Tree :=
  k.newProcess.2.newThread k.nextTid k.nextTid uid

section Newborn

variable {k : Tree} {uid : ℕ}

@[simp] theorem Tree.newborn_process_self : (k.newborn uid).process k.nextTid =
    { threadList := [k.nextTid], numLivingThreads := 1 } := by
  simp [newborn, newThread, newProcess, updateThread, updateProcess]

@[simp] theorem Tree.newborn_process {d : Pid} (hd : d ≠ k.nextTid) :
    (k.newborn uid).process d = k.process d := by
  simp [newborn, newThread, newProcess, updateThread, updateProcess, hd]

@[simp] theorem Tree.newborn_thread : (k.newborn uid).thread =
    update k.thread k.nextTid { process := k.nextTid, state := .ready, uid } := rfl

@[simp] theorem Tree.newborn_table :
    (k.newborn uid).table = update k.table k.nextTid true := rfl

end Newborn

/-- A child is born into the children and the group of its parent. -/
theorem Family.fork {old : Tid} (hf : Family k created alive children members)
    (hnew : ¬created k.nextTid) (ho : Ordinary k.nextTid) (hold : old ≠ k.nextTid)
    (hq : alive (k.thread old).process) (h : k.fork old = .ok k') :
    ∃ g children' members', (k.process (k.thread old).process).group = some g ∧
      Family k' (fun c => c = k.nextTid ∨ created c) (fun c => c = k.nextTid ∨ alive c)
        children' members' ∧
      Moved (k.newborn (k.thread old).uid) k.nextTid
        (fun x => { x with parent := some (k.thread old).process, group := some g }) k' := by
  have hdead : ¬alive k.nextTid := fun ha => hnew (hf.created_of_alive _ ha)
  have hne : (k.thread old).process ≠ k.nextTid := by
    intro heq
    rw [heq] at hq
    exact hdead hq
  unfold Tree.fork at h
  have hparent : ((k.newborn (k.thread old).uid).thread old).process = (k.thread old).process := by
    simp [hold]
  replace h : (k.newborn (k.thread old).uid).setParent k.nextTid
      ((k.newborn (k.thread old).uid).thread old).process = .ok k' := h
  rw [hparent] at h
  have hother : ∀ d, d ≠ k.nextTid →
      (k.newborn (k.thread old).uid).process d = k.process d := by
    intro d hd
    simp [hd]
  have hborn : Family (k.newborn (k.thread old).uid) (fun c => c = k.nextTid ∨ created c) alive
      children members := by
    refine ⟨hf.childRings.init hnew, hf.groupRings, ?_, ?_, ?_, ?_, ?_, ?_, ?_, hf.initAlive⟩
    · intro p d
      rw [hf.child]
      by_cases hd : d = k.nextTid
      · subst hd
        simp [hdead]
      · rw [hother d hd]
    · intro g d
      rw [hf.member]
      by_cases hd : d = k.nextTid
      · subst hd
        simp [hdead]
      · rw [hother d hd]
    · intro d hd hod
      rw [hother d (by rintro rfl; exact hdead hd)]
      exact hf.parent d hd hod
    · intro d hd hod
      rw [hother d (by rintro rfl; exact hdead hd)]
      exact hf.group d hd hod
    · rw [hother _ ho.1.symm]
      exact hf.initGroup
    · rw [hother _ ho.2.symm]
      exact hf.kernelGroup
    · exact fun d hd => .inr (hf.created_of_alive d hd)
  have hfresh : ((k.newborn (k.thread old).uid).process k.nextTid).group = none := by
    simp
  obtain ⟨g, children', members', hg, hf', hmoved⟩ :=
    hborn.setParent_new hdead (.inl rfl) ho hfresh hq h
  rw [hother _ hne] at hg
  exact ⟨g, children', members', hg, hf', hmoved⟩

end Family

end Fishix.ProcessTree
