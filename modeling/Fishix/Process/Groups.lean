import Fishix.Process.Waits

/-!
# Process groups

`set_parent` puts a process into the group of its new parent, also when `zombify` hands the children
of a dead process to the init process (sched/sched.cpp:199-205, 219-222). The lists of the groups
are never wrong; but an orphan leaves its group and its session, unless it was in the group of the
init process already. `OrphansStay` is that no orphan leaves.

* `groups_kept`: the lists of the groups, in every run; and what keeps the groups and sessions.
* `children_listed`: the lists of the children, in every run.
* `orphan_leaves`: a shell dies, and its job is in another group and session.
-/

namespace Fishix.ProcessTree

open Fishix.Sched (Panic orPanic assert Signal)

/-- The session of a process. -/
def Tree.sessionOf (k : Tree) (c : Pid) : Option SessionId :=
  (k.process c).group.map fun g => (k.group g).session

/-- The process `c` is in the same group and session. -/
def SameGroup (k k' : Tree) (c : Pid) : Prop :=
  (k'.process c).group = (k.process c).group ∧ k'.sessionOf c = k.sessionOf c

/-- Every process but the init process is linked in the `process_list` of its group, and in no
    other; and every one that has been forked has a group. -/
def MembersExact (s : System) : Prop :=
  ∃ members, Rings s.tree.groupLinks (fun g => g < s.tree.nextGroup) members ∧
    (∀ g c, c ∈ members g ↔
      s.Alive c ∧ c ≠ initProcess ∧ (s.tree.process c).group = some g) ∧
    ∀ c, s.Alive c → Ordinary c → ∃ g, (s.tree.process c).group = some g

/-- A step takes no process to another group or session but the one that a successful `setpgid` or
    `setsid` is about, and a child starts where its parent is. -/
def GroupsKept (s : System) (op : Op) (s' : System) : Prop :=
  (∀ c, s.Alive c → s.tree.subject op ≠ some c → SameGroup s.tree s'.tree c) ∧
    ∀ t c, op = .fork t → s'.created c = true → s.created c = false →
      (s'.tree.process c).group = (s.tree.process (s.tree.thread t).process).group ∧
        s'.tree.sessionOf c = s.tree.sessionOf (s.tree.thread t).process

/-- The children of a process that dies in the step are in the group of the init process already. -/
def OrphansStay (s : System) (op : Op) : Prop :=
  ∀ p, s.tree.dying op = some p → ∀ c, s.Alive c → Ordinary c →
    (s.tree.process c).parent = some p →
      (s.tree.process c).group = (s.tree.process initProcess).group

/-- A death regroups nobody by request. -/
theorem subject_of_dying {k : Tree} {op : Op} {p : Pid} (h : k.dying op = some p) :
    k.subject op = none := by
  unfold Tree.dying at h
  unfold Tree.subject
  cases op <;> simp_all

section Groups

variable {s s' : System} {op : Op} {children : Pid → List Pid} {members : GroupId → List Pid}
  {k k' : Tree} {c : Pid} {n : ℕ}

theorem SameGroup.of_group (hgroup : (k'.process c).group = (k.process c).group)
    (htable : k'.group = k.group) : SameGroup k k' c := by
  refine ⟨hgroup, ?_⟩
  unfold Tree.sessionOf
  rw [hgroup, htable]

theorem SameGroup.trans {k'' : Tree} (h : SameGroup k k' c) (h' : SameGroup k' k'' c) :
    SameGroup k k'' c :=
  ⟨h'.1.trans h.1, h'.2.trans h.2⟩

theorem System.Good.membersExact (hg : s.Good children members) : MembersExact s := by
  refine ⟨members, hg.agrees.family.groupRings, ?_, hg.agrees.family.group⟩
  intro g c
  rw [hg.agrees.family.member]
  constructor
  · rintro ⟨hc, ho, hgroup⟩
    exact ⟨hc, ho.1, hgroup⟩
  · rintro ⟨hc, hinit, hgroup⟩
    refine ⟨hc, ⟨hinit, ?_⟩, hgroup⟩
    -- the kernel process has no group
    rintro rfl
    rw [hg.agrees.family.kernelGroup] at hgroup
    cases hgroup

theorem Tree.beforeDeath_fields (k : Tree) (c : Pid) :
    ((k.beforeDeath op).process c).group = (k.process c).group ∧
      (k.beforeDeath op).group = k.group := by
  unfold Tree.beforeDeath
  split
  · rename_i t status
    refine ⟨?_, rfl⟩
    by_cases hc : c = (k.thread t).process
    · subst hc
      simp [Tree.updateProcess]
    · simp [Tree.updateProcess, hc]
  · exact ⟨rfl, rfl⟩

/-- Where a death leaves the living. -/
theorem Ended.group_eq {p : Pid} {cs : List Pid} {signal : Option Signal}
    (h : Ended (k.beforeDeath op) p signal cs k') :
    (k'.process c).group = (if c ∈ cs then (k.process initProcess).group
      else (k.process c).group) ∧ k'.group = k.group := by
  refine ⟨?_, ?_⟩
  · rw [h.group, (Tree.beforeDeath_fields k c).1, (Tree.beforeDeath_fields k initProcess).1]
  · rw [h.groups, (Tree.beforeDeath_fields k c).2]

/-- Everything but a death keeps the groups. -/
theorem Effect.sameGroup (hg : s.Good children members) (he : Effect s children op s')
    (hstay : OrphansStay s op) (hc : s.Alive c) (hsubject : s.tree.subject op ≠ some c) :
    SameGroup s.tree s'.tree c := by
  have hfresh : c ≠ s.tree.nextTid := by
    rintro rfl
    exact hg.agrees.fresh.1 hc.1
  cases he with
  | nothing => exact .of_group rfl rfl
  | @fork g k' _ _ _ hmoved =>
    have hgroup : k'.group = (s.tree.newborn (s.tree.thread op.thread).uid).group :=
      Still.group hmoved.toStill
    refine .of_group ?_ hgroup
    show (k'.process c).group = _
    rw [hmoved.process_of_ne hfresh]
    simp [hfresh]
  | spawn =>
    refine .of_group ?_ rfl
    by_cases hp : c = (s.tree.thread op.thread).process <;>
      simp [Tree.spawn, Tree.newThread, Tree.updateThread, Tree.updateProcess, hp]
  | execve =>
    refine .of_group ?_ rfl
    by_cases hp : c = (s.tree.thread op.thread).process <;> simp [Tree.updateProcess, hp]
  | thread =>
    refine .of_group ?_ rfl
    by_cases hp : c = (s.tree.thread op.thread).process
    · subst hp
      simp [markThread_process_self]
    · simp [markThread_process_of_ne hp]
  | @ended p k' hdying _ hended =>
    obtain ⟨hgroup, htable⟩ := hended.group_eq (c := c)
    refine .of_group ?_ htable
    show (k'.process c).group = _
    rw [hgroup]
    split_ifs with hm
    · obtain ⟨-, ho, hparent⟩ := (hg.agrees.family.child p c).mp hm
      exact (hstay p hdying c hc ho hparent).symm
    · rfl
  | stop | cont =>
    refine .of_group ?_ rfl
    by_cases hp : c = (s.tree.thread op.thread).process <;>
      simp [Tree.note, Tree.updateThread, Tree.updateProcess, hp]
  | @regrouped p g k' hsub _ hregrouped =>
    have hp : c ≠ p := by
      rintro rfl
      exact hsubject hsub
    have hgroup : (k'.process c).group = (s.tree.process c).group := by
      rw [hregrouped.process, Function.update_of_ne hp]
    refine ⟨hgroup, ?_⟩
    unfold Tree.sessionOf
    show (k'.process c).group.map _ = _
    rw [hgroup]
    -- a new group is none that a process has
    cases hown : (s.tree.process c).group with
    | none => rfl
    | some g' =>
      show some (k'.group g').session = some (s.tree.group g').session
      rw [hregrouped.group g' (hg.agrees.family.group_bound hc hown)]
  | @waited r k1 k' hmay _ hslept hconsumed =>
    obtain ⟨htable, -, hstate⟩ := Tree.mayDo_thread hmay
    have ha := hg.agrees.slept hslept (hstate ▸ op.threadState_ne)
    have hfields := ha.consumed_fields hconsumed c
    refine .of_group ?_ (hfields.2.2.2.2.2.trans hslept.group)
    rw [← hslept.process]
    exact hfields.1

theorem Effect.born {t : Tid} (he : Effect s children op s') (hop : op = .fork t)
    (hnew : s'.created c = true) (hold : s.created c = false) :
    (s'.tree.process c).group = (s.tree.process (s.tree.thread t).process).group ∧
      s'.tree.sessionOf c = s.tree.sessionOf (s.tree.thread t).process := by
  cases he with
  | @fork g k' hfork _ hgroup hmoved =>
    obtain rfl : t = op.thread := by rw [hop]; rfl
    obtain rfl : c = s.tree.nextTid := by
      by_contra hne
      have hsame : Function.update s.created s.tree.nextTid true c = true := hnew
      rw [Function.update_of_ne hne, hold] at hsame
      cases hsame
    have hself : (k'.process s.tree.nextTid).group = some g := by rw [hmoved.process_self]
    have htable : k'.group = (s.tree.newborn (s.tree.thread op.thread).uid).group :=
      Still.group hmoved.toStill
    refine ⟨hself.trans hgroup.symm, ?_⟩
    show (k'.process s.tree.nextTid).group.map _ = (s.tree.process _).group.map _
    rw [hself, hgroup, htable]
    rfl
  | _ => exact absurd (hold.symm.trans hnew) Bool.false_ne_true

/-- The groups and sessions are kept exactly when no orphan leaves its group. -/
theorem Effect.groupsKept_iff (hg : s.Good children members) (he : Effect s children op s') :
    GroupsKept s op s' ↔ OrphansStay s op := by
  constructor
  · intro hkept p hdying c hc ho hparent
    obtain ⟨-, k', hended, rfl⟩ := he.ended_of_dying hdying
    have hsubject : s.tree.subject op ≠ some c := by
      rw [subject_of_dying hdying]
      simp
    have hsame := (hkept.1 c hc hsubject).1
    have hm : c ∈ children p := (hg.agrees.family.child p c).mpr ⟨hc, ho, hparent⟩
    rw [← hsame, hended.group_eq.1, if_pos hm]
  · intro hstay
    exact ⟨fun c hc hsubject => he.sameGroup hg hstay hc hsubject,
      fun t c hop hnew hold => he.born hop hnew hold⟩

/-- A process that is still there was there before. -/
theorem Effect.alive (he : Effect s children op s') (hc : s.created c = true)
    (halive : s'.Alive c) : s.Alive c := by
  refine ⟨hc, ?_⟩
  cases he with
  | waited =>
    have hdeleted := halive.2
    simp only [System.waited, Bool.or_eq_false_iff] at hdeleted
    exact hdeleted.1
  | _ => exact halive.2

theorem Effect.created (he : Effect s children op s') (hc : s.created c = true) :
    s'.created c = true := by
  cases he with
  | fork =>
    show Function.update s.created s.tree.nextTid true c = true
    by_cases h : c = s.tree.nextTid <;> simp [h, hc]
  | _ => exact hc

theorem created_run {Ok : System → Op → Prop} (hg : ∃ children members, s.Good children members)
    (h : Run System.step Ok s s') (hc : s.created c = true) :
    s'.created c = true ∧ ∃ children members, s'.Good children members := by
  apply h.invariant (P := fun s => s.created c = true ∧ ∃ children members,
    s.Good children members)
  · rintro s1 o s2 ⟨hc, children, members, hg⟩ - hstep
    obtain ⟨hgood, he⟩ := step_effect hg hstep
    exact ⟨he.created hc, hgood⟩
  · exact ⟨hc, hg⟩

theorem sameGroup_run (hg : ∃ children members, s.Good children members)
    (h : Run System.step (fun s op => OrphansStay s op ∧ s.tree.subject op ≠ some c) s s')
    (hc : s.created c = true) (halive : s'.Alive c) : SameGroup s.tree s'.tree c := by
  induction h with
  | start => exact ⟨rfl, rfl⟩
  | @step s1 s2 o run ok next ih =>
    obtain ⟨hcreated, children, members, hgood⟩ := created_run hg run hc
    obtain ⟨-, he⟩ := step_effect hgood next
    have hbefore := he.alive hcreated halive
    exact (ih hbefore).trans (he.sameGroup hgood ok.1 hbefore ok.2)

/-- **Main theorem.** In every system that is reached, every process but the init process is in the
    list of its group and in no other; a step keeps all groups and sessions that it is not about
    exactly when no orphan leaves; and so in a run of such steps. -/
theorem groups_kept (h : Run System.step (fun _ _ => True) (System.booted n) s) :
    MembersExact s ∧
      (∀ op s', s.step op = .ok s' → (GroupsKept s op s' ↔ OrphansStay s op)) ∧
      ∀ c s', Run System.step (fun s op => OrphansStay s op ∧ s.tree.subject op ≠ some c) s s' →
        s.Alive c → s'.Alive c → SameGroup s.tree s'.tree c := by
  obtain ⟨children, members, hg⟩ := good_run h
  refine ⟨hg.membersExact, ?_, ?_⟩
  · intro op s' hstep
    exact (step_effect hg hstep).2.groupsKept_iff hg
  · intro c s' hrun hc halive
    exact sameGroup_run ⟨children, members, hg⟩ hrun hc.1 halive

/-- In every system that is reached, the walk over the children of a process ends, and meets the
    living processes whose parent it is, each of them once. -/
theorem children_listed (h : Run System.step (fun _ _ => True) (System.booted n) s) {p : Pid}
    (hp : s.created p = true) : ∃ cs, s.tree.childrenList p = .ok cs ∧ cs.Nodup ∧
      ∀ c, c ∈ cs ↔ s.Alive c ∧ Ordinary c ∧ (s.tree.process c).parent = some p := by
  obtain ⟨children, members, hg⟩ := good_run h
  have hfamily := hg.agrees.family
  exact ⟨children p, hg.agrees.childrenList hp, hfamily.childRings.nodup p, hfamily.child p⟩

/-- What the examples below are about. -/
structure Seen where
  group : Option GroupId
  session : Option SessionId
  alive : Bool
  subject : Option Pid
  dying : Option Pid
  deriving DecidableEq

/-- The process `c` before the step `op`. -/
def System.seen (s : System) (op : Op) (c : Pid) : Seen where
  group := (s.tree.process c).group
  session := s.tree.sessionOf c
  alive := s.created c && !s.deleted c
  subject := s.tree.subject op
  dying := s.tree.dying op

/-- A system and the next one. -/
def System.runThen (s : System) (ops : List Op) (op : Op) : Except Panic (System × System) := do
  let s ← ops.foldlM System.step s
  let s' ← s.step op
  return (s, s')

theorem System.runThen_ok {ops : List Op} {op : Op} {x : System × System}
    (h : s.runThen ops op = .ok x) : Run System.step (fun _ _ => True) s x.1 ∧
      x.1.step op = .ok x.2 := by
  unfold System.runThen at h
  obtain ⟨s1, hrun, h⟩ := bind_ok h
  obtain ⟨s2, hstep, rfl⟩ := bind_pure_ok h
  exact ⟨Run.start.foldlM (fun _ _ _ => trivial) hrun, hstep⟩

/-- A shell that leads a session forks a job. -/
def shellOps : List Op := [.fork 1, .setsid 4, .fork 4]

theorem children_listed_job : ∃ (s : System) (cs : List Pid),
    s.tree.childrenList 4 = .ok cs ∧ cs.Nodup ∧
    ∀ c, c ∈ cs ↔ s.Alive c ∧ Ordinary c ∧ (s.tree.process c).parent = some 4 := by
  obtain ⟨s, hs, hc⟩ := exists_ok_of_map (show (shellOps.foldlM System.step (System.booted 0)).map
    (·.created 4) = .ok true by decide +kernel)
  exact ⟨s, children_listed (Run.start.foldlM (fun _ _ _ => trivial) hs) hc⟩

/-- The job gets a group of its own, and the shell stays in its group. -/
theorem groups_kept_setpgid : ∃ s s', Run System.step (fun _ _ => True) (System.booted 0) s ∧
    s.step (.setpgid 4 5 0) = .ok s' ∧ (s'.tree.process 5).group = some 2 ∧ MembersExact s ∧
      SameGroup s.tree s'.tree 4 := by
  obtain ⟨⟨s, s'⟩, hs, hv⟩ := exists_ok_of_map (show ((System.booted 0).runThen shellOps
      (.setpgid 4 5 0)).map (fun x => (x.1.seen (.setpgid 4 5 0) 4, (x.2.tree.process 5).group)) =
    .ok (⟨some 1, some 1, true, some 5, none⟩, some 2) by decide +kernel)
  obtain ⟨hrun, hstep⟩ := System.runThen_ok hs
  obtain ⟨hseen, hgroup⟩ := Prod.mk.inj hv
  obtain ⟨-, -, halive, hsubject, hdying⟩ := Seen.mk.inj hseen
  obtain ⟨hmembers, hkept, -⟩ := groups_kept hrun
  have hstay : OrphansStay s (.setpgid 4 5 0) := by
    intro p hp
    rw [hdying] at hp
    cases hp
  have hsame := ((hkept _ s' hstep).mpr hstay).1 4 (by simpa [System.Alive] using halive)
    (by simp [hsubject])
  exact ⟨s, s', hrun, hstep, hgroup, hmembers, hsame⟩

/-- The shell exits, and its job is in the group and the session of the init process. -/
theorem orphan_leaves : ∃ s s', Run System.step (fun _ _ => True) (System.booted 0) s ∧
    s.step (.exitGroup 4 0) = .ok s' ∧ ¬GroupsKept s (.exitGroup 4 0) s' := by
  obtain ⟨⟨s, s'⟩, hs, hv⟩ := exists_ok_of_map (show ((System.booted 0).runThen shellOps
      (.exitGroup 4 0)).map (fun x => (x.1.seen (.exitGroup 4 0) 5, (x.2.tree.process 5).group)) =
    .ok (⟨some 1, some 1, true, none, some 4⟩, some 0) by decide +kernel)
  obtain ⟨hrun, hstep⟩ := System.runThen_ok hs
  obtain ⟨hseen, hgroup'⟩ := Prod.mk.inj hv
  obtain ⟨hgroup, -, halive, hsubject, -⟩ := Seen.mk.inj hseen
  refine ⟨s, s', hrun, hstep, ?_⟩
  intro hkept
  have hsame := (hkept.1 5 (by simpa [System.Alive] using halive) (by simp [hsubject])).1
  simp only at hgroup hgroup'
  rw [hgroup, hgroup'] at hsame
  cases hsame

end Groups

end Fishix.ProcessTree
