import Fishix.Process.Invariant

/-!
# What a step of the process tree does

`Effect` lists all that a step can do to a good system.

* `step_effect`: every step is one of the effects and leaves a good system.
* `good_run`: every system that a run from the boot reaches is good.
-/

namespace Fishix.ProcessTree

open Fishix.Sched (Panic orPanic assert Signal SIGCHLD SIGCONT orPanic_ok_iff assert_ok_iff)
open Function (update update_of_ne)

section Birth

variable {k k' : Tree} {created alive created' alive' : Pid → Prop} {children : Pid → List Pid}
  {members : GroupId → List Pid} {p q : Pid} {t : Tid} {g : GroupId} {uid : ℕ}

theorem Moved.born
    (h : Moved (k.newborn uid) k.nextTid (fun x => { x with parent := some q, group := some g }) k')
    (hlist : (k.process k.nextTid).threadList = [])
    (hliving : (k.process k.nextTid).numLivingThreads = 0) :
    Born k k.nextTid k' := by
  have hself := h.process_self
  refine ⟨?_, ?_, ?_, ?_, ?_, ?_, ?_, ?_⟩
  · rw [hself, hlist]
    simp
  · rw [hself, hliving]
    simp
  · rw [hself]
    simp
  · intro d hd
    rw [h.process_of_ne hd]
    simp [hd]
  · rw [h.thread]
    simp
  · intro u hu
    rw [h.thread]
    simp [hu]
  · intro u
    rw [h.table]
    by_cases hu : u = k.nextTid <;> simp [hu]
  · rw [h.nextTid]
    rfl

section

variable (ha : System.Agrees k created alive children members)

include ha

theorem System.Agrees.fresh :
    ¬created k.nextTid ∧ (k.process k.nextTid).threadList = [] ∧
      (k.process k.nextTid).numLivingThreads = 0 := by
  have hnot : ¬created k.nextTid := fun h => Nat.lt_irrefl _ (ha.threads.bound _ h)
  have hlist : (k.process k.nextTid).threadList = [] := by
    apply List.eq_nil_iff_forall_not_mem.mpr
    intro t hm
    obtain ⟨htable, hp⟩ := (ha.threads.mem _ t).mp hm
    have halive := (ha.threads.owner t htable).1
    rw [hp] at halive
    exact hnot (ha.family.created_of_alive _ halive)
  refine ⟨hnot, hlist, ?_⟩
  rw [ha.threads.living, hlist]
  rfl

theorem System.Agrees.fork (hinit : created initProcess) (hkernel : created kernelProcess)
    (htable : k.table t = true) (halive : ∀ d, alive' d ↔ d = k.nextTid ∨ alive d)
    (hcreated : ∀ d, created' d ↔ d = k.nextTid ∨ created d) (h : k.fork t = .ok k') :
    ∃ g children' members', (k.process (k.thread t).process).group = some g ∧
      Moved (k.newborn (k.thread t).uid) k.nextTid
        (fun x => { x with parent := some (k.thread t).process, group := some g }) k' ∧
      System.Agrees k' created' alive' children' members' := by
  obtain ⟨hnot, hlist, hliving⟩ := ha.fresh
  have ho : Ordinary k.nextTid := by
    constructor
    · intro heq
      exact hnot (heq ▸ hinit)
    · intro heq
      exact hnot (heq ▸ hkernel)
  have hold : t ≠ k.nextTid := Nat.ne_of_lt (ha.threads.owner t htable).2
  obtain ⟨g, children', members', hg, hf, hm⟩ :=
    ha.family.fork hnot ho hold (ha.threads.owner t htable).1 h
  have hother : ∀ d, d ≠ k.nextTid → k'.process d = k.process d := by
    intro d hd
    rw [hm.process_of_ne hd]
    simp [hd]
  have hgroup : k'.group = (k.newborn (k.thread t).uid).group := Still.group hm.toStill
  obtain rfl : alive' = fun d => d = k.nextTid ∨ alive d := funext fun d => propext (halive d)
  obtain rfl : created' = fun d => d = k.nextTid ∨ created d := funext fun d => propext (hcreated d)
  refine ⟨g, children', members', hg, hm, hf, ?_, ?_⟩
  · exact (hm.born hlist hliving).threads ha.threads (.inr rfl) (fun _ => Iff.rfl)
      (fun _ => id) (fun _ => hlist) ho.2
  · exact ha.roots.congr (by rw [hother _ ho.1.symm]) (by rw [hother _ ho.2.symm])
      hgroup hm.nextGroup hm.session hm.nextSession

theorem System.Agrees.living (htable : k.table t = true) (hz : (k.thread t).state ≠ .zombie)
    (hk : (k.thread t).process ≠ kernelProcess) :
    (k.process (k.thread t).process).isZombie = false := by
  have hmem := (ha.threads.mem _ t).mpr ⟨htable, rfl⟩
  have hpos := livingThreads_pos hmem hz
  have hiff := ha.threads.zombie _ (ha.threads.owner t htable).1 hk
  simpa [hpos] using hiff

theorem System.Agrees.spawn (htable : k.table t = true) (hz : (k.thread t).state ≠ .zombie)
    (hk : (k.thread t).process ≠ kernelProcess) :
    System.Agrees (k.spawn t) created alive children members := by
  have hne : (k.thread t).process ≠ k.nextTid :=
    Nat.ne_of_lt (ha.threads.bound _ (ha.family.created_of_alive _ (ha.threads.owner t htable).1))
  have hfields : ∀ d, ((k.spawn t).process d).parent = (k.process d).parent ∧
      ((k.spawn t).process d).group = (k.process d).group := by
    intro d
    by_cases hd : d = (k.thread t).process
    · subst hd
      simp [Tree.spawn, Tree.newThread, Tree.updateThread, Tree.updateProcess]
    · simp [Tree.spawn, Tree.newThread, Tree.updateThread, Tree.updateProcess, hd]
  have hborn : Born k (k.thread t).process (k.spawn t) := by
    refine ⟨?_, ?_, ?_, ?_, ?_, ?_, ?_, rfl⟩
    · simp [Tree.spawn, Tree.newThread, Tree.updateThread, Tree.updateProcess]
    · simp [Tree.spawn, Tree.newThread, Tree.updateThread, Tree.updateProcess]
    · simpa [Tree.spawn, Tree.newThread, Tree.updateThread, Tree.updateProcess] using
        ha.living htable hz hk
    · intro d hd
      simp [Tree.spawn, Tree.newThread, Tree.updateThread, Tree.updateProcess, hd]
    · simp [Tree.spawn, Tree.newThread, Tree.updateThread, Tree.updateProcess]
    · intro u hu
      simp [Tree.spawn, Tree.newThread, Tree.updateThread, Tree.updateProcess, hu]
    · intro u
      by_cases hu : u = k.nextTid <;>
        simp [Tree.spawn, Tree.newThread, Tree.updateThread, Tree.updateProcess, hu]
  have halive := (ha.threads.owner t htable).1
  refine ⟨ha.family.congr rfl rfl rfl (fun d => (hfields d).1) (fun d => (hfields d).2),
    hborn.threads ha.threads (.inl halive) ?_ (fun _ hd => .inr hd) (fun heq => absurd heq hne) hk,
    ha.roots.congr (hfields _).2 (hfields _).1 rfl rfl rfl rfl⟩
  intro d
  constructor
  · exact .inr
  · rintro (rfl | hd)
    · exact halive
    · exact hd

end

end Birth

/-! ## Effects -/

/-- The signal that ends the process. -/
def Op.signal : Op → Option Signal
  | .kill _ signal => some signal
  | _ => none

/-- How the process dies that an operation ends. -/
def Op.cause : Op → Death
  | .exit _ status | .exitGroup _ status => .exited status
  | .kill _ signal => .killed signal
  | _ => .exited 0

/-- The process that an operation ends: `exit` ends it with its last living thread. -/
def Tree.dying (k : Tree) (op : Op) : Option Pid :=
  let p := (k.thread op.thread).process
  if ¬k.mayDo op then none
  else match op with
    | .exit _ _ => if (k.process p).numLivingThreads = 1 then some p else none
    | .exitGroup _ _ | .kill _ _ => some p
    | _ => none

/-- The process that a successful `setpgid` or `setsid` is about. -/
def Tree.subject (k : Tree) (op : Op) : Option Pid :=
  let p := (k.thread op.thread).process
  if ¬k.mayDo op then none
  else match op with
    | .setpgid _ pid pgid =>
      match k.setpgid p pid pgid with
      | .ok (none, _) => some (k.setpgidTarget p pid)
      | _ => none
    | .setsid _ =>
      match k.setsid p with
      | .ok (none, _) => some p
      | _ => none
    | _ => none

/-- `exit_group` notes its status before the threads end (sched/sched.cpp:813-816). -/
def Tree.beforeDeath (k : Tree) (op : Op) : Tree :=
  match op with
  | .exitGroup t status =>
    k.updateProcess (k.thread t).process fun x =>
      { x with waitStatus := status, waitCode := CLD_EXITED }
  | _ => k

/-- A thread goes to another state, and the process notes it for its parent. -/
def Tree.note (k : Tree) (t : Tid) (state : ThreadState) (status code : ℤ) : Tree :=
  (k.updateThread t fun x => { x with state }).updateProcess (k.thread t).process fun x =>
    { x with waitStatus := status, waitCode := code }

/-- What a step can do. -/
inductive Effect (s : System) (children : Pid → List Pid) (op : Op) : System → Prop
  | nothing (hdying : s.tree.dying op = none) : Effect s children op s
  | fork {g : GroupId} {k' : Tree} (hop : op = .fork op.thread) (hmay : s.tree.mayDo op = true)
      (hgroup : (s.tree.process (s.tree.thread op.thread).process).group = some g)
      (h : Moved (s.tree.newborn (s.tree.thread op.thread).uid) s.tree.nextTid (fun x =>
        { x with parent := some (s.tree.thread op.thread).process, group := some g }) k') :
      Effect s children op
        { s with tree := k', created := update s.created s.tree.nextTid true }
  | spawn (hop : op = .spawn op.thread) :
      Effect s children op { s with tree := s.tree.spawn op.thread }
  | execve (hop : op = .execve op.thread) : Effect s children op
      { s with tree := s.tree.updateProcess (s.tree.thread op.thread).process fun x =>
        { x with hasPerformedExecve := true } }
  | thread (hdying : s.tree.dying op = none)
      (hlast : (s.tree.process (s.tree.thread op.thread).process).numLivingThreads ≠ 1) :
      Effect s children op { s with tree := s.tree.markThread op.thread }
  | ended {p : Pid} {k' : Tree} (hdying : s.tree.dying op = some p) (hinit : Ordinary p)
      (h : Ended (s.tree.beforeDeath op) p op.signal (children p) k') :
      Effect s children op
        { s with tree := k', death := update s.death p (some op.cause) }
  | stop {signal : Signal} (hop : op = .stop op.thread signal) (hmay : s.tree.mayDo op = true) :
      Effect s children op { s with tree := s.tree.note op.thread .stopped signal CLD_STOPPED }
  | cont (hop : op = .cont op.thread) (hmay : s.tree.mayDo op = true) :
      Effect s children op { s with tree := s.tree.note op.thread .ready SIGCONT CLD_CONTINUED }
  | regrouped {p : Pid} {g : GroupId} {k' : Tree} (hsubject : s.tree.subject op = some p)
      (ho : Ordinary p) (h : Regrouped s.tree p g k') : Effect s children op { s with tree := k' }
  | waited {r : WaitResult} {k1 k' : Tree} (hmay : s.tree.mayDo op = true)
      (hwait : s.tree.waitStep op = some (.ok (r, k'))) (hslept : Slept s.tree op.thread k1)
      (hconsumed : Consumed k1 k') : Effect s children op (s.waited op r k')

/-- A thread that goes to another state stays on the lists. -/
theorem System.Agrees.note {k : Tree} {created alive : Pid → Prop} {children : Pid → List Pid}
    {members : GroupId → List Pid} {t : Tid} {state : ThreadState} {status code : ℤ}
    (ha : System.Agrees k created alive children members) (hz : (k.thread t).state ≠ .zombie)
    (hst : state ≠ .zombie) :
    System.Agrees (k.note t state status code) created alive children members := by
  have hslept : Slept k t (k.updateThread t fun x => { x with state }) :=
    ⟨⟨state, hst, rfl⟩, rfl, rfl, rfl, rfl, rfl, rfl, rfl, rfl, rfl⟩
  exact (ha.slept hslept hz).slight fun x => ⟨rfl, rfl, rfl, rfl, rfl⟩

/-- The operations that end a process. -/
theorem dying_cases {k : Tree} {op : Op} {p : Pid} (h : k.dying op = some p) :
    k.mayDo op = true ∧ p = (k.thread op.thread).process ∧
      ((∃ status, op = .exit op.thread status) ∨ (∃ status, op = .exitGroup op.thread status) ∨
        ∃ signal, op = .kill op.thread signal) := by
  unfold Tree.dying at h
  have hmay : k.mayDo op = true := by
    by_contra hnot
    simp [hnot] at h
  rw [if_neg (not_not.mpr hmay)] at h
  refine ⟨hmay, ?_⟩
  cases op with
  | exit t status =>
    simp only at h
    split_ifs at h
    exact ⟨(Option.some.inj h).symm, .inl ⟨status, rfl⟩⟩
  | exitGroup t status => exact ⟨(Option.some.inj h).symm, .inr (.inl ⟨status, rfl⟩)⟩
  | kill t signal => exact ⟨(Option.some.inj h).symm, .inr (.inr ⟨signal, rfl⟩)⟩
  | _ => cases h

theorem Effect.ended_of_dying {s s' : System} {op : Op} {children : Pid → List Pid} {p : Pid}
    (he : Effect s children op s') (hdying : s.tree.dying op = some p) : Ordinary p ∧ ∃ k',
      Ended (s.tree.beforeDeath op) p op.signal (children p) k' ∧
        s' = { s with tree := k', death := update s.death p (some op.cause) } := by
  have hshape : s.tree.dying op ≠ none := by
    rw [hdying]
    simp
  cases he with
  | nothing hnone => exact absurd hnone hshape
  | thread hnone => exact absurd hnone hshape
  | ended hd ho h =>
    obtain rfl := Option.some.inj (hd.symm.trans hdying)
    exact ⟨ho, _, h, rfl⟩
  | fork hop => exact absurd (by rw [hop]; simp [Tree.dying]) hshape
  | spawn hop => exact absurd (by rw [hop]; simp [Tree.dying]) hshape
  | execve hop => exact absurd (by rw [hop]; simp [Tree.dying]) hshape
  | stop hop => exact absurd (by rw [hop]; simp [Tree.dying]) hshape
  | cont hop => exact absurd (by rw [hop]; simp [Tree.dying]) hshape
  | regrouped hsubject =>
    unfold Tree.dying at hdying
    unfold Tree.subject at hsubject
    cases op <;> simp_all
  | waited _ hwait =>
    unfold Tree.dying at hdying
    cases op <;> simp_all [Tree.waitStep]

section Step

variable {s s' : System} {op : Op} {children : Pid → List Pid} {members : GroupId → List Pid}
  {k' : Tree} {p : Pid}

theorem System.Good.change {children' : Pid → List Pid} {members' : GroupId → List Pid}
    (hg : s.Good children members)
    (ha : System.Agrees k' (fun p => s.created p = true) s.Alive children' members')
    (hs : s' = { s with tree := k', death := s'.death }) : s'.Good children' members' := by
  obtain ⟨tree, created, deleted, death, reports⟩ := s'
  obtain ⟨rfl, rfl, rfl, -, rfl⟩ := System.mk.inj hs
  exact ⟨ha, hg.kernel, hg.zero, hg.past⟩

theorem Tree.mayDo_thread {k : Tree} (h : k.mayDo op = true) :
    k.table op.thread = true ∧ (k.thread op.thread).process ≠ kernelProcess ∧
      (k.thread op.thread).state = op.threadState := by
  unfold Tree.mayDo at h
  simp only [Bool.and_eq_true, decide_eq_true_eq] at h
  exact ⟨h.1.1.1, h.1.1.2, h.1.2⟩

theorem Op.threadState_ne (op : Op) : op.threadState ≠ .zombie := by
  cases op <;> simp [Op.threadState]

theorem System.died_eq {cause : Death} (hliving : (s.tree.process p).isZombie = false)
    (hzombie : (k'.process p).isZombie = true) : s.died p cause k' =
      { s with tree := k', death := update s.death p (some cause) } := by
  simp [System.died, hliving, hzombie]

theorem System.died_none {cause : Death}
    (hsame : (k'.process p).isZombie = (s.tree.process p).isZombie) :
    s.died p cause k' = { s with tree := k' } := by
  unfold System.died
  rw [if_neg]
  rw [hsame]
  exact fun h => h.2 h.1

/-- `exit_group` writes nothing that a list or a count shows. -/
theorem System.Agrees.beforeDeath {k : Tree} {created alive : Pid → Prop}
    (ha : System.Agrees k created alive children members) :
    System.Agrees (k.beforeDeath op) created alive children members := by
  unfold Tree.beforeDeath
  split
  · exact ha.slight fun x => ⟨rfl, rfl, rfl, rfl, rfl⟩
  · exact ha

section

variable (hg : s.Good children members)

include hg

theorem System.Good.ended (hmay : s.tree.mayDo op = true)
    (hp : (s.tree.thread op.thread).process = p) (hdying : s.tree.dying op = some p) (h : p ≠
    initProcess ∧ ∃ children' members', Family k' (fun p => s.created p = true) s.Alive children'
    members' ∧ children' p = [] ∧ Ended (s.tree.beforeDeath op) p op.signal (children p) k') :
    (∃ children' members', (s.died p op.cause k').Good children' members') ∧
      Effect s children op (s.died p op.cause k') := by
  obtain ⟨hinit, children', members', hf, -, hended⟩ := h
  obtain ⟨htable, hk, hstate⟩ := Tree.mayDo_thread hmay
  have hz : (s.tree.thread op.thread).state ≠ .zombie := hstate ▸ op.threadState_ne
  have hliving := hg.agrees.living htable hz hk
  rw [hp] at hliving hk
  have hzombie : (k'.process p).isZombie = true := by
    rw [hended.isZombie, if_pos rfl]
  rw [System.died_eq hliving hzombie]
  exact ⟨⟨children', members', hg.change (hg.agrees.beforeDeath.ended hf hended) rfl⟩,
    .ended hdying ⟨hinit, hk⟩ hended⟩

theorem System.Good.waited {r : WaitResult} (hmay : s.tree.mayDo op = true)
    (hwait : s.tree.waitStep op = some (.ok (r, k'))) :
    (∃ children' members', (s.waited op r k').Good children' members') ∧
      Effect s children op (s.waited op r k') := by
  obtain ⟨htable, hk, hstate⟩ := Tree.mayDo_thread hmay
  have hz : (s.tree.thread op.thread).state ≠ .zombie := hstate ▸ op.threadState_ne
  obtain ⟨k1, hslept, hconsumed⟩ := waitStep_effect hz hwait rfl
  refine ⟨?_, .waited hmay hwait hslept hconsumed⟩
  have ha := hg.agrees.slept hslept hz
  rcases ha.consumed hconsumed with ⟨hlist, ha'⟩ | ⟨c, children', members', hd, hc, ho, -, ha'⟩
  · have hdeleted : (s.waited op r k').deleted = s.deleted := by
      funext d
      unfold System.waited
      simp [hlist d, hslept.process]
    refine ⟨children, members, ?_, hg.kernel, hg.zero, ?_⟩
    · have halive : (s.waited op r k').Alive = s.Alive := by
        funext d
        unfold System.Alive
        rw [hdeleted]
        rfl
      rw [halive]
      exact ha'
    · rw [hdeleted]
      exact hg.past
  · have hdeleted : ∀ d, (s.waited op r k').deleted d = (s.deleted d || decide (d = c)) := by
      intro d
      unfold System.waited
      by_cases hdc : d = c
      · subst hdc
        have hmain := ha.threads.main d hc ho.2
        have hne : (k1.process d).threadList ≠ [] := by
          intro hnil
          rw [hnil] at hmain
          cases hmain
        rw [hslept.process] at hne
        simp [hd.self, hne]
      · simp [hd.other d hdc, hslept.process, hdc]
    refine ⟨children', members', ?_, hg.kernel, hg.zero, ?_⟩
    · have halive : (s.waited op r k').Alive = fun d => d ≠ c ∧ s.Alive d := by
        funext d
        unfold System.Alive
        rw [hdeleted]
        apply propext
        show s.created d = true ∧ _ ↔ _
        simp only [Bool.or_eq_false_iff, decide_eq_false_iff_not]
        tauto
      rw [halive]
      exact ha'
    · intro d hdel
      rw [hdeleted, Bool.or_eq_true, decide_eq_true_eq] at hdel
      rcases hdel with hdel | rfl
      · exact hg.past d hdel
      · exact hc.1

theorem System.Good.fork {t : Tid} (hmay : s.tree.mayDo (.fork t) = true)
    (h : s.tree.fork t = .ok k') :
    (∃ children' members', System.Good
      { s with tree := k', created := update s.created s.tree.nextTid true }
        children' members') ∧
      Effect s children (.fork t)
        { s with tree := k', created := update s.created s.tree.nextTid true } := by
  obtain ⟨htable, -, -⟩ := Tree.mayDo_thread hmay
  have hcreated : ∀ d, update s.created s.tree.nextTid true d = true ↔
      d = s.tree.nextTid ∨ s.created d = true := by
    intro d
    by_cases hd : d = s.tree.nextTid <;> simp [hd]
  have hdeleted : s.deleted s.tree.nextTid = false := by
    simpa using mt (hg.past s.tree.nextTid) hg.agrees.fresh.1
  have halive : ∀ d, System.Alive
      { s with tree := k', created := update s.created s.tree.nextTid true } d ↔
        d = s.tree.nextTid ∨ s.Alive d := by
    intro d
    show update s.created s.tree.nextTid true d = true ∧ s.deleted d = false ↔ _
    rw [hcreated]
    unfold System.Alive
    by_cases hd : d = s.tree.nextTid
    · subst hd
      simp [hdeleted]
    · simp [hd]
  obtain ⟨g, children', members', hgroup, hmoved, ha⟩ :=
    hg.agrees.fork hg.kernel.2 hg.kernel.1 htable halive hcreated h
  refine ⟨⟨children', members', ha, ?_, ?_, ?_⟩, .fork rfl hmay hgroup hmoved⟩
  · exact ⟨(hcreated _).mpr (.inr hg.kernel.1), (hcreated _).mpr (.inr hg.kernel.2)⟩
  · have hpos : 0 ≠ s.tree.nextTid :=
      Nat.ne_of_lt (Nat.zero_lt_of_lt (hg.agrees.threads.bound _ hg.kernel.2))
    show update s.created s.tree.nextTid true 0 = false
    rw [update_of_ne hpos]
    exact hg.zero
  · exact fun d hdel => (hcreated d).mpr (.inr (hg.past d hdel))

/-- **Main theorem.** Every step is one of the effects, and leaves a good system. -/
theorem step_effect (h : s.step op = .ok s') :
    (∃ children' members', s'.Good children' members') ∧ Effect s children op s' := by
  unfold System.step at h
  split_ifs at h with hmay
  swap
  · cases h
    exact ⟨⟨children, members, hg⟩, .nothing (by simp [Tree.dying, hmay])⟩
  obtain ⟨htable, hk, hstate⟩ := Tree.mayDo_thread hmay
  have hz : (s.tree.thread op.thread).state ≠ .zombie := hstate ▸ op.threadState_ne
  have halive := (hg.agrees.threads.owner _ htable).1
  have hcreated := hg.agrees.family.created_of_alive _ halive
  cases op with
  | fork t =>
    obtain ⟨k', hfork, rfl⟩ := bind_pure_ok h
    exact hg.fork hmay hfork
  | spawn t =>
    cases h
    exact ⟨⟨children, members, hg.change (hg.agrees.spawn htable hz hk) rfl⟩, .spawn rfl⟩
  | execve t =>
    cases h
    have hs : Slight fun x => { x with hasPerformedExecve := true } :=
      fun x => ⟨rfl, rfl, rfl, rfl, rfl⟩
    exact ⟨⟨children, members, hg.change (hg.agrees.slight hs) rfl⟩, .execve rfl⟩
  | exit t status =>
    obtain ⟨k', hend, rfl⟩ := bind_pure_ok h
    by_cases hlast : (s.tree.process (s.tree.thread t).process).numLivingThreads = 1
    · apply hg.ended hmay rfl
      · simp [Tree.dying, hmay, hlast, Op.thread]
      · exact hg.agrees.threads.lastThread hg.agrees.family hcreated htable hz hlast hend
    · obtain rfl := terminateThread_other hz hlast hend
      have hsame : ((s.tree.markThread t).process (s.tree.thread t).process).isZombie =
          (s.tree.process (s.tree.thread t).process).isZombie := by
        rw [markThread_process_self]
      have hdied : s.died (s.tree.thread t).process (.exited status) (s.tree.markThread t) =
          { s with tree := s.tree.markThread t } := System.died_none hsame
      simp only [Op.thread, hdied]
      exact ⟨⟨children, members, hg.change (hg.agrees.markThread htable hz hlast) rfl⟩,
        .thread (by simp [Tree.dying, hmay, hlast, Op.thread]) hlast⟩
  | exitGroup t status =>
    obtain ⟨k', hend, rfl⟩ := bind_pure_ok h
    apply hg.ended hmay rfl
    · simp [Tree.dying, hmay, Op.thread]
    · have ha := @System.Agrees.beforeDeath (.exitGroup t status) _ _ _ _ _ hg.agrees
      apply ha.threads.terminateProcess ha.family hcreated ?_ hend
      exact livingThreads_pos ((ha.threads.mem _ t).mpr ⟨htable, rfl⟩) hz
  | kill t signal =>
    obtain ⟨k', hend, rfl⟩ := bind_pure_ok h
    apply hg.ended hmay rfl
    · simp [Tree.dying, hmay, Op.thread]
    · have ha := hg.agrees
      apply ha.threads.terminateProcess ha.family hcreated ?_ hend
      exact livingThreads_pos ((ha.threads.mem _ t).mpr ⟨htable, rfl⟩) hz
  | stop t signal =>
    obtain ⟨k', hstop, rfl⟩ := bind_pure_ok h
    unfold Tree.stop at hstop
    obtain ⟨_, -, hstop⟩ := bind_ok hstop
    obtain ⟨_, -, hstop⟩ := bind_ok hstop
    have hk' : k' = s.tree.note t .stopped signal CLD_STOPPED := by
      rw [← Except.ok.inj hstop]
      simp [Tree.note, Tree.updateThread]
    rw [hk']
    exact ⟨⟨children, members, hg.change (hg.agrees.note hz (by simp)) rfl⟩, .stop rfl hmay⟩
  | cont t =>
    have hk' : s.tree.continueStopped t = s.tree.note t .ready SIGCONT CLD_CONTINUED := by
      simp [Tree.continueStopped, Tree.note, Tree.updateThread]
    simp only [hk'] at h
    cases h
    exact ⟨⟨children, members, hg.change (hg.agrees.note hz (by simp)) rfl⟩, .cont rfl hmay⟩
  | setpgid t pid pgid =>
    obtain ⟨⟨r, k'⟩, hset, rfl⟩ := bind_pure_ok h
    rcases setpgid_effect hg.agrees.family hg.agrees.threads hg.agrees.roots halive hk hset with
      rfl | ⟨rfl, g, members', halive', ho, hregrouped, hf⟩
    · exact ⟨⟨children, members, hg⟩, .nothing (by simp [Tree.dying, hmay])⟩
    · refine ⟨⟨children, members', hg.change (hg.agrees.regrouped ho hregrouped hf) rfl⟩,
        .regrouped ?_ ho hregrouped⟩
      simp only [Op.thread] at hset
      simp [Tree.subject, hmay, Op.thread, hset]
  | setsid t =>
    obtain ⟨⟨r, k'⟩, hset, rfl⟩ := bind_pure_ok h
    rcases setsid_effect hg.agrees.family hg.agrees.roots halive hk hset with
      rfl | ⟨rfl, g, members', ho, hregrouped, hf⟩
    · exact ⟨⟨children, members, hg⟩, .nothing (by simp [Tree.dying, hmay])⟩
    · refine ⟨⟨children, members', hg.change (hg.agrees.regrouped ho hregrouped hf) rfl⟩,
        .regrouped ?_ ho hregrouped⟩
      simp only [Op.thread] at hset
      simp [Tree.subject, hmay, Op.thread, hset]
  | waitid t call =>
    obtain ⟨⟨r, k'⟩, hwait, rfl⟩ := bind_pure_ok h
    exact hg.waited hmay (congrArg some hwait)
  | wait4 t pid status options info =>
    obtain ⟨⟨r, k'⟩, hwait, rfl⟩ := bind_pure_ok h
    exact hg.waited hmay (congrArg some hwait)
  | wakeUp t interrupted =>
    simp only at h
    cases hwait : s.tree.waitStep (.wakeUp t interrupted) with
    | none =>
      rw [hwait] at h
      cases h
      exact ⟨⟨children, members, hg⟩, .nothing (by simp [Tree.dying, hmay])⟩
    | some result =>
      rw [hwait] at h
      obtain ⟨⟨r, k'⟩, rfl, rfl⟩ := bind_pure_ok h
      exact hg.waited hmay hwait

end

end Step

/-! ## From the boot -/

section Boot

variable {n : ℕ} {s : System} {p : Pid} {t : Tid}

theorem booted_other (h1 : p ≠ initProcess) (h2 : p ≠ kernelProcess) :
    (System.booted n).tree.process p = {} := by
  simp [System.booted, h1, h2]

/-- Nobody has children or is a member of a group. -/
theorem booted_family : Family (System.booted n).tree
    (fun p => (System.booted n).created p = true) (System.booted n).Alive (fun _ => [])
    fun _ => [] := by
  have hnone : ∀ c, (System.booted n).Alive c → ¬Ordinary c := by
    intro c hc ho
    have hcreated := hc.1
    simp only [System.booted, decide_eq_true_eq] at hcreated
    exact hcreated.elim ho.1 ho.2
  refine ⟨.empty ?_ ?_, .empty ?_ ?_, ?_, ?_, ?_, ?_, ?_, ?_, ?_, ?_⟩
  · intro p hp
    simp only [System.booted, decide_eq_true_eq] at hp ⊢
    rcases hp with rfl | rfl <;> simp
  · intro c
    simp [System.booted]
  · intro g hg
    obtain rfl : g = 0 := Nat.lt_one_iff.mp hg
    simp [System.booted]
  · intro c
    simp [System.booted]
  · intro p c
    simp only [List.not_mem_nil, false_iff]
    exact fun h => hnone c h.1 h.2.1
  · intro g c
    simp only [List.not_mem_nil, false_iff]
    exact fun h => hnone c h.1 h.2.1
  · exact fun c hc ho => absurd ho (hnone c hc)
  · exact fun c hc ho => absurd ho (hnone c hc)
  · exact ⟨0, by simp [System.booted], by simp [System.booted]⟩
  · simp [System.booted, kernelProcess, initProcess]
  · exact fun c hc => hc.1
  · simp [System.Alive, System.booted]

theorem booted_threads : Threads (System.booted n).tree
    (fun p => (System.booted n).created p = true) (System.booted n).Alive := by
  have hkernel : livingThreads (System.booted n).tree (List.range' 3 n) = n := by
    unfold livingThreads
    rw [List.filter_eq_self.mpr]
    · simp
    · intro t ht
      rw [List.mem_range'_1] at ht
      have hne : t ≠ 1 := Nat.ne_of_gt (by omega)
      simp [System.booted, hne, ht]
  refine ⟨?_, ?_, ?_, ?_, ?_, ?_, ?_⟩
  · intro p t
    by_cases h1 : p = initProcess
    · subst h1
      by_cases ht : t = 1
      · simp [System.booted, ht]
      · by_cases hr : 3 ≤ t ∧ t < 3 + n <;>
          simp [System.booted, ht, hr, initProcess, kernelProcess]
    · by_cases h2 : p = kernelProcess
      · subst h2
        by_cases ht : t = 1
        · simp [System.booted, ht, initProcess, kernelProcess]
        · by_cases hr : 3 ≤ t ∧ t < 3 + n <;>
            simp [System.booted, ht, hr, initProcess, kernelProcess]
      · rw [booted_other h1 h2]
        by_cases ht : t = 1
        · simp [System.booted, ht, Ne.symm h1]
        · by_cases hr : 3 ≤ t ∧ t < 3 + n <;> simp [System.booted, ht, hr, Ne.symm h2]
  · intro p
    by_cases h1 : p = initProcess
    · simp [System.booted, h1]
    · by_cases h2 : p = kernelProcess
      · subst h2
        simpa [System.booted, initProcess, kernelProcess] using List.nodup_range'
      · rw [booted_other h1 h2]
        exact List.nodup_nil
  · intro t ht
    simp only [System.booted, decide_eq_true_eq] at ht
    by_cases h1 : t = 1
    · subst h1
      refine ⟨by simp [System.booted, System.Alive], ?_⟩
      show 1 < 4 + n
      omega
    · have hr := ht.resolve_left h1
      refine ⟨by simp [System.booted, System.Alive, h1, hr], ?_⟩
      show t < 4 + n
      exact Nat.lt_trans hr.2 (by omega)
  · intro p hp hk
    have hcreated := hp.1
    simp only [System.booted, decide_eq_true_eq] at hcreated
    obtain rfl := hcreated.resolve_right hk
    simp [System.booted, initProcess]
  · intro p
    by_cases h1 : p = initProcess
    · simp [System.booted, h1, livingThreads]
    · by_cases h2 : p = kernelProcess
      · subst h2
        have hlist : ((System.booted n).tree.process kernelProcess).threadList =
            List.range' 3 n := by
          simp [System.booted, initProcess, kernelProcess]
        rw [hlist, hkernel]
        simp [System.booted, initProcess, kernelProcess]
      · rw [booted_other h1 h2]
        rfl
  · intro p hp hk
    have hcreated := hp.1
    simp only [System.booted, decide_eq_true_eq] at hcreated
    obtain rfl := hcreated.resolve_right hk
    simp [System.booted, livingThreads]
  · intro p hp
    simp only [System.booted, decide_eq_true_eq] at hp ⊢
    rcases hp with rfl | rfl
    · show 1 < 4 + n
      omega
    · show 2 < 4 + n
      omega

theorem booted_good : (System.booted n).Good (fun _ => []) fun _ => [] := by
  refine ⟨⟨booted_family, booted_threads, ⟨?_, ?_, ?_, ?_, ?_, ?_⟩⟩, ?_, ?_, ?_⟩
  · simp [System.booted]
  · simp [System.booted]
  · simp [System.booted]
  · simp [System.booted]
  · simp [System.booted]
  · simp [System.booted, initProcess, kernelProcess]
  · simp [System.booted]
  · simp [System.booted, initProcess, kernelProcess]
  · intro p hp
    cases hp

/-- **Main theorem.** Every system that is reached is good. -/
theorem good_run {Ok : System → Op → Prop} (h : Run System.step Ok (System.booted n) s) :
    ∃ children members, s.Good children members := by
  apply h.invariant (P := fun s => ∃ children members, s.Good children members)
  · rintro s1 op s2 ⟨children, members, hg⟩ - hstep
    exact (step_effect hg hstep).1
  · exact ⟨_, _, booted_good⟩

end Boot

end Fishix.ProcessTree
