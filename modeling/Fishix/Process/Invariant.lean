import Fishix.Process.Threads

/-!
# What the system calls of the process tree do

`Agrees` puts the agreement of the lists, of the threads and of the init process together. It is kept
by every change that a system call makes.

* `setpgid_effect`, `setsid_effect`: nothing, or one process is regrouped (`Regrouped`).
* `waitStep_effect`: a thread sleeps or wakes (`Slept`), and one child may be used up (`Consumed`).
-/

namespace Fishix.ProcessTree

open Fishix.Sched (Panic orPanic assert Signal SIGCHLD SIGCONT orPanic_ok_iff assert_ok_iff)
open Tree

namespace System

/-- A process that has been created and not deleted. -/
def Alive (s : System) (p : Pid) : Prop := s.created p = true ∧ s.deleted p = false

/-- The init process leads its group and its session, and the kernel process has no parent. -/
structure Roots (k : Tree) : Prop where
  own : (k.process initProcess).group = some 0
  group : k.group 0 = ⟨0, initProcess⟩
  session : k.session 0 = ⟨0⟩
  nextGroup : 0 < k.nextGroup
  nextSession : 0 < k.nextSession
  kernelParent : (k.process kernelProcess).parent = none

/-- The lists, the threads and the table agree. -/
structure Agrees (k : Tree) (created alive : Pid → Prop) (children : Pid → List Pid)
    (members : GroupId → List Pid) : Prop where
  family : Family k created alive children members
  threads : Threads k created alive
  roots : Roots k

/-- The system agrees with what has been created and deleted. -/
structure Good (s : System) (children : Pid → List Pid) (members : GroupId → List Pid) : Prop where
  agrees : Agrees s.tree (fun p => s.created p = true) s.Alive children members
  kernel : s.created kernelProcess = true ∧ s.created initProcess = true
  zero : s.created 0 = false
  past : ∀ p, s.deleted p = true → s.created p = true

end System

/-- A process has changed its group. -/
structure Regrouped (k : Tree) (p : Pid) (g : GroupId) (k' : Tree) : Prop where
  process : k'.process = Function.update k.process p { k.process p with group := some g }
  thread : k'.thread = k.thread
  table : k'.table = k.table
  nextTid : k'.nextTid = k.nextTid
  group : ∀ h, h < k.nextGroup → k'.group h = k.group h
  nextGroup : k.nextGroup ≤ k'.nextGroup
  session : ∀ h, h < k.nextSession → k'.session h = k.session h
  nextSession : k.nextSession ≤ k'.nextSession
  waiting : k'.waiting = k.waiting

/-- What a wait call does to the child that it reports. -/
inductive Consumed (k : Tree) : Tree → Prop
  | left : Consumed k k
  | cleared (c : Pid) (living : (k.process c).isZombie = false) :
      Consumed k (k.updateProcess c fun x => { x with waitCode := 0 })
  | deleted {c : Pid} {k' : Tree} (h : k.destroyProcess c = .ok k') : Consumed k k'

/-- A thread falls asleep in a wait call, or is woken. -/
structure Slept (k : Tree) (t : Tid) (k' : Tree) : Prop where
  thread : ∃ st, st ≠ ThreadState.zombie ∧
    k'.thread = Function.update k.thread t { k.thread t with state := st }
  process : k'.process = k.process
  table : k'.table = k.table
  nextTid : k'.nextTid = k.nextTid
  group : k'.group = k.group
  nextGroup : k'.nextGroup = k.nextGroup
  session : k'.session = k.session
  nextSession : k'.nextSession = k.nextSession
  childLinks : k'.childLinks = k.childLinks
  groupLinks : k'.groupLinks = k.groupLinks

section Functions

variable {k k' : Tree} {created alive : Pid → Prop} {children : Pid → List Pid}
  {members : GroupId → List Pid} {p : Pid} {t : Tid} {g : GroupId} {session : SessionId}

/-! ## Regrouping -/

/-- A new group has an empty list. -/
theorem Family.newGroup (hf : Family k created alive children members) :
    Family (k.newGroup session p).2 created alive children members := by
  refine { hf with groupRings := ?_, initGroup := ?_ }
  · have hrings := hf.groupRings.init (h := k.nextGroup) (Nat.lt_irrefl _)
    have hon : (fun g => g < k.nextGroup + 1) = fun g => g = k.nextGroup ∨ g < k.nextGroup := by
      funext g
      exact propext (Nat.lt_succ_iff_lt_or_eq.trans or_comm)
    show Rings _ (fun g => g < k.nextGroup + 1) members
    rw [hon]
    exact hrings
  · obtain ⟨g, hlt, hg⟩ := hf.initGroup
    exact ⟨g, Nat.lt_succ_of_lt hlt, hg⟩

theorem Moved.regrouped (h : Moved k p (fun x => { x with group := some g }) k') :
    Regrouped k p g k' :=
  ⟨h.process, h.thread, h.table, h.nextTid, fun _ _ => by rw [Still.group h.toStill],
    Nat.le_of_eq h.nextGroup.symm, fun _ _ => by rw [h.session],
    Nat.le_of_eq h.nextSession.symm, h.waiting⟩

theorem Moved.regrouped_new
    (h : Moved (k.newGroup session p).2 p (fun x => { x with group := some g }) k') :
    Regrouped k p g k' := by
  refine ⟨h.process, h.thread, h.table, h.nextTid, ?_, ?_, fun _ _ => by rw [h.session]; rfl,
    Nat.le_of_eq h.nextSession.symm, h.waiting⟩
  · intro g' hlt
    rw [Still.group h.toStill]
    show Function.update k.group k.nextGroup _ g' = _
    rw [Function.update_of_ne (Nat.ne_of_lt hlt)]
  · rw [h.nextGroup]
    exact Nat.le_succ _

theorem Regrouped.threads (h : Regrouped k p g k') (ht : Threads k created alive) :
    Threads k' created alive := by
  have hfields : ∀ d, (k'.process d).threadList = (k.process d).threadList ∧
      (k'.process d).numLivingThreads = (k.process d).numLivingThreads ∧
      (k'.process d).isZombie = (k.process d).isZombie := by
    intro d
    rw [h.process]
    by_cases hd : d = p
    · subst hd
      simp
    · simp [hd]
  exact ht.congr (fun d => (hfields d).1) (fun d => (hfields d).2.1) (fun d => (hfields d).2.2)
    (fun _ => by rw [h.thread]) (fun _ => by rw [h.thread]) h.table h.nextTid

theorem Regrouped.roots (h : Regrouped k p g k') (hp : p ≠ initProcess)
    (hi : System.Roots k) : System.Roots k' where
  own := by
    rw [h.process, Function.update_of_ne hp.symm]
    exact hi.own
  group := by
    rw [h.group 0 hi.nextGroup]
    exact hi.group
  session := by
    rw [h.session 0 hi.nextSession]
    exact hi.session
  nextGroup := Nat.lt_of_lt_of_le hi.nextGroup h.nextGroup
  nextSession := Nat.lt_of_lt_of_le hi.nextSession h.nextSession
  kernelParent := by
    rw [h.process]
    by_cases hk : kernelProcess = p
    · subst hk
      simpa using hi.kernelParent
    · rw [Function.update_of_ne hk]
      exact hi.kernelParent

/-- The process that `setpgid` is about (userland/pid.cpp:43-50). -/
def Tree.setpgidTarget (k : Tree) (currentProcess : Pid) (pid : ℤ) : Pid :=
  if pid = 0 then currentProcess else (k.thread pid.toNat).process

/-- The process that `setpgid` works on, or its error (userland/pid.cpp:43-51). -/
theorem setpgid_target {currentProcess : Pid} {pid : ℤ} (ht : Threads k created alive)
    (hk : (k.process kernelProcess).parent = none)
    (hc : alive currentProcess) (hck : currentProcess ≠ kernelProcess)
    (h : (if pid = 0 then Except.ok currentProcess
      else match k.getFromTid pid with
        | none => .error Errno.esrch
        | some t =>
          if (k.thread t).process ≠ currentProcess ∧
              (k.process (k.thread t).process).parent ≠ some currentProcess then .error .esrch
          else if (k.process (k.thread t).process).parent = some currentProcess ∧
              (k.process (k.thread t).process).hasPerformedExecve then .error .eacces
          else .ok (k.thread t).process) = .ok p) :
    p = k.setpgidTarget currentProcess pid ∧ alive p ∧ p ≠ kernelProcess := by
  unfold setpgidTarget
  split_ifs at h ⊢ with hpid
  · cases h
    exact ⟨rfl, hc, hck⟩
  · unfold getFromTid at h
    by_cases hfound : 0 < pid ∧ k.table pid.toNat
    · simp only [if_pos hfound] at h
      split_ifs at h with hother hexec
      cases h
      refine ⟨rfl, (ht.owner _ hfound.2).1, ?_⟩
      intro hkernel
      -- the kernel process has no parent
      rw [hkernel, hk] at hother
      simp only [ne_eq, reduceCtorEq, not_false_eq_true, and_true, not_not] at hother
      exact hck hother.symm
    · simp only [if_neg hfound] at h
      cases h

theorem setpgid_effect {currentProcess : Pid} {pid pgid : ℤ} {r : Option Errno}
    (hf : Family k created alive children members) (ht : Threads k created alive)
    (hi : System.Roots k)
    (hc : alive currentProcess) (hck : currentProcess ≠ kernelProcess)
    (h : k.setpgid currentProcess pid pgid = .ok (r, k')) :
    k' = k ∨ r = none ∧ ∃ g members', alive (k.setpgidTarget currentProcess pid) ∧
      Ordinary (k.setpgidTarget currentProcess pid) ∧
      Regrouped k (k.setpgidTarget currentProcess pid) g k' ∧
      Family k' created alive children members' := by
  unfold setpgid at h
  simp only at h
  generalize htarget : (if pid = 0 then Except.ok currentProcess else _) = target at h
  cases target with
  | error e =>
    cases h
    exact .inl rfl
  | ok p =>
    obtain ⟨hp, halive, hpk⟩ := setpgid_target ht hi.kernelParent hc hck htarget
    rw [← hp]
    simp only at h
    obtain ⟨leader, hleader, h⟩ := bind_ok h
    by_cases hlead : leader = p
    · rw [if_pos hlead] at h
      cases h
      exact .inl rfl
    rw [if_neg hlead] at h
    obtain ⟨own, hown, h⟩ := bind_ok h
    -- the init process leads its session
    have hordinary : Ordinary p := by
      refine ⟨?_, hpk⟩
      rintro rfl
      unfold sessionLeader groupOf at hleader
      obtain ⟨g, hg, hleader⟩ := bind_ok hleader
      have hg := orPanic_ok_iff.mp hg
      rw [hi.own] at hg
      cases hg
      have hleader := Except.ok.inj hleader
      rw [hi.group, hi.session, hi.group] at hleader
      exact hlead hleader.symm
    split_ifs at h with hpgid hneg hleads
    · cases h
      exact .inl rfl
    · unfold getFromTid at h
      by_cases hfound : 0 < pgid ∧ k.table pgid.toNat
      · simp only [if_pos hfound] at h
        obtain ⟨g, hg, h⟩ := bind_ok h
        have hg := orPanic_ok_iff.mp hg
        split_ifs at h with hsession
        · cases h
          exact .inl rfl
        · obtain ⟨k1, hadd, h⟩ := bind_ok h
          cases h
          obtain ⟨⟨members', hf'⟩, hmoved, -⟩ := hf.addProcess halive hordinary
            (hf.group_bound (ht.owner _ hfound.2).1 hg) hadd
          exact .inr ⟨rfl, g, members', halive, hordinary, hmoved.regrouped, hf'⟩
      · simp only [if_neg hfound] at h
        cases h
        exact .inl rfl
    · cases h
      exact .inl rfl
    · obtain ⟨k1, hadd, h⟩ := bind_ok h
      cases h
      obtain ⟨⟨members', hf'⟩, hmoved, -⟩ :=
        hf.newGroup.addProcess halive hordinary (Nat.lt_succ_self _) hadd
      exact .inr ⟨rfl, _, members', halive, hordinary, hmoved.regrouped_new, hf'⟩

theorem setsid_effect {r : Option Errno} (hf : Family k created alive children members)
    (hi : System.Roots k) (hc : alive p) (hck : p ≠ kernelProcess)
    (h : k.setsid p = .ok (r, k')) :
    k' = k ∨ r = none ∧ ∃ g members', Ordinary p ∧ Regrouped k p g k' ∧
      Family k' created alive children members' := by
  unfold setsid at h
  obtain ⟨own, hown, h⟩ := bind_ok h
  split_ifs at h with hlead
  · cases h
    exact .inl rfl
  · have hordinary : Ordinary p := by
      refine ⟨?_, hck⟩
      rintro rfl
      have hown := orPanic_ok_iff.mp hown
      rw [hi.own] at hown
      cases hown
      rw [hi.group] at hlead
      exact hlead rfl
    obtain ⟨k1, hadd, h⟩ := bind_ok h
    obtain ⟨rfl, hk'⟩ := pure_pair h
    have hf1 : Family ({ k with nextSession := k.nextSession + 1 } : Tree) created alive children
        members := { hf with }
    obtain ⟨⟨members', hf'⟩, hmoved, -⟩ :=
      hf1.newGroup.addProcess hc hordinary (Nat.lt_succ_self _) hadd
    have hregrouped := hmoved.regrouped_new
    refine .inr ⟨rfl, k.nextGroup, members', hordinary, ?_, ?_⟩
    · rw [← hk']
      refine { hregrouped with session := ?_, nextSession := ?_ }
      · intro h hlt
        show Function.update k1.session k.nextSession _ h = _
        rw [Function.update_of_ne (Nat.ne_of_lt hlt), hregrouped.session h (Nat.lt_succ_of_lt hlt)]
      · exact Nat.le_trans (Nat.le_succ _) hregrouped.nextSession
    · rw [← hk']
      exact { hf' with }

/-! ## Waiting -/

theorem Slept.refl (hz : (k.thread t).state ≠ .zombie) : Slept k t k :=
  ⟨⟨(k.thread t).state, hz, by simp⟩, rfl, rfl, rfl, rfl, rfl, rfl, rfl, rfl, rfl⟩

theorem Slept.trans {k'' : Tree} (h : Slept k t k') (h' : Slept k' t k'') : Slept k t k'' := by
  obtain ⟨st, hst, ht⟩ := h.thread
  obtain ⟨st', hst', ht'⟩ := h'.thread
  refine ⟨⟨st', hst', ?_⟩, h'.process.trans h.process, h'.table.trans h.table,
    h'.nextTid.trans h.nextTid, h'.group.trans h.group, h'.nextGroup.trans h.nextGroup,
    h'.session.trans h.session, h'.nextSession.trans h.nextSession,
    h'.childLinks.trans h.childLinks, h'.groupLinks.trans h.groupLinks⟩
  rw [ht', ht]
  simp

theorem Slept.family (h : Slept k t k') (hf : Family k created alive children members) :
    Family k' created alive children members :=
  hf.congr h.childLinks h.groupLinks h.nextGroup (fun _ => by rw [h.process])
    fun _ => by rw [h.process]

theorem Slept.threads (h : Slept k t k') (hz : (k.thread t).state ≠ .zombie)
    (ht : Threads k created alive) : Threads k' created alive := by
  obtain ⟨st, hst, hthread⟩ := h.thread
  apply ht.congr (fun _ => by rw [h.process]) (fun _ => by rw [h.process])
    (fun _ => by rw [h.process]) ?_ ?_ h.table h.nextTid
  · intro u
    rw [hthread]
    by_cases hu : u = t
    · subst hu
      simp
    · simp [hu]
  · intro u
    rw [hthread]
    by_cases hu : u = t
    · subst hu
      simp [hst, hz]
    · simp [hu]

theorem Slept.roots (h : Slept k t k') (hr : System.Roots k) : System.Roots k' where
  own := by
    rw [h.process]
    exact hr.own
  group := by
    rw [h.group]
    exact hr.group
  session := by
    rw [h.session]
    exact hr.session
  nextGroup := by
    rw [h.nextGroup]
    exact hr.nextGroup
  nextSession := by
    rw [h.nextSession]
    exact hr.nextSession
  kernelParent := by
    rw [h.process]
    exact hr.kernelParent

/-- What a report does. -/
theorem consume_consumed {options : BitVec 32} {c : Pid} (h : k.consume options c = .ok k') :
    Consumed k k' := by
  unfold consume at h
  split_ifs at h with hnowait hzombie
  · cases h
    exact .left
  · exact .deleted h
  · cases h
    exact .cleared c (by simpa using hzombie)

/-- What one turn of the loop does. -/
theorem look_effect {w : Waiting} {r : WaitResult} (hz : (k.thread t).state ≠ .zombie)
    (h : k.look t w = .ok (r, k')) : ∃ k1, Slept k t k1 ∧ Consumed k1 k' := by
  unfold look at h
  split at h
  · unfold report at h
    obtain ⟨info, -, h⟩ := bind_ok h
    obtain ⟨k1, hconsume, h⟩ := bind_ok h
    cases h
    exact ⟨k, .refl hz, consume_consumed hconsume⟩
  · by_cases hno : hasOption w.call.options WNOHANG
    · rw [if_pos hno] at h
      cases h
      exact ⟨k, .refl hz, .left⟩
    · rw [if_neg hno] at h
      obtain ⟨-, hk'⟩ := pure_pair h
      refine ⟨k', ?_, .left⟩
      rw [← hk']
      exact ⟨⟨.blocked, by simp, rfl⟩, rfl, rfl, rfl, rfl, rfl, rfl, rfl, rfl, rfl⟩

theorem waitidImpl_effect {caller : Caller} {call : WaitCall} {r : WaitResult}
    (hz : (k.thread t).state ≠ .zombie) (h : k.waitidImpl t caller call = .ok (r, k')) :
    ∃ k1, Slept k t k1 ∧ Consumed k1 k' := by
  have hleft : ∀ {r' : WaitResult}, (Except.ok (r', k) : Except Panic (WaitResult × Tree)) =
      .ok (r, k') → ∃ k1, Slept k t k1 ∧ Consumed k1 k' := by
    intro r' h
    cases h
    exact ⟨k, .refl hz, .left⟩
  unfold waitidImpl at h
  by_cases hopt : ¬hasOption call.options (WEXITED ||| WSTOPPED ||| WCONTINUED)
  · rw [if_pos hopt] at h
    exact hleft h
  · rw [if_neg hopt] at h
    simp only at h
    cases hid : call.idtype with
    | all =>
      simp only [hid] at h
      obtain ⟨cs, -, h⟩ := bind_ok h
      split_ifs at h
      · exact hleft h
      · exact look_effect hz h
    | pid =>
      simp only [hid] at h
      by_cases htable : ¬k.table call.id
      · rw [if_pos htable] at h
        exact hleft h
      · rw [if_neg htable] at h
        split_ifs at h
        · exact hleft h
        · exact look_effect hz h
    | pgid | other =>
      simp only [hid] at h
      exact hleft h

theorem waitStep_effect {op : Op} {result : Except Panic (WaitResult × Tree)} {r : WaitResult}
    (hz : (k.thread op.thread).state ≠ .zombie) (h : k.waitStep op = some result)
    (hr : result = .ok (r, k')) : ∃ k1, Slept k op.thread k1 ∧ Consumed k1 k' := by
  subst hr
  cases op with
  | waitid t call => exact waitidImpl_effect hz (Option.some.inj h)
  | wait4 t pid status options info =>
    have h := Option.some.inj h
    unfold wait4 at h
    split_ifs at h
    · cases h
      exact ⟨k, .refl hz, .left⟩
    · obtain ⟨call, -, h⟩ := bind_ok h
      obtain ⟨⟨r1, k1⟩, himpl, h⟩ := bind_ok h
      cases h
      exact waitidImpl_effect hz himpl
  | wakeUp t interrupted =>
    obtain ⟨w, -, h⟩ := Option.map_eq_some_iff.mp h
    unfold wakeUp at h
    have hwoken : Slept k t { k.updateThread t fun x => { x with state := .ready } with
        waiting := Function.update k.waiting t none } :=
      ⟨⟨.ready, by simp, rfl⟩, rfl, rfl, rfl, rfl, rfl, rfl, rfl, rfl, rfl⟩
    split_ifs at h
    · cases h
      exact ⟨_, hwoken, .left⟩
    · obtain ⟨⟨r1, k1⟩, hlook, h⟩ := bind_ok h
      cases h
      obtain ⟨k2, hslept, hconsumed⟩ := look_effect (by simp [updateThread]) hlook
      exact ⟨k2, hwoken.trans hslept, hconsumed⟩
  | _ => cases h

/-! ## All that agrees -/

/-- A change of a process that no list and no count shows. -/
def Slight (f : Process → Process) : Prop := ∀ x : Process,
  (f x).threadList = x.threadList ∧ (f x).numLivingThreads = x.numLivingThreads ∧
    (f x).parent = x.parent ∧ (f x).group = x.group ∧ (f x).isZombie = x.isZombie

theorem Slight.fields {f : Process → Process} (h : Slight f) (k : Tree) (p d : Pid) :
    ((k.updateProcess p f).process d).threadList = (k.process d).threadList ∧
      ((k.updateProcess p f).process d).numLivingThreads = (k.process d).numLivingThreads ∧
      ((k.updateProcess p f).process d).parent = (k.process d).parent ∧
      ((k.updateProcess p f).process d).group = (k.process d).group ∧
      ((k.updateProcess p f).process d).isZombie = (k.process d).isZombie := by
  by_cases hd : d = p
  · subst hd
    simpa [updateProcess] using h (k.process d)
  · simp [updateProcess, hd]

namespace System

/-- What the init process and the kernel process are is left alone. -/
theorem Roots.congr (hr : Roots k)
    (hown : (k'.process initProcess).group = (k.process initProcess).group)
    (hparent : (k'.process kernelProcess).parent = (k.process kernelProcess).parent)
    (hgroup : k'.group = k.group) (hnextGroup : k'.nextGroup = k.nextGroup)
    (hsession : k'.session = k.session) (hnextSession : k'.nextSession = k.nextSession) :
    Roots k' where
  own := hown.trans hr.own
  group := by
    rw [hgroup]
    exact hr.group
  session := by
    rw [hsession]
    exact hr.session
  nextGroup := by
    rw [hnextGroup]
    exact hr.nextGroup
  nextSession := by
    rw [hnextSession]
    exact hr.nextSession
  kernelParent := hparent.trans hr.kernelParent

section

variable (ha : Agrees k created alive children members)

include ha

theorem Agrees.slight {f : Process → Process} (h : Slight f) :
    Agrees (k.updateProcess p f) created alive children members where
  family := ha.family.congr rfl rfl rfl (fun d => (h.fields k p d).2.2.1)
    fun d => (h.fields k p d).2.2.2.1
  threads := ha.threads.congr (fun d => (h.fields k p d).1) (fun d => (h.fields k p d).2.1)
    (fun d => (h.fields k p d).2.2.2.2) (fun _ => rfl) (fun _ => Iff.rfl) rfl rfl
  roots := ha.roots.congr (h.fields k p _).2.2.2.1 (h.fields k p _).2.2.1 rfl rfl rfl rfl

theorem Agrees.slept (h : Slept k t k') (hz : (k.thread t).state ≠ .zombie) :
    Agrees k' created alive children members :=
  ⟨h.family ha.family, h.threads hz ha.threads, h.roots ha.roots⟩

theorem Agrees.markThread (htable : k.table t = true) (hz : (k.thread t).state ≠ .zombie)
    (hlast : (k.process (k.thread t).process).numLivingThreads ≠ 1) :
    Agrees (k.markThread t) created alive children members := by
  have hm := marked_markThread (k := k) (t := t) rfl
  have hfields : ∀ d, ((k.markThread t).process d).parent = (k.process d).parent ∧
      ((k.markThread t).process d).group = (k.process d).group := by
    intro d
    by_cases hd : d = (k.thread t).process
    · subst hd
      simp [markThread_process_self]
    · simp [markThread_process_of_ne hd]
  exact ⟨hm.family ha.family, ha.threads.markThread htable hz hlast,
    ha.roots.congr (hfields _).2 (hfields _).1 hm.group hm.nextGroup hm.session hm.nextSession⟩

/-- A process dies. -/
theorem Agrees.ended {signal : Option Signal} {children' : Pid → List Pid}
    {members' : GroupId → List Pid} (hf : Family k' created alive children' members')
    (h : Ended k p signal (children p) k') : Agrees k' created alive children' members' := by
  refine ⟨hf, h.threads ha.threads, ha.roots.congr ?_ ?_ h.groups h.nextGroup h.session
    h.nextSession⟩
  · rw [h.group]
    split_ifs <;> rfl
  · rw [h.parent, if_neg]
    intro hm
    exact ((ha.family.child _ _).mp hm).2.1.2 rfl

theorem Agrees.regrouped {members' : GroupId → List Pid} (hp : Ordinary p) (h : Regrouped k p g k')
    (hf : Family k' created alive children members') : Agrees k' created alive children members' :=
  ⟨hf, h.threads ha.threads, h.roots hp.1 ha.roots⟩

/-- A report uses up its child. -/
theorem Agrees.consumed (h : Consumed k k') :
    (∀ d, (k'.process d).threadList = (k.process d).threadList) ∧
        Agrees k' created alive children members ∨
      ∃ c children' members', Deleted k c k' ∧ alive c ∧ Ordinary c ∧
        (k.process c).isZombie = true ∧
        Agrees k' created (fun d => d ≠ c ∧ alive d) children' members' := by
  cases h with
  | left => exact .inl ⟨fun _ => rfl, ha⟩
  | cleared c =>
    have hs : Slight fun x => { x with waitCode := 0 } := fun x => ⟨rfl, rfl, rfl, rfl, rfl⟩
    exact .inl ⟨fun d => (hs.fields k c d).1, ha.slight hs⟩
  | @deleted c _ h =>
    obtain ⟨hc, ho, hz, hd, ⟨children', members', hf⟩, ht⟩ := ha.threads.destroyProcess ha.family h
    refine .inr ⟨c, children', members', hd, hc, ho, hz, hf, ht,
      ha.roots.congr ?_ ?_ hd.group hd.nextGroup hd.session hd.nextSession⟩
    · rw [hd.other _ ho.1.symm]
    · rw [hd.other _ ho.2.symm]

/-- What a report leaves of every process. -/
theorem Agrees.consumed_fields (h : Consumed k k') (d : Pid) :
    (k'.process d).group = (k.process d).group ∧ (k'.process d).parent = (k.process d).parent ∧
      (k'.process d).isZombie = (k.process d).isZombie ∧
      (k'.process d).waitStatus = (k.process d).waitStatus ∧
      ((k'.process d).waitCode = (k.process d).waitCode ∨
        (k.process d).isZombie = false ∧ (k'.process d).waitCode = 0) ∧ k'.group = k.group := by
  cases h with
  | left => exact ⟨rfl, rfl, rfl, rfl, .inl rfl, rfl⟩
  | cleared c hliving =>
    by_cases hd : d = c
    · subst hd
      simp [updateProcess, hliving]
    · simp [updateProcess, hd]
  | @deleted c _ h =>
    obtain ⟨-, -, -, hdel, -, -⟩ := ha.threads.destroyProcess ha.family h
    by_cases hd : d = c
    · subst hd
      rw [hdel.self]
      exact ⟨rfl, rfl, rfl, rfl, .inl rfl, hdel.group⟩
    · rw [hdel.other d hd]
      exact ⟨rfl, rfl, rfl, rfl, .inl rfl, hdel.group⟩

end

end System

end Functions

end Fishix.ProcessTree
