import Fishix.Process.Steps

/-!
# The wait calls on a good system

On a good system no wait call fails that looks at its own children: the lists can be walked, the
main threads are there, and a zombie can be deleted.

* `System.Agrees.childrenList`, `System.Agrees.report`: the walk over the children, and the report
  of one.
* `System.Agrees.waitidImpl_all`, `waitidImpl_pid`: which children a call looks at.
-/

namespace Fishix.ProcessTree

open Fishix.Sched (Panic orPanic assert Signal SIGCHLD orPanic_ok_iff assert_ok_iff)

/-! ## Options -/

theorem hasOption_or (options a b : BitVec 32) :
    hasOption options (a ||| b) = (hasOption options a || hasOption options b) := by
  unfold hasOption
  rw [BitVec.and_or_distrib_left]
  by_cases ha : options &&& a = 0#32 <;> simp [ha]

theorem mem_addChild {options : BitVec 32} {c d : Pid} :
    d ∈ Tree.addChild options c ↔
      d = c ∧ hasOption options (WEXITED ||| WSTOPPED ||| WCONTINUED) = true := by
  rw [hasOption_or, hasOption_or]
  unfold Tree.addChild
  by_cases h1 : hasOption options WEXITED <;> by_cases h2 : hasOption options WSTOPPED <;>
    by_cases h3 : hasOption options WCONTINUED <;> simp [h1, h2, h3]

/-! ## Deleting the threads -/

theorem deleteThreads_ok : ∀ {ts : List Tid} {k : Tree}, (∀ t ∈ ts, (k.thread t).state = .zombie) →
    ∃ k', ts.foldlM (fun k t => k.deleteThread t) k = .ok k'
  | [], k, _ => ⟨k, rfl⟩
  | t :: ts, k, hts => by
    have ht := hts t List.mem_cons_self
    have hdelete : k.deleteThread t = .ok
        { k.updateProcess (k.thread t).process fun x =>
            { x with threadList := x.threadList.erase t } with
          table := Function.update k.table t false } := by
      unfold Tree.deleteThread Tree.destroyThread
      rw [if_neg (by simpa using ht), assert_ok_iff.mpr (by simpa using ht), ok_bind]
      rfl
    rw [List.foldlM_cons, hdelete, ok_bind]
    exact deleteThreads_ok fun u hu => hts u (List.mem_cons_of_mem _ hu)

/-! ## Reports -/

/-- What a report says about a child (sched/sched.cpp:1103-1111). -/
def Tree.infoOf (k : Tree) (c : Pid) : Siginfo :=
  { pid := c, uid := (k.thread c).uid, signo := SIGCHLD
    status := (k.process c).waitStatus, code := (k.process c).waitCode }

/-- The first target with an event (sched/sched.cpp:1093-1099). -/
def Tree.firstEvent (k : Tree) (targets : List Pid) : Option Pid :=
  targets.find? fun c => (k.process c).waitCode ≠ 0

section Waits

variable {k k' : Tree} {created alive : Pid → Prop} {children : Pid → List Pid}
  {members : GroupId → List Pid} {c p q : Pid} {t : Tid} {caller : Caller} {call : WaitCall}
  {targets : List Pid}

theorem firstEvent_some (h : k.firstEvent targets = some c) :
    c ∈ targets ∧ (k.process c).waitCode ≠ 0 := by
  unfold Tree.firstEvent at h
  refine ⟨List.mem_of_find?_eq_some h, ?_⟩
  have hcode := List.find?_some h
  simpa using hcode

theorem firstEvent_none (h : k.firstEvent targets = none) (hc : c ∈ targets) :
    (k.process c).waitCode = 0 := by
  unfold Tree.firstEvent at h
  have hcode := List.find?_eq_none.mp h c hc
  simpa using hcode

/-- A target with an event is enough. -/
theorem firstEvent_isSome (hc : c ∈ targets) (hcode : (k.process c).waitCode ≠ 0) :
    ∃ d, k.firstEvent targets = some d := by
  cases h : k.firstEvent targets with
  | some d => exact ⟨d, rfl⟩
  | none => exact absurd (firstEvent_none h hc) hcode

theorem look_some {w : Waiting} (h : k.firstEvent w.targetChildren = some c) :
    k.look t w = k.report w.call c := by
  unfold Tree.look
  unfold Tree.firstEvent at h
  rw [h]

section

variable (ha : System.Agrees k created alive children members)

include ha

/-- A zombie can be deleted. -/
theorem System.Agrees.destroyProcess (hc : alive c) (ho : Ordinary c)
    (hz : (k.process c).isZombie = true) : ∃ k', k.destroyProcess c = .ok k' := by
  obtain ⟨q, hq⟩ := ha.family.parent c hc ho
  obtain ⟨g, hg⟩ := ha.family.group c hc ho
  obtain ⟨l1, hl1, -⟩ := ha.family.childRings.erase ((ha.family.child q c).mpr ⟨hc, ho, hq⟩)
  obtain ⟨l2, hl2, -⟩ := ha.family.groupRings.erase ((ha.family.member g c).mpr ⟨hc, ho, hg⟩)
  have hdead := livingThreads_eq_zero.mp ((ha.threads.zombie c hc ho.2).mp hz)
  obtain ⟨k', hk'⟩ := @deleteThreads_ok (k.process c).threadList
    { k with childLinks := l1, groupLinks := l2 } hdead
  refine ⟨k', ?_⟩
  unfold Tree.destroyProcess
  rw [assert_ok_iff.mpr hz, ok_bind, orPanic_ok_iff.mpr hl1, ok_bind, orPanic_ok_iff.mpr hl2,
    ok_bind]
  exact hk'

theorem System.Agrees.getMainThread (hc : alive c) (hk : c ≠ kernelProcess) :
    k.getMainThread c = .ok c := by
  unfold Tree.getMainThread
  rw [ha.threads.main c hc hk]
  simp [orPanic, assert]

theorem System.Agrees.mainThread (hc : alive c) (hk : c ≠ kernelProcess) :
    k.table c = true ∧ (k.thread c).process = c := by
  have hmem : c ∈ (k.process c).threadList :=
    List.mem_of_mem_head? (by rw [ha.threads.main c hc hk]; rfl)
  exact (ha.threads.mem c c).mp hmem

theorem System.Agrees.report (hc : alive c) (ho : Ordinary c) : ∃ k', k.report call c =
      .ok (.returned c (if call.infop then some (k.infoOf c) else none) none, k') := by
  have hwritten : k.writtenInfo call.infop c =
      .ok (if call.infop then some (k.infoOf c) else none) := by
    unfold Tree.writtenInfo Tree.siginfo
    rw [ha.getMainThread hc ho.2]
    by_cases hinfop : call.infop
    · simp [hinfop]
      rfl
    · simp [hinfop]
  have hconsume : ∃ k', k.consume call.options c = .ok k' := by
    unfold Tree.consume
    split_ifs with hnowait hz
    · exact ⟨k, rfl⟩
    · exact ha.destroyProcess hc ho hz
    · exact ⟨_, rfl⟩
  obtain ⟨k', hk'⟩ := hconsume
  refine ⟨k', ?_⟩
  unfold Tree.report
  rw [hwritten, ok_bind, hk', ok_bind]
  rfl

theorem System.Agrees.childrenList (hq : created q) : k.childrenList q = .ok (children q) := by
  have hlength : (children q).length ≤ k.nextTid := by
    have hnd := ha.family.childRings.nodup q
    have hsub : (children q).toFinset ⊆ Finset.range k.nextTid := by
      intro c hc
      rw [List.mem_toFinset] at hc
      have hcreated := ha.family.created_of_alive _ ((ha.family.child q c).mp hc).1
      exact Finset.mem_range.mpr (ha.threads.bound c hcreated)
    have hcard := Finset.card_le_card hsub
    rwa [List.toFinset_card_of_nodup hnd, Finset.card_range] at hcard
  unfold Tree.childrenList
  rw [walkRing_eq ha.family.childRings hq (Nat.lt_succ_of_le hlength)]
  rfl

end

/-! ## Calls -/

theorem System.Agrees.waitidImpl_all (ha : System.Agrees k created alive children members)
    (hq : created (k.thread t).process)
    (hopt : hasOption call.options (WEXITED ||| WSTOPPED ||| WCONTINUED) = true)
    (hid : call.idtype = .all) (hne : children (k.thread t).process ≠ []) :
    k.waitidImpl t caller call = k.look t
      ⟨caller, call, (children (k.thread t).process).flatMap (Tree.addChild call.options)⟩ := by
  unfold Tree.waitidImpl
  rw [if_neg (by simpa using hopt)]
  simp only [hid]
  rw [ha.childrenList hq, ok_bind, if_neg hne]

theorem waitidImpl_pid (hopt : hasOption call.options (WEXITED ||| WSTOPPED ||| WCONTINUED) = true)
    (hid : call.idtype = .pid) (htable : k.table call.id = true)
    (hparent : (k.process (k.thread call.id).process).parent = some (k.thread t).process) :
    k.waitidImpl t caller call = k.look t
      ⟨caller, call, Tree.addChild call.options (k.thread call.id).process⟩ := by
  unfold Tree.waitidImpl
  rw [if_neg (by simpa using hopt)]
  simp only [hid]
  rw [if_neg (by simpa using htable), if_neg (by simpa using hparent)]

end Waits

end Fishix.ProcessTree
