import Fishix.Process.Family

/-!
# Threads and the death of a process

`Threads`: the thread lists, the thread table and the counts of living threads agree. A process dies
with its last living thread, whichever way the threads end; `Ended` is what that leaves.

* `Threads.terminateProcess`, `Threads.lastThread`: the two ways to the end.
* `Threads.destroyProcess`: what is left of a deleted process.
-/

namespace Fishix.ProcessTree

open Fishix.Sched (Panic orPanic assert Signal SIGCHLD SIGCONT orPanic_ok_iff assert_ok_iff)

/-- The threads of `ts` that are not dead. -/
def livingThreads (k : Tree) (ts : List Tid) : ℕ :=
  (ts.filter fun t => (k.thread t).state ≠ .zombie).length

/-- The lists, the table and the counts agree. -/
structure Threads (k : Tree) (created alive : Pid → Prop) : Prop where
  mem : ∀ p t, t ∈ (k.process p).threadList ↔ k.table t = true ∧ (k.thread t).process = p
  nodup : ∀ p, (k.process p).threadList.Nodup
  owner : ∀ t, k.table t = true → alive (k.thread t).process ∧ t < k.nextTid
  main : ∀ p, alive p → p ≠ kernelProcess → (k.process p).threadList.head? = some p
  living : ∀ p, (k.process p).numLivingThreads = livingThreads k (k.process p).threadList
  zombie : ∀ p, alive p → p ≠ kernelProcess →
    ((k.process p).isZombie = true ↔ livingThreads k (k.process p).threadList = 0)
  bound : ∀ p, created p → p < k.nextTid

/-- A thread dies (sched/sched.cpp:658-662). -/
def Tree.markThread (k : Tree) (t : Tid) : Tree :=
  (k.updateThread t fun x => { x with state := .zombie }).updateProcess (k.thread t).process fun x =>
    { x with numLivingThreads := x.numLivingThreads - 1 }

/-- Several threads die. -/
def Tree.markThreads (k : Tree) (ts : List Tid) : Tree :=
  ts.foldl (fun k t => if (k.thread t).state = .zombie then k else k.markThread t) k

section Marks

variable {k k' : Tree} {t u : Tid} {p : Pid} {ts : List Tid} {signal : Option Signal}

theorem terminateThread_eq : k.terminateThread t signal =
    if (k.thread t).state = .zombie then .ok k
    else if ((k.markThread t).process (k.thread t).process).numLivingThreads = 0 then
      (k.markThread t).zombify (k.thread t).process signal
    else .ok (k.markThread t) := by
  have hp : ((k.updateThread t fun x => { x with state := .zombie }).thread t).process =
      (k.thread t).process := by
    simp [Tree.updateThread]
  unfold Tree.terminateThread Tree.markThread
  simp only [hp]

theorem markThread_thread_self : (k.markThread t).thread t = { k.thread t with state := .zombie } := by
  simp [Tree.markThread, Tree.updateThread, Tree.updateProcess]

theorem markThread_thread_of_ne (hu : u ≠ t) : (k.markThread t).thread u = k.thread u := by
  simp [Tree.markThread, Tree.updateThread, Tree.updateProcess, hu]

/-- A thread's process stays its own. -/
theorem markThread_thread_process : ((k.markThread t).thread u).process = (k.thread u).process := by
  by_cases hu : u = t
  · rw [hu, markThread_thread_self]
  · rw [markThread_thread_of_ne hu]

theorem markThread_process_self : (k.markThread t).process (k.thread t).process =
    { k.process (k.thread t).process with
      numLivingThreads := (k.process (k.thread t).process).numLivingThreads - 1 } := by
  simp [Tree.markThread, Tree.updateThread, Tree.updateProcess]

theorem markThread_process_of_ne (hp : p ≠ (k.thread t).process) :
    (k.markThread t).process p = k.process p := by
  simp [Tree.markThread, Tree.updateThread, Tree.updateProcess, hp]

/-- Only the states of the threads `ts` and the count of `p` differ. -/
structure Marked (k : Tree) (p : Pid) (ts : List Tid) (k' : Tree) : Prop where
  thread : ∀ u, k'.thread u = if u ∈ ts then { k.thread u with state := .zombie } else k.thread u
  process : ∃ n, k'.process = Function.update k.process p { k.process p with numLivingThreads := n }
  table : k'.table = k.table
  nextTid : k'.nextTid = k.nextTid
  group : k'.group = k.group
  nextGroup : k'.nextGroup = k.nextGroup
  session : k'.session = k.session
  nextSession : k'.nextSession = k.nextSession
  waiting : k'.waiting = k.waiting
  childLinks : k'.childLinks = k.childLinks
  groupLinks : k'.groupLinks = k.groupLinks

theorem marked_markThread (hp : (k.thread t).process = p) : Marked k p [t] (k.markThread t) := by
  subst hp
  refine ⟨?_, ⟨_, rfl⟩, rfl, rfl, rfl, rfl, rfl, rfl, rfl, rfl, rfl⟩
  intro u
  by_cases hu : u = t
  · subst hu
    simp [markThread_thread_self]
  · simp [markThread_thread_of_ne hu, hu]

theorem Marked.trans {k'' : Tree} {ts' : List Tid} (h : Marked k p ts k')
    (h' : Marked k' p ts' k'') : Marked k p (ts ++ ts') k'' := by
  obtain ⟨n, hn⟩ := h.process
  obtain ⟨n', hn'⟩ := h'.process
  refine ⟨?_, ⟨n', ?_⟩, h'.table.trans h.table, h'.nextTid.trans h.nextTid, h'.group.trans h.group,
    h'.nextGroup.trans h.nextGroup, h'.session.trans h.session, h'.nextSession.trans h.nextSession,
    h'.waiting.trans h.waiting, h'.childLinks.trans h.childLinks, h'.groupLinks.trans h.groupLinks⟩
  · intro u
    rw [h'.thread, h.thread]
    by_cases hu : u ∈ ts <;> by_cases hu' : u ∈ ts' <;> simp [hu, hu']
  · rw [hn', hn]
    simp

theorem marked_markThreads : ∀ {ts : List Tid} {k : Tree},
    (∀ t ∈ ts, (k.thread t).process = p) → Marked k p ts (k.markThreads ts)
  | [], k, _ => ⟨fun _ => by simp [Tree.markThreads], ⟨(k.process p).numLivingThreads, by
      simp [Tree.markThreads]⟩, rfl, rfl, rfl, rfl, rfl, rfl, rfl, rfl, rfl⟩
  | t :: ts, k, hts => by
    have ht := hts t List.mem_cons_self
    by_cases hz : (k.thread t).state = .zombie
    · have hstep : k.markThreads (t :: ts) = k.markThreads ts := by
        simp [Tree.markThreads, hz]
      have ih := marked_markThreads fun u hu => hts u (List.mem_cons_of_mem _ hu)
      rw [hstep]
      refine { ih with thread := ?_ }
      intro u
      rw [ih.thread]
      by_cases hu : u = t
      · subst hu
        have hsame : { k.thread u with state := ThreadState.zombie } = k.thread u := by
          rw [← hz]
        simp [hsame]
      · simp [hu]
    · have hstep : k.markThreads (t :: ts) = (k.markThread t).markThreads ts := by
        simp [Tree.markThreads, hz]
      have ih : Marked (k.markThread t) p ts ((k.markThread t).markThreads ts) :=
        marked_markThreads fun u hu => by
          rw [markThread_thread_process]
          exact hts u (List.mem_cons_of_mem _ hu)
      rw [hstep]
      exact (marked_markThread ht).trans ih

theorem livingThreads_cons (k : Tree) (t : Tid) (ts : List Tid) : livingThreads k (t :: ts) =
    (if (k.thread t).state = .zombie then 0 else 1) + livingThreads k ts := by
  unfold livingThreads
  by_cases hz : (k.thread t).state = .zombie
  · simp [hz]
  · simp [hz, Nat.add_comm]

theorem livingThreads_congr (h : ∀ t ∈ ts, (k'.thread t).state = (k.thread t).state) :
    livingThreads k' ts = livingThreads k ts := by
  unfold livingThreads
  congr 1
  apply List.filter_congr
  intro t ht
  rw [h t ht]

/-- No thread lives. -/
theorem livingThreads_eq_zero : livingThreads k ts = 0 ↔ ∀ t ∈ ts, (k.thread t).state = .zombie := by
  unfold livingThreads
  rw [List.length_eq_zero_iff, List.filter_eq_nil_iff]
  simp

/-- Dead threads stay as they are. -/
theorem markThreads_of_dead (h : ∀ t ∈ ts, (k.thread t).state = .zombie) : k.markThreads ts = k := by
  induction ts with
  | nil => rfl
  | cons t ts ih =>
    have hstep : k.markThreads (t :: ts) = k.markThreads ts := by
      simp [Tree.markThreads, h t List.mem_cons_self]
    rw [hstep, ih fun u hu => h u (List.mem_cons_of_mem _ hu)]

theorem terminate_dead (h : ∀ t ∈ ts, (k.thread t).state = .zombie) :
    ts.foldlM (fun k t => k.terminateThread t signal) k = .ok k := by
  induction ts with
  | nil => rfl
  | cons t ts ih =>
    rw [List.foldlM_cons, terminateThread_eq, if_pos (h t List.mem_cons_self), ok_bind]
    exact ih fun u hu => h u (List.mem_cons_of_mem _ hu)

theorem setParent_thread {c q : Pid} (h : k.setParent c q = .ok k') : k'.thread = k.thread := by
  unfold Tree.setParent at h
  obtain ⟨l1, -, h⟩ := bind_ok h
  obtain ⟨l2, -, h⟩ := bind_ok h
  obtain ⟨g, -, h⟩ := bind_ok h
  unfold Tree.addProcess at h
  obtain ⟨l3, -, h⟩ := bind_ok h
  obtain ⟨l4, -, rfl⟩ := bind_pure_ok h
  rfl

theorem adoptLoop_thread : ∀ {turns : ℕ} {k : Tree} {pos next : ListNode Pid Pid},
    Tree.adoptLoop p turns k pos next = .ok k' → k'.thread = k.thread
  | 0, _, _, _, h => by cases h
  | turns + 1, k, pos, next, h => by
    cases pos with
    | head q =>
      simp only [Tree.adoptLoop] at h
      split_ifs at h
      rw [Except.ok.inj h]
    | link c =>
      simp only [Tree.adoptLoop] at h
      obtain ⟨k1, h1, h⟩ := bind_ok h
      obtain ⟨next', -, h⟩ := bind_ok h
      rw [adoptLoop_thread h, setParent_thread h1]

theorem zombify_thread (h : k.zombify p signal = .ok k') : k'.thread = k.thread := by
  unfold Tree.zombify at h
  split_ifs at h
  obtain ⟨pos, -, h⟩ := bind_ok h
  obtain ⟨next, -, h⟩ := bind_ok h
  obtain ⟨k1, hloop, h⟩ := bind_ok h
  obtain ⟨parent, -, h⟩ := bind_ok h
  obtain ⟨_, -, rfl⟩ := bind_pure_ok h
  have hthread := adoptLoop_thread hloop
  exact hthread

theorem livingThreads_markThread {ts : List Tid} {k : Tree} (hnot : t ∉ ts) :
    livingThreads (k.markThread t) ts = livingThreads k ts := by
  apply livingThreads_congr
  intro u hu
  rw [markThread_thread_of_ne (by rintro rfl; exact hnot hu)]

/-- `terminate_process` ends the threads one after the other, and the process with the last. -/
theorem terminateThreads_eq : ∀ {ts : List Tid} {k : Tree}, ts.Nodup →
    (∀ t ∈ ts, (k.thread t).process = p) →
    (k.process p).numLivingThreads = livingThreads k ts → livingThreads k ts ≠ 0 →
    ts.foldlM (fun k t => k.terminateThread t signal) k = .ok k' →
    (k.markThreads ts).zombify p signal = .ok k'
  | [], k, _, _, _, hne, _ => absurd rfl hne
  | t :: ts, k, hnd, hts, hcount, hne, h => by
    obtain ⟨hnot, hnd'⟩ := List.nodup_cons.mp hnd
    have ht := hts t List.mem_cons_self
    have hts' : ∀ u ∈ ts, (k.thread u).process = p := fun u hu => hts u (List.mem_cons_of_mem _ hu)
    rw [List.foldlM_cons, terminateThread_eq] at h
    rw [livingThreads_cons] at hcount hne
    by_cases hz : (k.thread t).state = .zombie
    · have hstep : k.markThreads (t :: ts) = k.markThreads ts := by
        simp [Tree.markThreads, hz]
      rw [if_pos hz, Nat.zero_add] at hcount hne
      rw [if_pos hz, ok_bind] at h
      rw [hstep]
      exact terminateThreads_eq hnd' hts' hcount hne h
    · have hstep : k.markThreads (t :: ts) = (k.markThread t).markThreads ts := by
        simp [Tree.markThreads, hz]
      have hrest := livingThreads_markThread (k := k) hnot
      have hnum : ((k.markThread t).process p).numLivingThreads = livingThreads k ts := by
        rw [← ht, markThread_process_self]
        rw [if_neg hz] at hcount
        simp only [ht, hcount]
        omega
      rw [if_neg hz, ht] at h
      rw [hstep]
      split_ifs at h with hlast
      · -- the last living thread: the others are dead
        have hdead : ∀ u ∈ ts, ((k.markThread t).thread u).state = .zombie := by
          rw [← livingThreads_eq_zero, hrest]
          omega
        obtain ⟨k1, hzombify, h⟩ := bind_ok h
        have hthread := zombify_thread hzombify
        rw [terminate_dead fun u hu => by rw [hthread]; exact hdead u hu] at h
        obtain rfl := Except.ok.inj h
        rw [markThreads_of_dead hdead]
        exact hzombify
      · rw [ok_bind] at h
        apply terminateThreads_eq hnd' ?_ ?_ ?_ h
        · intro u hu
          rw [markThread_thread_process]
          exact hts' u hu
        · rw [hrest]
          exact hnum
        · rw [hrest]
          omega

theorem markThreads_living : ∀ {ts : List Tid} {k : Tree}, ts.Nodup →
    (∀ t ∈ ts, (k.thread t).process = p) →
    ((k.markThreads ts).process p).numLivingThreads =
      (k.process p).numLivingThreads - livingThreads k ts
  | [], k, _, _ => by simp [Tree.markThreads, livingThreads]
  | t :: ts, k, hnd, hts => by
    obtain ⟨hnot, hnd'⟩ := List.nodup_cons.mp hnd
    have ht := hts t List.mem_cons_self
    have hts' : ∀ u ∈ ts, (k.thread u).process = p := fun u hu => hts u (List.mem_cons_of_mem _ hu)
    rw [livingThreads_cons]
    by_cases hz : (k.thread t).state = .zombie
    · have hstep : k.markThreads (t :: ts) = k.markThreads ts := by
        simp [Tree.markThreads, hz]
      rw [hstep, markThreads_living hnd' hts', if_pos hz, Nat.zero_add]
    · have hstep : k.markThreads (t :: ts) = (k.markThread t).markThreads ts := by
        simp [Tree.markThreads, hz]
      have hrest := livingThreads_markThread (k := k) hnot
      have ih := markThreads_living hnd' (k := k.markThread t) fun u hu => by
        rw [markThread_thread_process]
        exact hts' u hu
      rw [hstep, ih, hrest, if_neg hz, ← ht, markThread_process_self]
      push_cast
      ring

end Marks

/-! ## The end of a process -/

/-- The process `p`, with the children `cs`, has died. -/
structure Ended (k : Tree) (p : Pid) (signal : Option Signal) (cs : List Pid) (k' : Tree) :
    Prop where
  threadProcess : ∀ u, (k'.thread u).process = (k.thread u).process
  threadState : ∀ u, (k'.thread u).state =
    if u ∈ (k.process p).threadList then .zombie else (k.thread u).state
  threadList : ∀ d, (k'.process d).threadList = (k.process d).threadList
  livingSelf : (k'.process p).numLivingThreads = 0
  living : ∀ d, d ≠ p → (k'.process d).numLivingThreads = (k.process d).numLivingThreads
  isZombie : ∀ d, (k'.process d).isZombie = if d = p then true else (k.process d).isZombie
  waitSelf : (k'.process p).waitStatus = (match signal with
      | none => (k.process p).waitStatus
      | some signal => signal) ∧
    (k'.process p).waitCode = match signal with
      | none => (k.process p).waitCode
      | some _ => CLD_KILLED
  wait : ∀ d, d ≠ p → (k'.process d).waitStatus = (k.process d).waitStatus ∧
    (k'.process d).waitCode = (k.process d).waitCode
  parent : ∀ d, (k'.process d).parent =
    if d ∈ cs then some initProcess else (k.process d).parent
  group : ∀ d, (k'.process d).group =
    if d ∈ cs then (k.process initProcess).group else (k.process d).group
  table : k'.table = k.table
  nextTid : k'.nextTid = k.nextTid
  groups : k'.group = k.group
  nextGroup : k'.nextGroup = k.nextGroup
  session : k'.session = k.session
  nextSession : k'.nextSession = k.nextSession
  waiting : k'.waiting = k.waiting

section Ended

variable {k k0 k' : Tree} {created alive : Pid → Prop} {children : Pid → List Pid}
  {members : GroupId → List Pid} {p : Pid} {t : Tid} {ts : List Tid} {signal : Option Signal}

theorem Marked.process_of_ne (h : Marked k p ts k') {d : Pid} (hd : d ≠ p) :
    k'.process d = k.process d := by
  obtain ⟨n, hn⟩ := h.process
  rw [hn, Function.update_of_ne hd]

theorem Marked.process_self (h : Marked k p ts k') :
    ∃ n, k'.process p = { k.process p with numLivingThreads := n } := by
  obtain ⟨n, hn⟩ := h.process
  exact ⟨n, by rw [hn, Function.update_self]⟩

/-- Dead threads are still children and members. -/
theorem Marked.family (h : Marked k p ts k')
    (hf : Family k created alive children members) : Family k' created alive children members := by
  have hfields : ∀ c, (k'.process c).parent = (k.process c).parent ∧
      (k'.process c).group = (k.process c).group := by
    intro c
    by_cases hc : c = p
    · subst hc
      obtain ⟨n, hn⟩ := h.process_self
      rw [hn]
      exact ⟨rfl, rfl⟩
    · rw [h.process_of_ne hc]
      exact ⟨rfl, rfl⟩
  exact hf.congr h.childLinks h.groupLinks h.nextGroup (fun c => (hfields c).1)
    fun c => (hfields c).2

theorem markDead_process_of_ne {d : Pid} (hd : d ≠ p) :
    (k.markDead p signal).process d = k.process d := by
  simp [Tree.markDead, Tree.updateProcess, hd]

theorem markDead_fields (k : Tree) (p : Pid) (signal : Option Signal) :
    ((k.markDead p signal).process p).threadList = (k.process p).threadList ∧
      ((k.markDead p signal).process p).numLivingThreads = (k.process p).numLivingThreads ∧
      ((k.markDead p signal).process p).parent = (k.process p).parent ∧
      ((k.markDead p signal).process p).group = (k.process p).group ∧
      ((k.markDead p signal).process p).isZombie = true ∧
      ((k.markDead p signal).process p).waitStatus = (match signal with
        | none => (k.process p).waitStatus
        | some signal => signal) ∧
      ((k.markDead p signal).process p).waitCode = match signal with
        | none => (k.process p).waitCode
        | some _ => CLD_KILLED := by
  cases signal <;> simp [Tree.markDead, Tree.updateProcess]

/-- What an adoption leaves alone. -/
theorem Adopted.kept {cs : List Pid} (h : Adopted k cs k') (d : Pid) :
    (k'.process d).threadList = (k.process d).threadList ∧
      (k'.process d).numLivingThreads = (k.process d).numLivingThreads ∧
      (k'.process d).isZombie = (k.process d).isZombie ∧
      (k'.process d).waitStatus = (k.process d).waitStatus ∧
      (k'.process d).waitCode = (k.process d).waitCode := by
  by_cases hd : d ∈ cs
  · rw [h.mem d hd]
    exact ⟨rfl, rfl, rfl, rfl, rfl⟩
  · rw [h.notMem d hd]
    exact ⟨rfl, rfl, rfl, rfl, rfl⟩

theorem Family.ended (hf : Family k created alive children members) (hp : created p)
    (hm : Marked k p ts k0) (hts : ∀ u ∈ ts, u ∈ (k.process p).threadList)
    (hdead : ∀ u ∈ (k.process p).threadList, u ∉ ts → (k.thread u).state = .zombie)
    (hnum : (k0.process p).numLivingThreads = 0) (h : k0.zombify p signal = .ok k') :
    p ≠ initProcess ∧ ∃ children' members', Family k' created alive children' members' ∧
      children' p = [] ∧ Ended k p signal (children p) k' := by
  obtain ⟨hinit, children', members', hf', hnil, hadopted⟩ := (hm.family hf).zombify hp h
  refine ⟨hinit, children', members', hf', hnil, ?_⟩
  obtain ⟨n, hself⟩ := hm.process_self
  have hkept := hadopted.kept
  have hmark := markDead_fields k0 p signal
  have hother : ∀ d, d ≠ p → (k0.markDead p signal).process d = k.process d := by
    intro d hd
    rw [markDead_process_of_ne hd, hm.process_of_ne hd]
  have hinitGroup : ((k0.markDead p signal).process initProcess).group =
      (k.process initProcess).group := by
    rw [hother _ hinit.symm]
  have hthread : k'.thread = k0.thread := hadopted.thread
  refine ⟨?_, ?_, ?_, ?_, ?_, ?_, ?_, ?_, ?_, ?_, hadopted.table.trans hm.table,
    hadopted.nextTid.trans hm.nextTid, Still.group hadopted.toStill |>.trans hm.group,
    hadopted.nextGroup.trans hm.nextGroup, hadopted.session.trans hm.session,
    hadopted.nextSession.trans hm.nextSession, hadopted.waiting.trans hm.waiting⟩
  · intro u
    rw [hthread, hm.thread]
    split_ifs <;> rfl
  · intro u
    rw [hthread, hm.thread]
    by_cases hu : u ∈ ts
    · rw [if_pos hu, if_pos (hts u hu)]
    · rw [if_neg hu]
      split_ifs with hmem
      · exact hdead u hmem hu
      · rfl
  · intro d
    rw [(hkept d).1]
    by_cases hd : d = p
    · subst hd
      rw [hmark.1, hself]
    · rw [hother d hd]
  · rw [(hkept p).2.1, hmark.2.1, hnum]
  · intro d hd
    rw [(hkept d).2.1, hother d hd]
  · intro d
    rw [(hkept d).2.2.1]
    split_ifs with hd
    · subst hd
      exact hmark.2.2.2.2.1
    · rw [hother d hd]
  · rw [(hkept p).2.2.2.1, (hkept p).2.2.2.2, hmark.2.2.2.2.2.1, hmark.2.2.2.2.2.2, hself]
    exact ⟨rfl, rfl⟩
  · intro d hd
    rw [(hkept d).2.2.2.1, (hkept d).2.2.2.2, hother d hd]
    exact ⟨rfl, rfl⟩
  · intro d
    split_ifs with hd
    · rw [hadopted.mem d hd]
    · rw [hadopted.notMem d hd]
      by_cases hdp : d = p
      · subst hdp
        rw [hmark.2.2.1, hself]
      · rw [hother d hdp]
  · intro d
    split_ifs with hd
    · rw [hadopted.mem d hd]
      exact hinitGroup
    · rw [hadopted.notMem d hd]
      by_cases hdp : d = p
      · subst hdp
        rw [hmark.2.2.2.1, hself]
      · rw [hother d hdp]

/-- Which threads are dead, and whose they are, is all that counts. -/
theorem livingThreads_congr' (h : ∀ t ∈ ts, (k'.thread t).state = .zombie ↔
    (k.thread t).state = .zombie) : livingThreads k' ts = livingThreads k ts := by
  unfold livingThreads
  congr 1
  apply List.filter_congr
  intro t ht
  simp [h t ht]

theorem Threads.congr (ht : Threads k created alive)
    (hlist : ∀ p, (k'.process p).threadList = (k.process p).threadList)
    (hliving : ∀ p, (k'.process p).numLivingThreads = (k.process p).numLivingThreads)
    (hzombie : ∀ p, (k'.process p).isZombie = (k.process p).isZombie)
    (hprocess : ∀ t, (k'.thread t).process = (k.thread t).process)
    (hstate : ∀ t, (k'.thread t).state = .zombie ↔ (k.thread t).state = .zombie)
    (htable : k'.table = k.table) (hnext : k'.nextTid = k.nextTid) :
    Threads k' created alive where
  mem := fun p t => by rw [hlist, htable, hprocess, ht.mem]
  nodup := fun p => by
    rw [hlist]
    exact ht.nodup p
  owner := fun t h => by
    rw [htable] at h
    rw [hprocess, hnext]
    exact ht.owner t h
  main := fun p hp hk => by
    rw [hlist]
    exact ht.main p hp hk
  living := fun p => by
    rw [hliving, hlist, ht.living, livingThreads_congr' fun t _ => hstate t]
  zombie := fun p hp hk => by
    rw [hzombie, hlist, livingThreads_congr' fun t _ => hstate t]
    exact ht.zombie p hp hk
  bound := fun p hp => by
    rw [hnext]
    exact ht.bound p hp

theorem Ended.threads {cs : List Pid} (he : Ended k p signal cs k')
    (ht : Threads k created alive) : Threads k' created alive := by
  have hself : livingThreads k' (k.process p).threadList = 0 := by
    rw [livingThreads_eq_zero]
    intro u hu
    rw [he.threadState, if_pos hu]
  have hother : ∀ d, d ≠ p → livingThreads k' (k.process d).threadList =
      livingThreads k (k.process d).threadList := by
    intro d hd
    apply livingThreads_congr
    intro u hu
    rw [he.threadState, if_neg]
    intro hup
    exact hd (((ht.mem d u).mp hu).2.symm.trans ((ht.mem p u).mp hup).2)
  refine ⟨?_, ?_, ?_, ?_, ?_, ?_, ?_⟩
  · intro d u
    rw [he.threadList, he.table, he.threadProcess, ht.mem]
  · intro d
    rw [he.threadList]
    exact ht.nodup d
  · intro u hu
    rw [he.table] at hu
    rw [he.threadProcess, he.nextTid]
    exact ht.owner u hu
  · intro d hd hk
    rw [he.threadList]
    exact ht.main d hd hk
  · intro d
    rw [he.threadList]
    by_cases hd : d = p
    · subst hd
      rw [he.livingSelf, hself]
      rfl
    · rw [he.living d hd, hother d hd, ht.living]
  · intro d hd hk
    rw [he.threadList, he.isZombie]
    by_cases hdp : d = p
    · subst hdp
      simp [hself]
    · rw [if_neg hdp, hother d hdp]
      exact ht.zombie d hd hk
  · intro d hd
    rw [he.nextTid]
    exact ht.bound d hd

theorem livingThreads_pos (hmem : t ∈ (k.process p).threadList)
    (hz : (k.thread t).state ≠ .zombie) : livingThreads k (k.process p).threadList ≠ 0 := by
  intro hzero
  exact hz (livingThreads_eq_zero.mp hzero t hmem)

theorem Threads.terminateProcess (ht : Threads k created alive)
    (hf : Family k created alive children members) (hp : created p)
    (hliving : livingThreads k (k.process p).threadList ≠ 0)
    (h : k.terminateProcess p signal = .ok k') :
    p ≠ initProcess ∧ ∃ children' members', Family k' created alive children' members' ∧
      children' p = [] ∧ Ended k p signal (children p) k' := by
  have howner : ∀ t ∈ (k.process p).threadList, (k.thread t).process = p :=
    fun t hmem => ((ht.mem p t).mp hmem).2
  have hzombify := terminateThreads_eq (ht.nodup p) howner (ht.living p) hliving h
  have hmarked := marked_markThreads (k := k) howner
  apply hf.ended hp hmarked (fun _ hu => hu) (fun u hu hnot => absurd hu hnot) ?_ hzombify
  rw [markThreads_living (ht.nodup p) howner, ht.living]
  simp

theorem Threads.lastThread (ht : Threads k created alive)
    (hf : Family k created alive children members) (hp : created (k.thread t).process)
    (htable : k.table t = true) (hz : (k.thread t).state ≠ .zombie)
    (hlast : (k.process (k.thread t).process).numLivingThreads = 1)
    (h : k.terminateThread t signal = .ok k') :
    (k.thread t).process ≠ initProcess ∧ ∃ children' members',
      Family k' created alive children' members' ∧ children' (k.thread t).process = [] ∧
        Ended k (k.thread t).process signal (children (k.thread t).process) k' := by
  have hmem : t ∈ (k.process (k.thread t).process).threadList := (ht.mem _ t).mpr ⟨htable, rfl⟩
  have hnum : ((k.markThread t).process (k.thread t).process).numLivingThreads = 0 := by
    rw [markThread_process_self]
    simp only [hlast]
    rfl
  rw [terminateThread_eq, if_neg hz, if_pos hnum] at h
  apply hf.ended hp (marked_markThread rfl) ?_ ?_ hnum h
  · intro u hu
    rw [List.mem_singleton] at hu
    subst hu
    exact hmem
  · intro u hu hne
    -- there is one living thread
    have hcount := ht.living (k.thread t).process
    rw [hlast] at hcount
    by_contra hzu
    obtain ⟨x, hx⟩ := List.length_eq_one_iff.mp (Nat.cast_injective hcount).symm
    have hliving : ∀ v, v ∈ (k.process (k.thread t).process).threadList →
        (k.thread v).state ≠ .zombie → v = x := by
      intro v hv hvz
      have hmem : v ∈ [x] := by
        rw [← hx, List.mem_filter]
        exact ⟨hv, by simpa using hvz⟩
      simpa using hmem
    apply hne
    rw [hliving u hu hzu, hliving t hmem hz]
    exact List.mem_singleton_self x

theorem terminateThread_other
    (hz : (k.thread t).state ≠ .zombie)
    (hlast : (k.process (k.thread t).process).numLivingThreads ≠ 1)
    (h : k.terminateThread t signal = .ok k') : k' = k.markThread t := by
  have hnum : ((k.markThread t).process (k.thread t).process).numLivingThreads ≠ 0 := by
    rw [markThread_process_self]
    simp only
    omega
  rw [terminateThread_eq, if_neg hz, if_neg hnum] at h
  exact (Except.ok.inj h).symm

theorem Threads.markThread (ht : Threads k created alive) (htable : k.table t = true)
    (hz : (k.thread t).state ≠ .zombie)
    (hlast : (k.process (k.thread t).process).numLivingThreads ≠ 1) :
    Threads (k.markThread t) created alive := by
  generalize hp : (k.thread t).process = p at hlast
  have hm : Marked k p [t] (k.markThread t) := marked_markThread hp
  have hmem : t ∈ (k.process p).threadList := (ht.mem p t).mpr ⟨htable, hp⟩
  have hlist : ∀ d, ((k.markThread t).process d).threadList = (k.process d).threadList := by
    intro d
    by_cases hd : d = p
    · subst hd
      obtain ⟨n, hn⟩ := hm.process_self
      rw [hn]
    · rw [hm.process_of_ne hd]
  have hzombie : ∀ d, ((k.markThread t).process d).isZombie = (k.process d).isZombie := by
    intro d
    by_cases hd : d = p
    · subst hd
      obtain ⟨n, hn⟩ := hm.process_self
      rw [hn]
    · rw [hm.process_of_ne hd]
  have hother : ∀ d, d ≠ p → livingThreads (k.markThread t) (k.process d).threadList =
      livingThreads k (k.process d).threadList := by
    intro d hd
    apply livingThreads_congr
    intro u hu
    rw [markThread_thread_of_ne]
    rintro rfl
    exact hd (((ht.mem d u).mp hu).2.symm.trans hp)
  have hself : livingThreads (k.markThread t) (k.process p).threadList + 1 =
      livingThreads k (k.process p).threadList := by
    obtain ⟨xs, ys, hsplit⟩ := List.append_of_mem hmem
    have hnd := ht.nodup p
    rw [hsplit] at hnd ⊢
    have hnot : t ∉ xs ++ ys := by
      rw [List.nodup_middle] at hnd
      exact (List.nodup_cons.mp hnd).1
    have hsame : ∀ zs : List Tid, (∀ u ∈ zs, u ∈ xs ++ ys) →
        livingThreads (k.markThread t) zs = livingThreads k zs := by
      intro zs hzs
      apply livingThreads_congr
      intro u hu
      rw [markThread_thread_of_ne]
      rintro rfl
      exact hnot (hzs u hu)
    have happ : ∀ k : Tree, livingThreads k (xs ++ t :: ys) =
        livingThreads k xs + livingThreads k (t :: ys) := by
      intro k
      simp [livingThreads]
    rw [happ, happ, livingThreads_cons, livingThreads_cons, if_neg hz, markThread_thread_self,
      if_pos rfl, hsame xs fun u hu => List.mem_append_left _ hu,
      hsame ys fun u hu => List.mem_append_right _ hu]
    omega
  refine ⟨?_, ?_, ?_, ?_, ?_, ?_, ?_⟩
  · intro d u
    rw [hlist, hm.table, markThread_thread_process, ht.mem]
  · intro d
    rw [hlist]
    exact ht.nodup d
  · intro u hu
    rw [hm.table] at hu
    rw [markThread_thread_process, hm.nextTid]
    exact ht.owner u hu
  · intro d hd hk
    rw [hlist]
    exact ht.main d hd hk
  · intro d
    rw [hlist]
    by_cases hd : d = p
    · subst hd
      have hliving := ht.living (k.thread t).process
      rw [← hp, markThread_process_self]
      simp only [hliving]
      rw [hp, ← hself]
      push_cast
      ring
    · rw [hm.process_of_ne hd, hother d hd, ht.living]
  · intro d hd hk
    rw [hlist, hzombie]
    by_cases hdp : d = p
    · subst hdp
      have hliving := ht.living d
      have hiff := ht.zombie d hd hk
      rw [hiff]
      omega
    · rw [hother d hdp]
      exact ht.zombie d hd hk
  · intro d hd
    rw [hm.nextTid]
    exact ht.bound d hd

end Ended

/-! ## New threads -/

/-- The process `p` has a new thread with the next number. -/
structure Born (k : Tree) (p : Pid) (k' : Tree) : Prop where
  list : (k'.process p).threadList = (k.process p).threadList ++ [k.nextTid]
  living : (k'.process p).numLivingThreads = (k.process p).numLivingThreads + 1
  isZombie : (k'.process p).isZombie = false
  other : ∀ d, d ≠ p → (k'.process d).threadList = (k.process d).threadList ∧
    (k'.process d).numLivingThreads = (k.process d).numLivingThreads ∧
    (k'.process d).isZombie = (k.process d).isZombie
  thread : (k'.thread k.nextTid).process = p ∧ (k'.thread k.nextTid).state ≠ .zombie
  threadOther : ∀ u, u ≠ k.nextTid → k'.thread u = k.thread u
  table : ∀ u, k'.table u = if u = k.nextTid then true else k.table u
  nextTid : k'.nextTid = k.nextTid + 1

theorem Born.threads {k k' : Tree} {created created' alive alive' : Pid → Prop} {p : Pid}
    (hb : Born k p k') (ht : Threads k created alive) (hp : alive p ∨ p = k.nextTid)
    (halive : ∀ d, alive' d ↔ d = p ∨ alive d)
    (hcreated : ∀ d, created' d → d = k.nextTid ∨ created d)
    (hempty : p = k.nextTid → (k.process p).threadList = []) (hpk : p ≠ kernelProcess) :
    Threads k' created' alive' := by
  have hfresh : ∀ u, k.table u = true → u ≠ k.nextTid := fun u hu => Nat.ne_of_lt (ht.owner u hu).2
  have hnot : ∀ d, k.nextTid ∉ (k.process d).threadList := fun d hm =>
    hfresh _ ((ht.mem d _).mp hm).1 rfl
  have hsame : ∀ d, livingThreads k' (k.process d).threadList =
      livingThreads k (k.process d).threadList := by
    intro d
    apply livingThreads_congr
    intro u hu
    rw [hb.threadOther u]
    rintro rfl
    exact hnot d hu
  have hself : livingThreads k' (k'.process p).threadList =
      livingThreads k (k.process p).threadList + 1 := by
    rw [hb.list, ← hsame p]
    simp [livingThreads, List.filter_append, hb.thread.2]
  refine ⟨?_, ?_, ?_, ?_, ?_, ?_, ?_⟩
  · intro d u
    rw [hb.table]
    by_cases hu : u = k.nextTid
    · subst hu
      rw [if_pos rfl, hb.thread.1]
      by_cases hd : d = p
      · subst hd
        simp [hb.list]
      · rw [(hb.other d hd).1]
        simp [hnot d, Ne.symm hd]
    · rw [if_neg hu, hb.threadOther u hu]
      by_cases hd : d = p
      · subst hd
        simp [hb.list, hu, ht.mem]
      · rw [(hb.other d hd).1, ht.mem]
  · intro d
    by_cases hd : d = p
    · subst hd
      rw [hb.list, List.nodup_append]
      refine ⟨ht.nodup d, by simp, ?_⟩
      intro a ha b hb
      rw [List.mem_singleton] at hb
      subst hb
      rintro rfl
      exact hnot d ha
    · rw [(hb.other d hd).1]
      exact ht.nodup d
  · intro u hu
    rw [hb.nextTid]
    by_cases hun : u = k.nextTid
    · subst hun
      rw [hb.thread.1]
      exact ⟨(halive p).mpr (.inl rfl), Nat.lt_succ_self _⟩
    · rw [hb.table, if_neg hun] at hu
      rw [hb.threadOther u hun]
      obtain ⟨ha, hlt⟩ := ht.owner u hu
      exact ⟨(halive _).mpr (.inr ha), Nat.lt_succ_of_lt hlt⟩
  · intro d hd hk
    by_cases hdp : d = p
    · subst hdp
      rw [hb.list]
      rcases hp with hp | hp
      · rw [List.head?_append_of_ne_nil]
        · exact ht.main d hp hk
        · intro hnil
          have hmain := ht.main d hp hk
          rw [hnil] at hmain
          cases hmain
      · rw [hempty hp, hp]
        rfl
    · rw [(hb.other d hdp).1]
      exact ht.main d (((halive d).mp hd).resolve_left hdp) hk
  · intro d
    by_cases hd : d = p
    · subst hd
      rw [hself, hb.living, ht.living]
      push_cast
      ring
    · rw [(hb.other d hd).1, (hb.other d hd).2.1, hsame, ht.living]
  · intro d hd hk
    by_cases hdp : d = p
    · subst hdp
      rw [hself, hb.isZombie]
      simp
    · rw [(hb.other d hdp).1, (hb.other d hdp).2.2, hsame]
      exact ht.zombie d (((halive d).mp hd).resolve_left hdp) hk
  · intro d hd
    rw [hb.nextTid]
    rcases hcreated d hd with rfl | hd
    · exact Nat.lt_succ_self _
    · exact Nat.lt_succ_of_lt (ht.bound d hd)

/-! ## Deleting a process -/

/-- The process `p` has been deleted. -/
structure Deleted (k : Tree) (p : Pid) (k' : Tree) : Prop where
  other : ∀ d, d ≠ p → k'.process d = k.process d
  self : k'.process p = { k.process p with threadList := [] }
  thread : k'.thread = k.thread
  table : ∀ u, k'.table u = if u ∈ (k.process p).threadList then false else k.table u
  nextTid : k'.nextTid = k.nextTid
  group : k'.group = k.group
  nextGroup : k'.nextGroup = k.nextGroup
  session : k'.session = k.session
  nextSession : k'.nextSession = k.nextSession
  waiting : k'.waiting = k.waiting

section Deleted

variable {k k' : Tree} {created alive : Pid → Prop} {children : Pid → List Pid}
  {members : GroupId → List Pid} {p : Pid} {t : Tid} {ts : List Tid}

/-- The dead threads of a process are deleted one after the other. -/
theorem deleteThreads_eq : ∀ {ts : List Tid} {k : Tree}, (k.process p).threadList = ts →
    (∀ t ∈ ts, (k.thread t).process = p ∧ (k.thread t).state = .zombie) →
    ts.foldlM (fun k t => k.deleteThread t) k = .ok k' →
    Deleted k p k' ∧ k'.childLinks = k.childLinks ∧ k'.groupLinks = k.groupLinks
  | [], k, hlist, _, h => by
    obtain rfl := Except.ok.inj h
    refine ⟨⟨fun _ _ => rfl, ?_, rfl, ?_, rfl, rfl, rfl, rfl, rfl, rfl⟩, rfl, rfl⟩
    · rw [← hlist]
    · intro u
      simp [hlist]
  | t :: ts, k, hlist, hts, h => by
    obtain ⟨ht, hz⟩ := hts t List.mem_cons_self
    rw [List.foldlM_cons] at h
    obtain ⟨k1, h1, h⟩ := bind_ok h
    unfold Tree.deleteThread at h1
    rw [if_neg (by simpa using hz)] at h1
    unfold Tree.destroyThread at h1
    obtain ⟨_, -, h1⟩ := bind_ok h1
    have hk1 := (Except.ok.inj h1).symm
    have hself : k1.process p = { k.process p with threadList := ts } := by
      rw [hk1, ht]
      simp [Tree.updateProcess, hlist]
    have hother : ∀ d, d ≠ p → k1.process d = k.process d := by
      intro d hd
      rw [hk1, ht]
      simp [Tree.updateProcess, hd]
    have hthread : k1.thread = k.thread := by
      rw [hk1]
      rfl
    have htable : ∀ u, k1.table u = if u = t then false else k.table u := by
      intro u
      rw [hk1]
      by_cases hu : u = t <;> simp [Tree.updateProcess, hu]
    obtain ⟨hd, hchild, hgroup⟩ := deleteThreads_eq (k := k1) (by rw [hself]) (fun u hu => by
      rw [hthread]
      exact hts u (List.mem_cons_of_mem _ hu)) h
    refine ⟨⟨?_, ?_, hd.thread.trans hthread, ?_, ?_, ?_, ?_, ?_, ?_, ?_⟩, ?_, ?_⟩
    · intro d hdp
      rw [hd.other d hdp, hother d hdp]
    · rw [hd.self, hself]
    · intro u
      rw [hd.table, hself, htable, hlist]
      by_cases hu : u = t <;> simp [hu]
    · rw [hd.nextTid, hk1]
      rfl
    · rw [hd.group, hk1]
      rfl
    · rw [hd.nextGroup, hk1]
      rfl
    · rw [hd.session, hk1]
      rfl
    · rw [hd.nextSession, hk1]
      rfl
    · rw [hd.waiting, hk1]
      rfl
    · rw [hchild, hk1]
      rfl
    · rw [hgroup, hk1]
      rfl

theorem Threads.destroyProcess (ht : Threads k created alive)
    (hf : Family k created alive children members) (h : k.destroyProcess p = .ok k') :
    alive p ∧ Ordinary p ∧ (k.process p).isZombie = true ∧ Deleted k p k' ∧
      (∃ children' members', Family k' created (fun d => d ≠ p ∧ alive d) children' members') ∧
      Threads k' created fun d => d ≠ p ∧ alive d := by
  unfold Tree.destroyProcess at h
  obtain ⟨_, hzombie, h⟩ := bind_ok h
  obtain ⟨l1, hl1, h⟩ := bind_ok h
  obtain ⟨l2, hl2, h⟩ := bind_ok h
  have hzombie : (k.process p).isZombie = true := assert_ok_iff.mp hzombie
  have hl1 := orPanic_ok_iff.mp hl1
  have hl2 := orPanic_ok_iff.mp hl2
  -- a process whose link can be removed hangs in a list
  obtain ⟨q, hq⟩ : ∃ q, p ∈ children q := by
    by_contra hnone
    push Not at hnone
    apply linked_of_remove hl1
    rw [hf.childRings.unlinked p hnone]
    exact .inl rfl
  obtain ⟨hp, ho, hparent⟩ := (hf.child q p).mp hq
  obtain ⟨g, hg⟩ := hf.group p hp ho
  have hmem := (hf.member g p).mpr ⟨hp, ho, hg⟩
  obtain ⟨l1', hl1', hrings⟩ := hf.childRings.erase hq
  obtain ⟨l2', hl2', hgrings⟩ := hf.groupRings.erase hmem
  obtain rfl : l1' = l1 := Option.some.inj (hl1'.symm.trans hl1)
  obtain rfl : l2' = l2 := Option.some.inj (hl2'.symm.trans hl2)
  have hdead : ∀ t ∈ (k.process p).threadList,
      (k.thread t).process = p ∧ (k.thread t).state = .zombie := by
    intro t hmem
    refine ⟨((ht.mem p t).mp hmem).2, ?_⟩
    exact livingThreads_eq_zero.mp ((ht.zombie p hp ho.2).mp hzombie) t hmem
  obtain ⟨hd, hchild, hgroup⟩ := deleteThreads_eq
    (k := { k with childLinks := l1', groupLinks := l2' }) rfl hdead h
  have hd : Deleted k p k' := ⟨hd.other, hd.self, hd.thread, hd.table, hd.nextTid, hd.group,
    hd.nextGroup, hd.session, hd.nextSession, hd.waiting⟩
  have hchild : k'.childLinks = l1' := hchild
  have hgroup : k'.groupLinks = l2' := hgroup
  refine ⟨hp, ho, hzombie, hd, ⟨Function.update children q ((children q).erase p),
    Function.update members g ((members g).erase p), ⟨?_, ?_, ?_, ?_, ?_, ?_, ?_, ?_, ?_, ?_⟩⟩, ?_⟩
  · rw [hchild]
    exact hrings
  · rw [hgroup, hd.nextGroup]
    exact hgrings
  · intro r c
    rw [hf.childRings.mem_erased hq, hf.child]
    by_cases hc : c = p
    · simp [hc]
    · rw [hd.other c hc]
      simp [hc]
  · intro r c
    rw [hf.groupRings.mem_erased hmem, hf.member]
    by_cases hc : c = p
    · simp [hc]
    · rw [hd.other c hc]
      simp [hc]
  · intro c hc hoc
    rw [hd.other c hc.1]
    exact hf.parent c hc.2 hoc
  · intro c hc hoc
    rw [hd.other c hc.1]
    exact hf.group c hc.2 hoc
  · rw [hd.nextGroup, hd.other _ ho.1.symm]
    exact hf.initGroup
  · rw [hd.other _ ho.2.symm]
    exact hf.kernelGroup
  · exact fun c hc => hf.created_of_alive c hc.2
  · exact ⟨ho.1.symm, hf.initAlive⟩
  · have hlist : ∀ c, c ≠ p → (k'.process c).threadList = (k.process c).threadList := by
      intro c hc
      rw [hd.other c hc]
    have hliving : ∀ ts, livingThreads k' ts = livingThreads k ts := by
      intro ts
      unfold livingThreads
      rw [hd.thread]
    refine ⟨?_, ?_, ?_, ?_, ?_, ?_, ?_⟩
    · intro c u
      rw [hd.table, hd.thread]
      by_cases hc : c = p
      · subst hc
        rw [hd.self]
        by_cases hu : u ∈ (k.process c).threadList
        · simp [hu]
        · have hnot := mt (ht.mem c u).mpr hu
          simpa [hu] using hnot
      · rw [hlist c hc]
        by_cases hu : u ∈ (k.process p).threadList
        · have hup := ((ht.mem p u).mp hu).2
          have hnot : u ∉ (k.process c).threadList := by
            intro hm
            exact hc (((ht.mem c u).mp hm).2.symm.trans hup)
          simp [hu, hnot]
        · simp [hu, ht.mem]
    · intro c
      by_cases hc : c = p
      · subst hc
        rw [hd.self]
        exact List.nodup_nil
      · rw [hlist c hc]
        exact ht.nodup c
    · intro u hu
      rw [hd.table] at hu
      split_ifs at hu with hmem
      rw [hd.thread, hd.nextTid]
      refine ⟨⟨?_, (ht.owner u hu).1⟩, (ht.owner u hu).2⟩
      intro hup
      exact hmem ((ht.mem p u).mpr ⟨hu, hup⟩)
    · intro c hc hk
      rw [hlist c hc.1]
      exact ht.main c hc.2 hk
    · intro c
      rw [hliving]
      by_cases hc : c = p
      · subst hc
        rw [hd.self]
        have hzero := (ht.zombie c hp ho.2).mp hzombie
        have hcount := ht.living c
        simp only [hcount, hzero]
        rfl
      · rw [hd.other c hc]
        exact ht.living c
    · intro c hc hk
      rw [hliving, hd.other c hc.1]
      exact ht.zombie c hc.2 hk
    · intro c hc
      rw [hd.nextTid]
      exact ht.bound c hc

end Deleted

end Fishix.ProcessTree
