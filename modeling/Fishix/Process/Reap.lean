import Fishix.Process.Waits

/-!
# Zombies and their parents

`exit_group` notes its status before the threads end, and a fatal signal is noted by `zombify`; but
`exit` notes nothing ("exit: status is ignored", sched/sched.cpp:806-809). When the last thread of a
process calls it, `wait_code` stays what it was, and a parent that waits for the end of the process
sleeps. `ProperEnd` is that no process ends so.

* `zombies_reapable`: in every run of such steps every zombie can be reaped, and the next step keeps
  this exactly when it is one of them.
* `zombie_unseen`: a child calls `exit`, and its parent goes to sleep.
-/

namespace Fishix.ProcessTree

open Fishix.Sched (Panic orPanic assert Signal SIGCONT)

/-- The code and the status are those of the death. -/
def Matches (death : Option Death) (code status : ℤ) : Prop :=
  match death with
  | some (.exited s) => code = CLD_EXITED ∧ status = s
  | some (.killed signal) => code = CLD_KILLED ∧ status = signal
  | none => False

/-- A wait with `WEXITED` for all children, or for the child `p`, finds a child with an event; and no
    turn of a wait that has `p` among its targets goes to sleep. -/
def Tree.FindsChild (k : Tree) (p : Pid) : Prop :=
  (∀ t caller call, k.table t = true → (k.process p).parent = some (k.thread t).process →
    hasOption call.options WEXITED = true → call.idtype = .all ∨ call.idtype = .pid ∧ call.id = p →
      ∃ (c : Pid) (info : Option Siginfo) (k' : Tree),
        k.waitidImpl t caller call = .ok (.returned c info none, k') ∧
        (k.process c).parent = some (k.thread t).process ∧ (k.process c).waitCode ≠ 0 ∧
          (call.idtype = .pid → c = p)) ∧
    ∀ t w r k', p ∈ w.targetChildren → k.look t w = .ok (r, k') → r ≠ .asleep

/-- Every zombie can be reaped. -/
def Reapable (s : System) : Prop :=
  ∀ p, s.Alive p → Ordinary p → (s.tree.process p).isZombie = true →
    Matches (s.death p) (s.tree.process p).waitCode (s.tree.process p).waitStatus ∧
      s.tree.FindsChild p

/-- No process ends with the `exit` of its last living thread. -/
def ProperEnd (s : System) (op : Op) : Prop :=
  ∀ t status, op = .exit t status → s.tree.dying op = none

/-- The codes of a process that is not a zombie. -/
def LivingCode (code : ℤ) : Prop := code = 0 ∨ code = CLD_STOPPED ∨ code = CLD_CONTINUED

/-- The codes of the living and of the dead. -/
structure Codes (s : System) : Prop where
  dead : ∀ p, s.Alive p → Ordinary p → (s.tree.process p).isZombie = true →
    Matches (s.death p) (s.tree.process p).waitCode (s.tree.process p).waitStatus
  living : ∀ p, s.Alive p → (s.tree.process p).isZombie = false →
    LivingCode (s.tree.process p).waitCode

section Reap

variable {s s' : System} {op : Op} {children : Pid → List Pid} {members : GroupId → List Pid}
  {k : Tree} {created alive : Pid → Prop} {p : Pid} {n : ℕ}

theorem Matches.code_ne {death : Option Death} {code status : ℤ} (h : Matches death code status) :
    code = CLD_EXITED ∨ code = CLD_KILLED := by
  unfold Matches at h
  split at h
  · exact .inl h.1
  · exact .inr h.1
  · exact h.elim

/-- A zombie with a code is found. -/
theorem System.Agrees.findsChild (ha : System.Agrees k created alive children members)
    (hp : alive p) (ho : Ordinary p) (hcode : (k.process p).waitCode ≠ 0) : k.FindsChild p := by
  constructor
  · intro t caller call htable hparent hexited hid
    have hopt : hasOption call.options (WEXITED ||| WSTOPPED ||| WCONTINUED) = true := by
      simp [hasOption_or, hexited]
    have hchild : p ∈ children (k.thread t).process :=
      (ha.family.child _ p).mpr ⟨hp, ho, hparent⟩
    rcases hid with hid | ⟨hid, rfl⟩
    · have hq := ha.family.created_of_alive _ (ha.threads.owner t htable).1
      rw [ha.waitidImpl_all hq hopt hid (List.ne_nil_of_mem hchild)]
      have htarget : p ∈ (children (k.thread t).process).flatMap (Tree.addChild call.options) :=
        List.mem_flatMap.mpr ⟨p, hchild, mem_addChild.mpr ⟨rfl, hopt⟩⟩
      obtain ⟨c, hc⟩ := firstEvent_isSome htarget hcode
      obtain ⟨hmem, hevent⟩ := firstEvent_some hc
      obtain ⟨d, hd, hcd⟩ := List.mem_flatMap.mp hmem
      obtain rfl := (mem_addChild.mp hcd).1
      obtain ⟨halive, hordinary, hcparent⟩ := (ha.family.child _ c).mp hd
      obtain ⟨k', hk'⟩ := @System.Agrees.report _ _ _ _ _ c call ha halive hordinary
      rw [look_some hc, hk']
      exact ⟨c, _, k', rfl, hcparent, hevent, by simp [hid]⟩
    · obtain ⟨htid, howner⟩ := ha.mainThread hp ho.2
      rw [waitidImpl_pid hopt hid htid (by rw [howner]; exact hparent), howner]
      have htarget : call.id ∈ Tree.addChild call.options call.id := mem_addChild.mpr ⟨rfl, hopt⟩
      obtain ⟨c, hc⟩ := firstEvent_isSome htarget hcode
      obtain ⟨hcmem, hevent⟩ := firstEvent_some hc
      obtain rfl := (mem_addChild.mp hcmem).1
      obtain ⟨k', hk'⟩ := @System.Agrees.report _ _ _ _ _ call.id call ha hp ho
      rw [look_some hc, hk']
      exact ⟨call.id, _, k', rfl, hparent, hevent, fun _ => rfl⟩
  · intro t w r k' hmem hlook
    obtain ⟨c, hc⟩ := firstEvent_isSome hmem hcode
    rw [look_some hc] at hlook
    unfold Tree.report at hlook
    obtain ⟨info, -, hlook⟩ := bind_ok hlook
    obtain ⟨k1, -, hlook⟩ := bind_ok hlook
    obtain ⟨rfl, -⟩ := pure_pair hlook
    simp

theorem Codes.reapable (hc : Codes s) (hg : s.Good children members) : Reapable s := by
  intro p hp ho hz
  have hmatches := hc.dead p hp ho hz
  refine ⟨hmatches, hg.agrees.findsChild hp ho ?_⟩
  rcases hmatches.code_ne with h | h <;> rw [h] <;> decide

theorem Codes.keep (hc : Codes s) (halive : ∀ d, s'.Alive d → s.Alive d)
    (hdeath : s'.death = s.death)
    (hfields : ∀ d, s.Alive d → (s'.tree.process d).isZombie = (s.tree.process d).isZombie ∧
      ((s'.tree.process d).waitCode = (s.tree.process d).waitCode ∧
          (s'.tree.process d).waitStatus = (s.tree.process d).waitStatus ∨
        (s.tree.process d).isZombie = false ∧ LivingCode (s'.tree.process d).waitCode)) :
    Codes s' := by
  constructor
  · intro p hp ho hz
    obtain ⟨hzombie, hcode⟩ := hfields p (halive p hp)
    rw [hzombie] at hz
    rcases hcode with ⟨hcode, hstatus⟩ | ⟨hliving, -⟩
    · rw [hdeath, hcode, hstatus]
      exact hc.dead p (halive p hp) ho hz
    · rw [hliving] at hz
      cases hz
  · intro p hp hz
    obtain ⟨hzombie, hcode⟩ := hfields p (halive p hp)
    rw [hzombie] at hz
    rcases hcode with ⟨hcode, -⟩ | ⟨-, hcode⟩
    · rw [hcode]
      exact hc.living p (halive p hp) hz
    · exact hcode

/-- A child starts without an event. -/
theorem Codes.fork {k' : Tree} {g : GroupId} {q : Pid} {uid : ℕ} (hc : Codes s)
    (hmoved : Moved (s.tree.newborn uid) s.tree.nextTid
      (fun x => { x with parent := some q, group := some g }) k') :
    Codes { s with tree := k', created := Function.update s.created s.tree.nextTid true } := by
  have hself := hmoved.process_self
  have hother : ∀ d, d ≠ s.tree.nextTid → k'.process d = s.tree.process d := by
    intro d hd
    rw [hmoved.process_of_ne hd]
    simp [hd]
  have hnew : (k'.process s.tree.nextTid).isZombie = false ∧
      (k'.process s.tree.nextTid).waitCode = 0 := by
    rw [hself]
    simp
  have halive : ∀ d, d ≠ s.tree.nextTid → System.Alive
      { s with tree := k', created := Function.update s.created s.tree.nextTid true } d →
        s.Alive d := by
    intro d hd h
    have hcreated := h.1
    simp only [Function.update_of_ne hd] at hcreated
    exact ⟨hcreated, h.2⟩
  constructor
  · intro p hp ho hz
    by_cases hd : p = s.tree.nextTid
    · subst hd
      simp only [hnew.1] at hz
      cases hz
    · simp only [hother p hd] at hz ⊢
      exact hc.dead p (halive p hd hp) ho hz
  · intro p hp hz
    by_cases hd : p = s.tree.nextTid
    · subst hd
      exact .inl hnew.2
    · simp only [hother p hd] at hz ⊢
      exact hc.living p (halive p hd hp) hz

theorem Codes.ended {k' : Tree} (hc : Codes s) (hproper : ProperEnd s op)
    (hdying : s.tree.dying op = some p)
    (h : Ended (s.tree.beforeDeath op) p op.signal (children p) k') :
    Codes { s with tree := k', death := Function.update s.death p (some op.cause) } := by
  obtain ⟨-, hp, hop⟩ := dying_cases hdying
  have hother : ∀ d, d ≠ p → (k'.process d).waitCode = (s.tree.process d).waitCode ∧
      (k'.process d).waitStatus = (s.tree.process d).waitStatus ∧
        (k'.process d).isZombie = (s.tree.process d).isZombie := by
    intro d hd
    have hbefore : (s.tree.beforeDeath op).process d = s.tree.process d := by
      unfold Tree.beforeDeath
      split
      · rw [hp] at hd
        exact Function.update_of_ne hd _ _
      · rfl
    rw [(h.wait d hd).1, (h.wait d hd).2, h.isZombie, if_neg hd, hbefore]
    exact ⟨rfl, rfl, rfl⟩
  have hself : Matches (some op.cause) (k'.process p).waitCode (k'.process p).waitStatus := by
    obtain ⟨hstatus, hcode⟩ := h.waitSelf
    rw [hstatus, hcode]
    rcases hop with ⟨status, hop⟩ | ⟨status, hop⟩ | ⟨signal, hop⟩
    · exact absurd (hproper _ _ hop) (by simp [hdying])
    · rw [hop] at hp ⊢
      subst hp
      simp [Op.signal, Op.cause, Tree.beforeDeath, Tree.updateProcess, Matches, Op.thread]
    · rw [hop]
      simp [Op.signal, Op.cause, Matches]
  constructor
  · intro d hd ho hz
    by_cases hdp : d = p
    · subst hdp
      simpa using hself
    · simp only [Function.update_of_ne hdp, (hother d hdp).1, (hother d hdp).2.1,
        (hother d hdp).2.2] at hz ⊢
      exact hc.dead d hd ho hz
  · intro d hd hz
    by_cases hdp : d = p
    · subst hdp
      simp [h.isZombie] at hz
    · simp only [(hother d hdp).1, (hother d hdp).2.2] at hz ⊢
      exact hc.living d hd hz

/-- A stop or a continuation is the event of a living process. -/
theorem Codes.note {state : ThreadState} {status code : ℤ} (hc : Codes s)
    (hg : s.Good children members) (hmay : s.tree.mayDo op = true) (hcode : LivingCode code) :
    Codes { s with tree := s.tree.note op.thread state status code } := by
  obtain ⟨htable, hk, hstate⟩ := Tree.mayDo_thread hmay
  have hliving := hg.agrees.living htable (hstate ▸ op.threadState_ne) hk
  refine hc.keep (fun _ h => h) rfl ?_
  intro d _
  by_cases hd : d = (s.tree.thread op.thread).process
  · subst hd
    simp [Tree.note, Tree.updateThread, Tree.updateProcess, hliving, hcode]
  · simp [Tree.note, Tree.updateThread, Tree.updateProcess, hd]

theorem Effect.codes (he : Effect s children op s') (hg : s.Good children members) (hc : Codes s)
    (hproper : ProperEnd s op) : Codes s' := by
  cases he with
  | nothing => exact hc
  | fork _ _ _ hmoved => exact hc.fork hmoved
  | spawn =>
    refine hc.keep (fun _ h => h) rfl ?_
    intro d _
    by_cases hd : d = (s.tree.thread op.thread).process <;>
      simp [Tree.spawn, Tree.newThread, Tree.updateThread, Tree.updateProcess, hd]
  | execve =>
    refine hc.keep (fun _ h => h) rfl ?_
    intro d _
    by_cases hd : d = (s.tree.thread op.thread).process <;> simp [Tree.updateProcess, hd]
  | thread =>
    refine hc.keep (fun _ h => h) rfl ?_
    intro d _
    by_cases hd : d = (s.tree.thread op.thread).process
    · subst hd
      simp [markThread_process_self]
    · simp [markThread_process_of_ne hd]
  | ended hdying _ hended => exact hc.ended hproper hdying hended
  | stop _ hmay => exact hc.note hg hmay (.inr (.inl rfl))
  | cont _ hmay => exact hc.note hg hmay (.inr (.inr rfl))
  | @regrouped p g k' _ _ hregrouped =>
    refine hc.keep (fun _ h => h) rfl ?_
    intro d _
    show (k'.process d).isZombie = _ ∧ ((k'.process d).waitCode = _ ∧ _ ∨ _)
    rw [hregrouped.process]
    by_cases hd : d = p
    · subst hd
      simp
    · simp [hd]
  | @waited r k1 k' hmay _ hslept hconsumed =>
    obtain ⟨-, -, hstate⟩ := Tree.mayDo_thread hmay
    have ha := hg.agrees.slept hslept (hstate ▸ op.threadState_ne)
    refine hc.keep ?_ rfl ?_
    · intro d hd
      have hdeleted := hd.2
      simp only [System.waited, Bool.or_eq_false_iff] at hdeleted
      exact ⟨hd.1, hdeleted.1⟩
    · intro d _
      obtain ⟨-, -, hzombie, hstatus, hcode, -⟩ := ha.consumed_fields hconsumed d
      rw [hslept.process] at hzombie hstatus hcode
      refine ⟨hzombie, ?_⟩
      rcases hcode with hcode | ⟨hliving, hcode⟩
      · exact .inl ⟨hcode, hstatus⟩
      · exact .inr ⟨hliving, .inl hcode⟩

/-- `exit` by the last living thread leaves a zombie with the code of a living process. -/
theorem Effect.not_reapable (he : Effect s children op s') (hg : s.Good children members)
    (hc : Codes s) (himproper : ¬ProperEnd s op) : ¬Reapable s' := by
  unfold ProperEnd at himproper
  push Not at himproper
  obtain ⟨t, status, hop, hdying⟩ := himproper
  obtain ⟨p, hdying⟩ := Option.ne_none_iff_exists'.mp hdying
  obtain ⟨hmay, hp, -⟩ := dying_cases hdying
  obtain ⟨htable, hk, hstate⟩ := Tree.mayDo_thread hmay
  obtain ⟨ho, k', hended, rfl⟩ := he.ended_of_dying hdying
  have halive := (hg.agrees.threads.owner _ htable).1
  have hliving := hg.agrees.living htable (hstate ▸ op.threadState_ne) hk
  rw [← hp] at halive hliving
  have hold := hc.living p halive hliving
  have hcode : (k'.process p).waitCode = (s.tree.process p).waitCode := by
    rw [hended.waitSelf.2, hop]
    rfl
  intro hreapable
  obtain ⟨hmatches, -⟩ := hreapable p halive ho (by simp [hended.isZombie])
  rw [← hcode] at hold
  have hdead : (k'.process p).waitCode = CLD_EXITED ∨ (k'.process p).waitCode = CLD_KILLED :=
    hmatches.code_ne
  rcases hdead with hdead | hdead <;> rw [hdead] at hold <;>
    simp [LivingCode, CLD_EXITED, CLD_KILLED, CLD_STOPPED, CLD_CONTINUED] at hold

theorem codes_booted : Codes (System.booted n) := by
  have hfields : ∀ p, ((System.booted n).tree.process p).isZombie = false ∧
      ((System.booted n).tree.process p).waitCode = 0 := by
    intro p
    by_cases h1 : p = initProcess
    · simp [System.booted, h1]
    · by_cases h2 : p = kernelProcess
      · simp [System.booted, h2, initProcess, kernelProcess]
      · simp [booted_other h1 h2]
  refine ⟨?_, ?_⟩
  · intro p _ _ hz
    rw [(hfields p).1] at hz
    cases hz
  · exact fun p _ _ => .inl (hfields p).2

/-- **Main theorem.** In every run in which no process ends with `exit`, every zombie can be reaped:
    its code and status are those of its death, and its parent finds it. The next step keeps this
    exactly when it ends no process so. -/
theorem zombies_reapable (h : Run System.step ProperEnd (System.booted n) s) :
    Reapable s ∧ ∀ op s', s.step op = .ok s' → (Reapable s' ↔ ProperEnd s op) := by
  have hinv : Codes s ∧ ∃ children members, s.Good children members := by
    apply h.invariant (P := fun s => Codes s ∧ ∃ children members, s.Good children members)
    · rintro s1 op s2 ⟨hc, children, members, hg⟩ hproper hstep
      obtain ⟨hgood, he⟩ := step_effect hg hstep
      exact ⟨he.codes hg hc hproper, hgood⟩
    · exact ⟨codes_booted, _, _, booted_good⟩
  obtain ⟨hc, children, members, hg⟩ := hinv
  refine ⟨hc.reapable hg, ?_⟩
  intro op s' hstep
  obtain ⟨⟨children', members', hg'⟩, he⟩ := step_effect hg hstep
  constructor
  · intro hreapable
    by_contra himproper
    exact he.not_reapable hg hc himproper hreapable
  · exact fun hproper => (he.codes hg hc hproper).reapable hg'

instance (s : System) (op : Op) : Decidable (ProperEnd s op) :=
  match op with
  | .exit t status => decidable_of_iff (s.tree.dying (.exit t status) = none)
      ⟨fun h u status' heq => by rw [← heq] at *; exact h, fun h => h t status rfl⟩
  | .fork _ | .spawn _ | .execve _ | .exitGroup _ _ | .kill _ _ | .stop _ _ | .cont _ | .setpgid _ _ _
  | .setsid _ | .waitid _ _ | .wait4 _ _ _ _ _ | .wakeUp _ _ =>
    isTrue fun _ _ heq => by cases heq

/-- What there is to see of a zombie. -/
structure Remains where
  alive : Bool
  isZombie : Bool
  code : ℤ
  status : ℤ
  death : Option Death
  deriving DecidableEq

def System.remains (s : System) (p : Pid) : Remains where
  alive := s.created p && !s.deleted p
  isZombie := (s.tree.process p).isZombie
  code := (s.tree.process p).waitCode
  status := (s.tree.process p).waitStatus
  death := s.death p

/-- The child of a child exits; the child, with two threads, stops, goes on and is killed. -/
def reapOps : List Op :=
  [.fork 1, .fork 4, .spawn 4, .stop 6 20, .cont 6, .exitGroup 5 3, .kill 4 9]

/-- Both zombies can be reaped. -/
theorem zombies_reapable_killed : ∃ s, Run System.step ProperEnd (System.booted 0) s ∧
    s.remains 4 = ⟨true, true, CLD_KILLED, 9, some (.killed 9)⟩ ∧
    s.remains 5 = ⟨true, true, CLD_EXITED, 3, some (.exited 3)⟩ ∧ Reapable s := by
  obtain ⟨s, hs, hv⟩ := exists_ok_of_map (show ((reapOps.foldlM
      (guarded System.step ProperEnd .assertion) (.booted 0)).map fun s =>
        (s.remains 4, s.remains 5)) =
    .ok (⟨true, true, CLD_KILLED, 9, some (.killed 9)⟩,
      ⟨true, true, CLD_EXITED, 3, some (.exited 3)⟩) by decide +kernel)
  obtain ⟨h4, h5⟩ := Prod.mk.inj hv
  have hrun := Run.of_guarded hs
  exact ⟨s, hrun, h4, h5, (zombies_reapable hrun).1⟩

/-- The init process waits for its child. -/
def waitAll : WaitCall := { idtype := .all, id := 0, options := WEXITED, infop := true }

/-- The child calls `exit` with status 7: it is a zombie without an event, and its parent sleeps. -/
theorem zombie_unseen : ∃ s, Run System.step (fun _ _ => True) (System.booted 0) s ∧
    ¬Reapable s ∧ (s.tree.waitid 1 waitAll).map Prod.fst = .ok .asleep := by
  obtain ⟨s, hs, hv⟩ := exists_ok_of_map (show (([Op.fork 1, .exit 4 7].foldlM
      System.step (.booted 0)).map fun s =>
        (s.remains 4, (s.tree.waitid 1 waitAll).map Prod.fst)) =
    .ok (⟨true, true, 0, 0, some (.exited 7)⟩, .ok .asleep) by decide +kernel)
  obtain ⟨hremains, hwait⟩ := Prod.mk.inj hv
  obtain ⟨halive, hz, hcode, -, hdeath⟩ := Remains.mk.inj hremains
  refine ⟨s, Run.start.foldlM (fun _ _ _ => trivial) hs, ?_, hwait⟩
  intro hreapable
  have halive : s.Alive 4 := by simpa [System.Alive] using halive
  obtain ⟨hmatches, -⟩ := hreapable 4 halive (by decide) hz
  rw [hdeath, hcode] at hmatches
  simp [Matches, CLD_EXITED] at hmatches

end Reap

end Fishix.ProcessTree
