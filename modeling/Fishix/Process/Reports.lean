import Fishix.Process.Waits

/-!
# What the wait calls report

One `wait_code` holds the exits, stops and continuations of a process. `waitid_impl` reports the
first of its targets that has any (sched/sched.cpp:1092-1122), whether or not the options ask for
that event; it takes the thread number `id` for the number of a child; it keeps its targets while it
sleeps, though another thread may delete them; and it returns 0 for process groups, without
`WNOHANG` and without a word about `*infop`. `CleanWait` is that none of this happens.

* `reports_match`: a result meets the request exactly in a clean wait; no living process is ever
  deleted; and in a run of clean waits every zombie is reported once.
* `stopped_reported`: `wait4` without `WUNTRACED` reports a stopped child.
-/

namespace Fishix.ProcessTree

open Fishix.Sched (Panic orPanic assert Signal orPanic_ok_iff assert_ok_iff)

/-! ## Requests and answers -/

/-- A code is one that the options ask for. -/
def Asked (options : BitVec 32) (code : ℤ) : Prop :=
  (code = CLD_EXITED ∨ code = CLD_KILLED) ∧ hasOption options WEXITED = true ∨
    code = CLD_STOPPED ∧ hasOption options WSTOPPED = true ∨
    code = CLD_CONTINUED ∧ hasOption options WCONTINUED = true

instance (options : BitVec 32) (code : ℤ) : Decidable (Asked options code) :=
  inferInstanceAs (Decidable (_ ∨ _))

/-- The process `c` is a child of `q` that `idtype` and `id` select. -/
def Selected (s : System) (q : Pid) (call : WaitCall) (c : Pid) : Prop :=
  s.Alive c ∧ Ordinary c ∧ (s.tree.process c).parent = some q ∧
    match call.idtype with
    | .all => True
    | .pid => c = call.id
    | .pgid => ∃ g, (s.tree.process c).group = some g ∧ (s.tree.group g).leaderProcess = call.id
    | .other => False

/-- Which of the two calls it is; `wait4` may be given a pointer for the status. -/
inductive Asker
  | waitid
  | wait4 (status : Bool)
  deriving DecidableEq

def Caller.asker : Caller → Asker
  | .waitid => .waitid
  | .wait4 _ status => .wait4 status

/-- What the call stores at its pointers is about `i`; all zero, it says that there is no event. -/
def Shown (i : Siginfo) (asker : Asker) (call : WaitCall) (info : Option Siginfo)
    (status : Option ℤ) : Prop :=
  match asker with
  | .waitid => call.infop = true → info = some i
  | .wait4 wants => wants = true → status = some (waitStatusWord i)

/-- A result that meets the request of a thread of the process `q`. -/
def Answers (s : System) (q : Pid) (asker : Asker) (call : WaitCall) : WaitResult → Prop
  | .returned ret info status =>
    ret = 0 ∧ hasOption call.options WNOHANG = true ∧
        (∀ c, Selected s q call c → ¬Asked call.options (s.tree.process c).waitCode) ∧
        Shown {} asker call info status ∨
      ∃ c : Pid, ret = c ∧ Selected s q call c ∧
        Asked call.options (s.tree.process c).waitCode ∧
        Shown (s.tree.infoOf c) asker call info status
  | _ => True

namespace Tree

/-- The targets of a new call (sched/sched.cpp:1069-1086). -/
def targets (k : Tree) (t : Tid) (call : WaitCall) : List Pid :=
  let q := (k.thread t).process
  match call.idtype with
  | .all =>
    match k.childrenList q with
    | .ok children => children.flatMap (addChild call.options)
    | .error _ => []
  | .pid =>
    let child := (k.thread call.id).process
    if k.table call.id ∧ (k.process child).parent = some q then addChild call.options child else []
  | .pgid | .other => []

/-- What an operation asks for, if it is a wait call, or a turn of one, that is not refused. -/
def request (k : Tree) : Op → Option (Asker × WaitCall × List Pid)
  | .waitid t call =>
    if hasOption call.options (WEXITED ||| WSTOPPED ||| WCONTINUED) then
      some (.waitid, call, k.targets t call)
    else none
  | .wait4 t pid status options _ =>
    if hasOption options (~~~(WNOHANG ||| WSTOPPED ||| WCONTINUED ||| waitCloneOptions)) then none
    else
      match k.wait4Call t pid options with
      | .ok call => some (.wait4 status, call, k.targets t call)
      | .error _ => none
  | .wakeUp t interrupted =>
    if interrupted then none
    else (k.waiting t).map fun w => (w.caller.asker, w.call, w.targetChildren)
  | _ => none

end Tree

/-- The same operation with `info` in the local variable of `wait4` before. -/
def Op.withInfo (op : Op) (info : Siginfo) : Op :=
  match op with
  | .wait4 t pid status options _ => .wait4 t pid status options info
  | op => op

/-- Whatever stands in the local variable of `wait4`, a result of the operation meets its request. -/
def Meets (s : System) (op : Op) : Prop :=
  ∀ info r k', s.tree.waitStep (op.withInfo info) = some (.ok (r, k')) →
    match s.tree.request op with
    | some (asker, call, _) => Answers s (s.tree.thread op.thread).process asker call r
    | none => ∀ ret written status, r ≠ .returned ret written status

/-- The first target with an event is a child that the request selects, and its event is one that is
    asked for; and process groups are asked for only where there is nothing to report or to store. -/
def CleanWait (s : System) (op : Op) : Prop :=
  ∀ asker call targets, s.tree.request op = some (asker, call, targets) →
    let q := (s.tree.thread op.thread).process
    match call.idtype with
    | .all | .pid => ∀ c, s.tree.firstEvent targets = some c →
      Selected s q call c ∧ Asked call.options (s.tree.process c).waitCode
    | .pgid | .other => asker = .waitid ∧ call.infop = false ∧
      hasOption call.options WNOHANG = true ∧
      ∀ c, Selected s q call c → ¬Asked call.options (s.tree.process c).waitCode

/-! ## Sleepers -/

/-- A call that may sleep. -/
structure Sleeper (created : Pid → Prop) (w : Waiting) : Prop where
  idtype : w.call.idtype = .all ∨ w.call.idtype = .pid
  hang : hasOption w.call.options WNOHANG = false
  infop : w.caller.asker ≠ .waitid → w.call.infop = true
  created : ∀ c ∈ w.targetChildren, created c

/-- What one turn of the loop comes to. -/
inductive Turn (k : Tree) (t : Tid) (asker : Asker) (call : WaitCall) (targets : List Pid) :
    WaitResult → Tree → Prop
  | reported {c : Pid} {info : Option Siginfo} {status : Option ℤ} {k1 k' : Tree}
      (hfirst : k.firstEvent targets = some c) (hslept : Slept k t k1)
      (hconsume : k1.consume call.options c = .ok k')
      (hshown : Shown (k.infoOf c) asker call info status) :
      Turn k t asker call targets (.returned c info status) k'
  | nothing {info : Option Siginfo} {status : Option ℤ} {k' : Tree}
      (hfirst : k.firstEvent targets = none) (hno : hasOption call.options WNOHANG = true)
      (hshown : Shown {} asker call info status) :
      Turn k t asker call targets (.returned 0 info status) k'
  | asleep {k' : Tree} (hfirst : k.firstEvent targets = none) : Turn k t asker call targets .asleep k'

section Turns

variable {k k1 k' : Tree} {t : Tid} {w : Waiting} {r : WaitResult} {caller : Caller}
  {call : WaitCall} {c : Pid} {op : Op} {created alive : Pid → Prop} {children : Pid → List Pid}
  {members : GroupId → List Pid}

/-- A report is about its child. -/
theorem report_cases (h : k.report call c = .ok (r, k')) :
    ∃ info, r = .returned c info none ∧ (call.infop = true → info = some (k.infoOf c)) ∧
      k.consume call.options c = .ok k' := by
  unfold Tree.report at h
  obtain ⟨info, hinfo, h⟩ := bind_ok h
  obtain ⟨k1, hconsume, h⟩ := bind_ok h
  cases h
  refine ⟨info, rfl, ?_, hconsume⟩
  intro hinfop
  unfold Tree.writtenInfo at hinfo
  rw [if_pos hinfop] at hinfo
  obtain ⟨i, hi, rfl⟩ := bind_pure_ok hinfo
  unfold Tree.siginfo Tree.getMainThread at hi
  obtain ⟨m, hm, hi⟩ := bind_ok hi
  obtain ⟨m', -, hm⟩ := bind_ok hm
  obtain ⟨_, hassert, rfl⟩ := bind_pure_ok hm
  obtain rfl : m' = c := by simpa using assert_ok_iff.mp hassert
  rw [← Except.ok.inj hi]
  rfl

theorem shown_deliver {i : Siginfo} {ret : ℤ} {info : Option Siginfo}
    (hinfop : caller.asker ≠ .waitid → call.infop = true)
    (hinfo : call.infop = true → info = some i) (hret : ret = i.pid) :
    ∃ written status, caller.deliver (.returned ret info none) = .returned ret written status ∧
      Shown i caller.asker call written status := by
  cases caller with
  | waitid => exact ⟨info, none, rfl, hinfo⟩
  | wait4 before wants =>
    obtain rfl := hinfo (hinfop (by simp [Caller.asker]))
    refine ⟨none, if wants then some (waitStatusWord i) else none, by simp [Caller.deliver, hret], ?_⟩
    intro hwants
    have hwants : wants = true := hwants
    simp [hwants]

theorem look_turn (hslept : Slept k t k1)
    (hinfop : w.caller.asker ≠ .waitid → w.call.infop = true) (h : k1.look t w = .ok (r, k')) :
    Turn k t w.caller.asker w.call w.targetChildren (w.caller.deliver r) k' := by
  have hfirst : k1.firstEvent w.targetChildren = k.firstEvent w.targetChildren := by
    unfold Tree.firstEvent
    rw [hslept.process]
  have hinfo : ∀ c, k1.infoOf c = k.infoOf c := by
    intro c
    obtain ⟨st, -, hthread⟩ := hslept.thread
    unfold Tree.infoOf
    rw [hslept.process, hthread]
    by_cases hc : c = t
    · subst hc
      simp
    · simp [hc]
  cases hf : k.firstEvent w.targetChildren with
  | some c =>
    rw [look_some (hfirst.trans hf)] at h
    obtain ⟨info, rfl, hwritten, hconsume⟩ := report_cases h
    rw [hinfo] at hwritten
    obtain ⟨written, status, hdeliver, hshown⟩ := @shown_deliver _ _ _ (c : ℤ) _ hinfop hwritten rfl
    rw [hdeliver]
    exact .reported hf hslept hconsume hshown
  | none =>
    rw [hf] at hfirst
    unfold Tree.look at h
    unfold Tree.firstEvent at hfirst
    rw [hfirst] at h
    simp only at h
    by_cases hno : hasOption w.call.options WNOHANG
    · rw [if_pos hno] at h
      cases h
      have hwritten : w.call.infop = true → (if w.call.infop then some {} else none) =
          some ({} : Siginfo) := by
        intro hi
        rw [if_pos hi]
      obtain ⟨written, status, hdeliver, hshown⟩ := @shown_deliver _ _ _ 0 _ hinfop hwritten rfl
      rw [hdeliver]
      exact .nothing hf hno hshown
    · rw [if_neg hno] at h
      cases h
      exact .asleep hf

theorem waitidImpl_looks (hq : created (k.thread t).process)
    (ha : System.Agrees k created alive children members)
    (hopt : hasOption call.options (WEXITED ||| WSTOPPED ||| WCONTINUED) = true)
    (hid : call.idtype = .all ∨ call.idtype = .pid)
    (h : k.waitidImpl t caller call = .ok (r, k')) :
    (∃ e, r = .error e ∧ k' = k ∧ k.targets t call = []) ∨
      k.look t ⟨caller, call, k.targets t call⟩ = .ok (r, k') := by
  unfold Tree.waitidImpl at h
  rw [if_neg (by simpa using hopt)] at h
  simp only at h
  unfold Tree.targets
  rcases hid with hid | hid
  · simp only [hid, ha.childrenList hq] at h ⊢
    rw [ok_bind] at h
    split_ifs at h with hnil
    · cases h
      exact .inl ⟨.echild, rfl, rfl, by rw [hnil]; rfl⟩
    · exact .inr h
  · simp only [hid] at h ⊢
    by_cases htable : k.table call.id = true
    · rw [if_neg (by simpa using htable)] at h
      by_cases hparent :
          (k.process (k.thread call.id).process).parent = some (k.thread t).process
      · rw [if_neg (not_not.mpr hparent)] at h
        rw [if_pos ⟨htable, hparent⟩]
        exact .inr h
      · rw [if_pos hparent] at h
        cases h
        exact .inl ⟨.echild, rfl, rfl, if_neg fun hboth => hparent hboth.2⟩
    · rw [if_pos htable] at h
      cases h
      exact .inl ⟨.echild, rfl, rfl, if_neg fun hboth => htable hboth.1⟩

theorem waitidImpl_turn (hz : (k.thread t).state ≠ .zombie) (hq : created (k.thread t).process)
    (ha : System.Agrees k created alive children members)
    (hopt : hasOption call.options (WEXITED ||| WSTOPPED ||| WCONTINUED) = true)
    (hid : call.idtype = .all ∨ call.idtype = .pid)
    (hinfop : caller.asker ≠ .waitid → call.infop = true)
    (h : k.waitidImpl t caller call = .ok (r, k')) :
    (∃ e, r = .error e ∧ k.targets t call = []) ∨
      Turn k t caller.asker call (k.targets t call) (caller.deliver r) k' := by
  rcases waitidImpl_looks hq ha hopt hid h with ⟨e, rfl, -, hnil⟩ | hlook
  · exact .inl ⟨e, rfl, hnil⟩
  · exact .inr (@look_turn k k k' t ⟨caller, call, _⟩ r (.refl hz) hinfop hlook)

theorem targets_created (hq : created (k.thread t).process)
    (ha : System.Agrees k created alive children members) (hc : c ∈ k.targets t call) :
    created c := by
  unfold Tree.targets at hc
  cases hid : call.idtype with
  | all =>
    simp only [hid, ha.childrenList hq] at hc
    obtain ⟨d, hd, hcd⟩ := List.mem_flatMap.mp hc
    obtain rfl := (mem_addChild.mp hcd).1
    exact ha.family.created_of_alive _ ((ha.family.child _ c).mp hd).1
  | pid =>
    simp only [hid] at hc
    split_ifs at hc with hboth
    · obtain rfl := (mem_addChild.mp hc).1
      exact ha.family.created_of_alive _ (ha.threads.owner _ hboth.1).1
    · cases hc
  | pgid | other =>
    simp only [hid] at hc
    cases hc

theorem deliver_waitid : Caller.waitid.deliver r = r := by
  cases r <;> rfl

/-- A new call looks at all that it selects. -/
theorem targets_complete (hq : created (k.thread t).process)
    (ha : System.Agrees k created alive children members)
    (hopt : hasOption call.options (WEXITED ||| WSTOPPED ||| WCONTINUED) = true)
    (hid : call.idtype = .all ∨ call.idtype = .pid) (hc : alive c) (ho : Ordinary c)
    (hparent : (k.process c).parent = some (k.thread t).process)
    (hpid : call.idtype = .pid → c = call.id) : c ∈ k.targets t call := by
  unfold Tree.targets
  rcases hid with hid | hid
  · simp only [hid, ha.childrenList hq]
    exact List.mem_flatMap.mpr
      ⟨c, (ha.family.child _ c).mpr ⟨hc, ho, hparent⟩, mem_addChild.mpr ⟨rfl, hopt⟩⟩
  · obtain rfl := hpid hid
    obtain ⟨htid, howner⟩ := ha.mainThread hc ho.2
    simp only [hid]
    rw [howner, if_pos ⟨htid, hparent⟩]
    exact mem_addChild.mpr ⟨rfl, hopt⟩

theorem waitidImpl_group
    (hopt : hasOption call.options (WEXITED ||| WSTOPPED ||| WCONTINUED) = true)
    (hid : call.idtype = .pgid ∨ call.idtype = .other) :
    k.waitidImpl t caller call = .ok (.returned 0 none none, k) := by
  unfold Tree.waitidImpl
  rw [if_neg (by simpa using hopt)]
  rcases hid with hid | hid <;> simp only [hid]

/-- What a wait call asks for, and what it comes to. -/
inductive Outcome (k : Tree) (created alive : Pid → Prop) (op : Op) (r : WaitResult) (k' : Tree) :
    Prop
  | refused {e : Errno} (hrequest : k.request op = none) (hr : r = .error e)
  | looked {asker : Asker} {call : WaitCall} {targets : List Pid}
      (hrequest : k.request op = some (asker, call, targets))
      (hid : call.idtype = .all ∨ call.idtype = .pid) (hcreated : ∀ c ∈ targets, created c)
      (hcomplete : hasOption call.options WNOHANG = true → ∀ c, alive c → Ordinary c →
        (k.process c).parent = some (k.thread op.thread).process →
          (call.idtype = .pid → c = call.id) → c ∈ targets)
      (hturn : (∃ e, r = .error e ∧ targets = []) ∨ Turn k op.thread asker call targets r k')
  | group {asker : Asker} {call : WaitCall} {targets : List Pid}
      (hrequest : k.request op = some (asker, call, targets))
      (hid : call.idtype = .pgid ∨ call.idtype = .other)
      (hr : asker = .waitid ∧ r = .returned 0 none none ∨
        ∃ status : Siginfo → Option ℤ, asker ≠ .waitid ∧ ∀ info, k.waitStep (op.withInfo info) =
          some (.ok (.returned info.pid none (status info), k)))

theorem idtype_cases (i : IdType) : (i = .all ∨ i = .pid) ∨ i = .pgid ∨ i = .other := by
  cases i <;> simp

/-- A call of `wait4` asks for the end of a process at least. -/
theorem wait4Call_cases {pid : ℤ} {options : BitVec 32}
    (h : k.wait4Call t pid options = .ok call) : call.infop = true ∧
      call.options = options ||| WEXITED ∧
      hasOption call.options (WEXITED ||| WSTOPPED ||| WCONTINUED) = true := by
  unfold Tree.wait4Call at h
  obtain ⟨⟨idtype, id⟩, -, h⟩ := bind_ok h
  rw [← Except.ok.inj h]
  refine ⟨rfl, rfl, ?_⟩
  have hexited : hasOption (options ||| WEXITED) WEXITED = true := by
    unfold hasOption
    rw [BitVec.and_or_distrib_right]
    simp [WEXITED]
  rw [hasOption_or, hasOption_or]
  simp [hexited]

theorem waitStep_outcome (ha : System.Agrees k created alive children members)
    (hq : created (k.thread op.thread).process) (hz : (k.thread op.thread).state ≠ .zombie)
    (hsleep : ∀ t w, k.waiting t = some w → Sleeper created w)
    (h : k.waitStep op = some (.ok (r, k'))) : Outcome k created alive op r k' := by
  cases op with
  | waitid t call =>
    have h : k.waitidImpl t .waitid call = .ok (r, k') := Option.some.inj h
    by_cases hopt : hasOption call.options (WEXITED ||| WSTOPPED ||| WCONTINUED) = true
    · have hrequest : k.request (.waitid t call) = some (.waitid, call, k.targets t call) :=
        if_pos hopt
      rcases idtype_cases call.idtype with hid | hid
      · refine .looked hrequest hid (fun c hc => targets_created hq ha hc)
          (fun _ c => targets_complete hq ha hopt hid) ?_
        rcases waitidImpl_turn hz hq ha hopt hid (fun hne => absurd rfl hne) h with ⟨e, rfl, hnil⟩ | ht
        · exact .inl ⟨e, rfl, hnil⟩
        · rw [deliver_waitid] at ht
          exact .inr ht
      · rw [waitidImpl_group hopt hid] at h
        cases h
        exact .group hrequest hid (.inl ⟨rfl, rfl⟩)
    · have hrequest : k.request (.waitid t call) = none := if_neg hopt
      unfold Tree.waitidImpl at h
      rw [if_pos (by simpa using hopt)] at h
      cases h
      exact .refused hrequest rfl
  | wait4 t pid status options info =>
    have h : k.wait4 t pid status options info = .ok (r, k') := Option.some.inj h
    unfold Tree.wait4 at h
    by_cases hopt : hasOption options (~~~(WNOHANG ||| WSTOPPED ||| WCONTINUED ||| waitCloneOptions))
    · have hrequest : k.request (.wait4 t pid status options info) = none := if_pos hopt
      rw [if_pos hopt] at h
      cases h
      exact .refused hrequest rfl
    · rw [if_neg hopt] at h
      obtain ⟨call, hcall, h⟩ := bind_ok h
      obtain ⟨⟨r1, k1⟩, himpl, h⟩ := bind_ok h
      cases h
      obtain ⟨hinfop, -, hevents⟩ := wait4Call_cases hcall
      have hrequest : k.request (.wait4 t pid status options info) =
          some (.wait4 status, call, k.targets t call) := by
        unfold Tree.request
        simp only [if_neg hopt, hcall]
      rcases idtype_cases call.idtype with hid | hid
      · refine .looked hrequest hid (fun c hc => targets_created hq ha hc)
          (fun _ c => targets_complete hq ha hevents hid) ?_
        rcases waitidImpl_turn hz hq ha hevents hid (fun _ => hinfop) himpl with ⟨e, rfl, hnil⟩ | ht
        · exact .inl ⟨e, rfl, hnil⟩
        · exact .inr ht
      · refine .group hrequest hid (.inr ⟨fun i => if status then some (waitStatusWord i) else none,
          by simp, ?_⟩)
        intro i
        rw [waitidImpl_group hevents hid] at himpl
        cases himpl
        show some (k.wait4 t pid status options i) = _
        unfold Tree.wait4
        rw [if_neg hopt, hcall, ok_bind, waitidImpl_group hevents hid, ok_bind]
        rfl
  | wakeUp t interrupted =>
    obtain ⟨w, hw, h⟩ := Option.map_eq_some_iff.mp h
    unfold Tree.wakeUp at h
    simp only at h
    by_cases hint : interrupted = true
    · have hrequest : k.request (.wakeUp t interrupted) = none := if_pos hint
      rw [if_pos hint] at h
      cases h
      exact .refused hrequest rfl
    · rw [if_neg hint] at h
      obtain ⟨⟨r1, k1⟩, hlook, h⟩ := bind_ok h
      cases h
      have hrequest : k.request (.wakeUp t interrupted) =
          some (w.caller.asker, w.call, w.targetChildren) := by
        simp [Tree.request, hint, hw]
      have hsleeper := hsleep t w hw
      refine .looked hrequest hsleeper.idtype hsleeper.created ?_ (.inr ?_)
      · intro hno
        rw [hsleeper.hang] at hno
        cases hno
      · have hslept : Slept k t { k.updateThread t fun x => { x with state := .ready } with
            waiting := Function.update k.waiting t none } :=
          ⟨⟨.ready, by simp, rfl⟩, rfl, rfl, rfl, rfl, rfl, rfl, rfl, rfl, rfl⟩
        exact look_turn hslept hsleeper.infop hlook
  | _ => cases h

/-- A turn that goes to sleep keeps its call. -/
theorem look_waiting {u : Tid} {w' : Waiting} (hw : hasOption w.call.options WNOHANG = false →
      Sleeper created w)
    (hold : ∀ t w, k.waiting t = some w → Sleeper created w)
    (hconsume : ∀ c k', k.consume w.call.options c = .ok k' → k'.waiting = k.waiting)
    (h : k.look t w = .ok (r, k')) (hu : k'.waiting u = some w') : Sleeper created w' := by
  cases hf : k.firstEvent w.targetChildren with
  | some c =>
    rw [look_some hf] at h
    obtain ⟨info, -, -, hconsumed⟩ := report_cases h
    rw [hconsume c k' hconsumed] at hu
    exact hold u w' hu
  | none =>
    unfold Tree.look at h
    unfold Tree.firstEvent at hf
    rw [hf] at h
    simp only at h
    by_cases hno : hasOption w.call.options WNOHANG = true
    · rw [if_pos hno] at h
      cases h
      exact hold u w' hu
    · rw [if_neg hno] at h
      obtain ⟨-, hk'⟩ := pure_pair h
      rw [← hk'] at hu
      by_cases hut : u = t
      · subst hut
        simp only [Function.update_self, Option.some.injEq] at hu
        rw [← hu]
        exact hw (by simpa using hno)
      · simp only [Function.update_of_ne hut] at hu
        exact hold u w' hu

/-- A report leaves the sleepers alone. -/
theorem System.Agrees.consume_waiting (ha : System.Agrees k created alive children members)
    {options : BitVec 32} (h : k.consume options c = .ok k') : k'.waiting = k.waiting := by
  unfold Tree.consume at h
  split_ifs at h
  · rw [← Except.ok.inj h]
  · obtain ⟨-, -, -, hd, -, -⟩ := ha.threads.destroyProcess ha.family h
    exact hd.waiting
  · rw [← Except.ok.inj h]
    rfl

/-- Who sleeps in a new call. -/
theorem waitidImpl_waiting {u : Tid} {w' : Waiting} (hq : created (k.thread t).process)
    (ha : System.Agrees k created alive children members)
    (hsleep : ∀ t w, k.waiting t = some w → Sleeper created w)
    (hinfop : caller.asker ≠ .waitid → call.infop = true)
    (h : k.waitidImpl t caller call = .ok (r, k')) (hu : k'.waiting u = some w') :
    Sleeper created w' := by
  by_cases hopt : hasOption call.options (WEXITED ||| WSTOPPED ||| WCONTINUED) = true
  · rcases idtype_cases call.idtype with hid | hid
    · rcases waitidImpl_looks hq ha hopt hid h with ⟨e, -, rfl, -⟩ | hlook
      · exact hsleep u w' hu
      · apply look_waiting (w := ⟨caller, call, k.targets t call⟩) ?_ hsleep
          (fun _ _ hc => ha.consume_waiting hc) hlook hu
        exact fun hno => ⟨hid, hno, hinfop, fun c hc => targets_created hq ha hc⟩
    · rw [waitidImpl_group hopt hid] at h
      cases h
      exact hsleep u w' hu
  · unfold Tree.waitidImpl at h
    rw [if_pos (by simpa using hopt)] at h
    cases h
    exact hsleep u w' hu

/-- Who sleeps after a wait call, or a turn of one. -/
theorem waitStep_waiting {u : Tid} {w' : Waiting}
    (ha : System.Agrees k created alive children members)
    (hq : created (k.thread op.thread).process) (hz : (k.thread op.thread).state ≠ .zombie)
    (hsleep : ∀ t w, k.waiting t = some w → Sleeper created w)
    (h : k.waitStep op = some (.ok (r, k'))) (hu : k'.waiting u = some w') :
    Sleeper created w' := by
  cases op with
  | waitid t call =>
    exact waitidImpl_waiting hq ha hsleep (fun hne => absurd rfl hne) (Option.some.inj h) hu
  | wait4 t pid status options info =>
    have h : k.wait4 t pid status options info = .ok (r, k') := Option.some.inj h
    unfold Tree.wait4 at h
    split_ifs at h
    · cases h
      exact hsleep u w' hu
    · obtain ⟨call, hcall, h⟩ := bind_ok h
      obtain ⟨⟨r1, k1⟩, himpl, h⟩ := bind_ok h
      cases h
      exact waitidImpl_waiting hq ha hsleep (fun _ => (wait4Call_cases hcall).1) himpl hu
  | wakeUp t interrupted =>
    obtain ⟨w, hw, h⟩ := Option.map_eq_some_iff.mp h
    unfold Tree.wakeUp at h
    -- the thread no longer sleeps
    generalize hwoken : ({ k.updateThread t fun x => { x with state := .ready } with
        waiting := Function.update k.waiting t none } : Tree) = k0 at h
    have hslept : Slept k t k0 := by
      rw [← hwoken]
      exact ⟨⟨.ready, by simp, rfl⟩, rfl, rfl, rfl, rfl, rfl, rfl, rfl, rfl, rfl⟩
    have hsleep0 : ∀ v w, k0.waiting v = some w → Sleeper created w := by
      intro v w hv
      rw [← hwoken] at hv
      by_cases hvt : v = t
      · subst hvt
        simp at hv
      · simp only [Function.update_of_ne hvt] at hv
        exact hsleep v w hv
    split_ifs at h
    · cases h
      exact hsleep0 u w' hu
    · obtain ⟨⟨r1, k1⟩, hlook, h⟩ := bind_ok h
      cases h
      exact look_waiting (fun _ => hsleep t w hw) hsleep0
        (fun _ _ hc => (ha.slept hslept hz).consume_waiting hc) hlook hu
  | _ => cases h

end Turns

/-- Every sleeping call may sleep. -/
def Sleepers (s : System) : Prop :=
  ∀ t w, s.tree.waiting t = some w → Sleeper (fun p => s.created p = true) w

section Reports

variable {s s' : System} {op : Op} {children : Pid → List Pid} {members : GroupId → List Pid}
  {k' : Tree} {c p : Pid} {n : ℕ}

theorem Sleeper.mono {created created' : Pid → Prop} {w : Waiting} (h : Sleeper created w)
    (hmono : ∀ c, created c → created' c) : Sleeper created' w :=
  ⟨h.idtype, h.hang, h.infop, fun c hc => hmono c (h.created c hc)⟩

theorem Effect.sleepers (he : Effect s children op s') (hg : s.Good children members)
    (hs : Sleepers s) : Sleepers s' := by
  cases he with
  | nothing => exact hs
  | @fork g k' _ _ _ hmoved =>
    intro t w hw
    have hw : s.tree.waiting t = some w := by
      have hwaiting : k'.waiting = s.tree.waiting := hmoved.waiting
      rwa [← hwaiting]
    apply (hs t w hw).mono
    intro c hc
    show Function.update s.created s.tree.nextTid true c = true
    by_cases h : c = s.tree.nextTid <;> simp [h, hc]
  | spawn => exact hs
  | execve => exact hs
  | thread => exact hs
  | @ended p k' _ _ hended =>
    intro t w hw
    have hwaiting : k'.waiting = s.tree.waiting := by
      rw [hended.waiting]
      unfold Tree.beforeDeath
      split <;> rfl
    exact hs t w (by rw [← hwaiting]; exact hw)
  | stop => exact hs
  | cont => exact hs
  | regrouped _ _ hregrouped =>
    intro t w hw
    exact hs t w (by rw [← hregrouped.waiting]; exact hw)
  | waited hmay hwait =>
    obtain ⟨htable, -, hstate⟩ := Tree.mayDo_thread hmay
    have hq := hg.agrees.family.created_of_alive _ (hg.agrees.threads.owner _ htable).1
    intro t w hw
    exact waitStep_waiting hg.agrees hq (hstate ▸ op.threadState_ne) hs hwait hw

theorem request_withInfo (k : Tree) (info : Siginfo) :
    k.request (op.withInfo info) = k.request op := by
  cases op <;> rfl

theorem thread_withInfo (info : Siginfo) : (op.withInfo info).thread = op.thread := by
  cases op <;> rfl

theorem withInfo_withInfo (info info' : Siginfo) :
    (op.withInfo info).withInfo info' = op.withInfo info' := by
  cases op <;> rfl

theorem exists_withInfo (op : Op) : ∃ info, op.withInfo info = op := by
  cases op with
  | wait4 t pid status options info => exact ⟨info, rfl⟩
  | _ => exact ⟨{}, rfl⟩

/-- A step that asks for something comes to a result. -/
theorem waitStep_of_step (hmay : s.tree.mayDo op = true) (h : s.step op = .ok s')
    (hrequest : s.tree.request op ≠ none) :
    ∃ r k', s.tree.waitStep op = some (.ok (r, k')) ∧ s' = s.waited op r k' := by
  unfold System.step at h
  rw [if_neg (not_not.mpr hmay)] at h
  cases op with
  | waitid t call =>
    obtain ⟨⟨r, k'⟩, hwait, h⟩ := bind_ok h
    exact ⟨r, k', congrArg some hwait, (Except.ok.inj h).symm⟩
  | wait4 t pid status options info =>
    obtain ⟨⟨r, k'⟩, hwait, h⟩ := bind_ok h
    exact ⟨r, k', congrArg some hwait, (Except.ok.inj h).symm⟩
  | wakeUp t interrupted =>
    simp only at h
    cases hwait : s.tree.waitStep (.wakeUp t interrupted) with
    | none =>
      have hnone : s.tree.waiting t = none := by
        simpa [Tree.waitStep] using hwait
      simp [Tree.request, hnone] at hrequest
    | some result =>
      rw [hwait] at h
      obtain ⟨⟨r, k'⟩, rfl, h⟩ := bind_ok h
      exact ⟨r, k', rfl, (Except.ok.inj h).symm⟩
  | _ => exact absurd rfl hrequest

theorem Selected.ne_zero {q : Pid} {call : WaitCall} (hg : s.Good children members)
    (h : Selected s q call c) : c ≠ 0 := by
  rintro rfl
  have hcreated := h.1.1
  rw [hg.zero] at hcreated
  cases hcreated

theorem System.Good.outcome {r : WaitResult} (hg : s.Good children members) (hs : Sleepers s)
    (hmay : s.tree.mayDo op = true) {info : Siginfo}
    (h : s.tree.waitStep (op.withInfo info) = some (.ok (r, k'))) :
    Outcome s.tree (fun p => s.created p = true) s.Alive (op.withInfo info) r k' := by
  obtain ⟨htable, -, hstate⟩ := Tree.mayDo_thread hmay
  have hq := hg.agrees.family.created_of_alive _ (hg.agrees.threads.owner _ htable).1
  have hz : (s.tree.thread op.thread).state ≠ .zombie := hstate ▸ op.threadState_ne
  rw [← thread_withInfo info] at hq hz
  exact waitStep_outcome hg.agrees hq hz hs h

theorem CleanWait.meets (hclean : CleanWait s op) (hg : s.Good children members) (hs : Sleepers s)
    (hmay : s.tree.mayDo op = true) : Meets s op := by
  intro info r k' hwait
  cases hg.outcome hs hmay hwait with
  | refused hrequest hr =>
    rw [request_withInfo] at hrequest
    rw [hrequest, hr]
    intro ret written status heq
    cases heq
  | @looked asker call targets hrequest hid hcreated hcomplete hturn =>
    rw [request_withInfo] at hrequest
    rw [thread_withInfo] at hcomplete
    rw [hrequest]
    have hclean := hclean asker call targets hrequest
    have hfirst : ∀ c, s.tree.firstEvent targets = some c →
        Selected s (s.tree.thread op.thread).process call c ∧
          Asked call.options (s.tree.process c).waitCode := by
      rcases hid with hid | hid <;> simpa only [hid] using hclean
    rcases hturn with ⟨e, rfl, -⟩ | hturn
    · trivial
    · cases hturn with
      | reported hf _ _ hshown =>
        obtain ⟨hselected, hasked⟩ := hfirst _ hf
        exact .inr ⟨_, rfl, hselected, hasked, hshown⟩
      | nothing hf hno hshown =>
        refine .inl ⟨rfl, hno, ?_, hshown⟩
        intro c hc hasked
        have htarget : c ∈ targets := by
          apply hcomplete hno c hc.1 hc.2.1 hc.2.2.1
          intro hpid
          have hselects := hc.2.2.2
          simpa only [hpid] using hselects
        have hzero := firstEvent_none hf htarget
        rw [hzero] at hasked
        simp [Asked, CLD_EXITED, CLD_KILLED, CLD_STOPPED, CLD_CONTINUED] at hasked
      | asleep => trivial
  | @group asker call targets hrequest hid hr =>
    rw [request_withInfo] at hrequest
    rw [hrequest]
    have hclean := hclean asker call targets hrequest
    have hnone : asker = .waitid ∧ call.infop = false ∧ hasOption call.options WNOHANG = true ∧
        ∀ c, Selected s (s.tree.thread op.thread).process call c →
          ¬Asked call.options (s.tree.process c).waitCode := by
      rcases hid with hid | hid <;> simpa only [hid] using hclean
    obtain ⟨hasker, hinfop, hno, hnothing⟩ := hnone
    rcases hr with ⟨-, rfl⟩ | ⟨_, hne, -⟩
    · refine .inl ⟨rfl, hno, hnothing, ?_⟩
      rw [hasker]
      intro hwrite
      rw [hinfop] at hwrite
      cases hwrite
    · exact absurd hasker hne

theorem Meets.clean (hmeets : Meets s op) (hg : s.Good children members) (hs : Sleepers s)
    (hmay : s.tree.mayDo op = true) (h : s.step op = .ok s') : CleanWait s op := by
  intro asker call targets hrequest
  obtain ⟨info, hinfo⟩ := exists_withInfo op
  obtain ⟨r, k', hwait, -⟩ := waitStep_of_step hmay h (by rw [hrequest]; simp)
  rw [← hinfo] at hwait
  have hanswers := hmeets info r k' hwait
  rw [hrequest] at hanswers
  cases hg.outcome hs hmay hwait with
  | refused hnone =>
    rw [request_withInfo, hrequest] at hnone
    cases hnone
  | @looked asker' call' targets' hrequest' hid hcreated _ hturn =>
    rw [request_withInfo, hrequest] at hrequest'
    simp only [Option.some.injEq, Prod.mk.injEq] at hrequest'
    obtain ⟨rfl, rfl, rfl⟩ := hrequest'
    have hfirst : ∀ c, s.tree.firstEvent targets = some c →
        Selected s (s.tree.thread op.thread).process call c ∧
          Asked call.options (s.tree.process c).waitCode := by
      intro c hc
      have hne : c ≠ 0 := by
        rintro rfl
        have hzero := hcreated 0 (firstEvent_some hc).1
        rw [hg.zero] at hzero
        cases hzero
      rcases hturn with ⟨e, -, rfl⟩ | hturn
      · cases hc
      · cases hturn with
        | reported hf =>
          obtain rfl := Option.some.inj (hf.symm.trans hc)
          rcases hanswers with ⟨hret, -⟩ | ⟨d, hret, hselected, hasked, -⟩
          · exact absurd (by exact_mod_cast hret) hne
          · obtain rfl : _ = d := by exact_mod_cast hret
            exact ⟨hselected, hasked⟩
        | nothing hf =>
          rw [hf] at hc
          cases hc
        | asleep hf =>
          rw [hf] at hc
          cases hc
    rcases hid with hid | hid <;> simpa only [hid] using hfirst
  | @group asker' call' targets' hrequest' hid hr =>
    rw [request_withInfo, hrequest] at hrequest'
    simp only [Option.some.injEq, Prod.mk.injEq] at hrequest'
    obtain ⟨rfl, rfl, rfl⟩ := hrequest'
    have hnone : asker = .waitid ∧ call.infop = false ∧ hasOption call.options WNOHANG = true ∧
        ∀ c, Selected s (s.tree.thread op.thread).process call c →
          ¬Asked call.options (s.tree.process c).waitCode := by
      rcases hr with ⟨rfl, rfl⟩ | ⟨status, -, hany⟩
      · rcases hanswers with ⟨-, hno, hnothing, hshown⟩ | ⟨d, hret, hselected, -⟩
        · refine ⟨rfl, ?_, hno, hnothing⟩
          cases hinfop : call.infop with
          | false => rfl
          | true => cases hshown hinfop
        · exact absurd (by exact_mod_cast hret.symm) (hselected.ne_zero hg)
      · -- `wait4` returns whatever stood in its local variable
        have hgarbage := hany { pid := -5 }
        rw [withInfo_withInfo] at hgarbage
        have hanswers := hmeets _ _ _ hgarbage
        rw [hrequest] at hanswers
        rcases hanswers with ⟨hret, -⟩ | ⟨d, hret, -⟩
        · cases hret
        · have hret : (-5 : ℤ) = d := hret
          omega
    rcases hid with hid | hid <;> simpa only [hid] using hnone

/-! ## Zombies are reported once -/

/-- A report of the zombie `p` by a call without `WNOWAIT`. -/
def Report.ends (p : Pid) (r : Report) : Bool := r.pid = (p : ℤ) && r.zombie && !r.nowait

/-- Every zombie is reported by at most one call without `WNOWAIT`. -/
def ReportedOnce (s : System) : Prop := ∀ p, s.reports.countP (Report.ends p) ≤ 1

/-- A zombie that has been reported is gone, and has been reported once. -/
structure Reaped (s : System) : Prop where
  gone : ∀ p, ∀ r ∈ s.reports, r.ends p = true → s.deleted p = true
  once : ReportedOnce s

theorem Reaped.mono (h : Reaped s) (hreports : s'.reports = s.reports)
    (hdeleted : ∀ p, s.deleted p = true → s'.deleted p = true) : Reaped s' := by
  constructor
  · intro p r hr hends
    rw [hreports] at hr
    exact hdeleted p (h.gone p r hr hends)
  · intro p
    rw [hreports]
    exact h.once p

/-- The call of a request, and whether it leaves a zombie. -/
theorem nowait_of_request {k : Tree} {asker : Asker} {call : WaitCall} {targets : List Pid}
    (h : k.request op = some (asker, call, targets)) :
    op.nowait k = hasOption call.options WNOWAIT := by
  unfold Tree.request at h
  cases op with
  | waitid t call' =>
    simp only at h
    split_ifs at h
    simp only [Option.some.injEq, Prod.mk.injEq] at h
    rw [← h.2.1]
    rfl
  | wait4 t pid status options info =>
    simp only at h
    split_ifs at h
    cases hcall : k.wait4Call t pid options with
    | error e =>
      rw [hcall] at h
      cases h
    | ok call' =>
      rw [hcall] at h
      simp only [Option.some.injEq, Prod.mk.injEq] at h
      obtain ⟨-, rfl, -⟩ := h
      rw [(wait4Call_cases hcall).2.1]
      have hsame : (options ||| WEXITED) &&& WNOWAIT = options &&& WNOWAIT := by
        rw [BitVec.and_or_distrib_right]
        simp [WEXITED, WNOWAIT]
      show hasOption options WNOWAIT = hasOption (options ||| WEXITED) WNOWAIT
      unfold hasOption
      rw [hsame]
  | wakeUp t interrupted =>
    simp only at h
    split_ifs at h
    cases hw : k.waiting t with
    | none => simp [hw] at h
    | some w =>
      simp only [hw, Option.map_some, Option.some.injEq, Prod.mk.injEq] at h
      rw [← h.2.1]
      simp [Op.nowait, hw]
  | _ => cases h

/-- A zombie that a turn reports without `WNOWAIT` is gone. -/
theorem consume_deleted {k k1 : Tree} {created alive : Pid → Prop} {t : Tid} {options : BitVec 32}
    (ha : System.Agrees k created alive children members) (hz : (k.thread t).state ≠ .zombie)
    (hslept : Slept k t k1) (hconsume : k1.consume options c = .ok k')
    (hzombie : (k.process c).isZombie = true) (hno : hasOption options WNOWAIT = false) :
    (k'.process c).threadList = [] := by
  unfold Tree.consume at hconsume
  rw [hslept.process, hno, hzombie] at hconsume
  obtain ⟨-, -, -, hd, -, -⟩ :=
    (ha.slept hslept hz).threads.destroyProcess (ha.slept hslept hz).family hconsume
  rw [hd.self]

theorem Reaped.report {r : Report} (h : Reaped s) (hreports : s'.reports = r :: s.reports)
    (hdeleted : ∀ p, s.deleted p = true → s'.deleted p = true)
    (hnew : ∀ p, r.ends p = true → s.deleted p = false ∧ s'.deleted p = true) : Reaped s' := by
  constructor
  · intro p r' hr' hends
    rw [hreports] at hr'
    rcases List.mem_cons.mp hr' with rfl | hr'
    · exact (hnew p hends).2
    · exact hdeleted p (h.gone p r' hr' hends)
  · intro p
    rw [hreports, List.countP_cons]
    split_ifs with hends
    · -- the process was there, so no earlier report has used it up
      have hnone : s.reports.countP (Report.ends p) = 0 := by
        rw [List.countP_eq_zero]
        intro r' hr' hends'
        have hgone := h.gone p r' hr' hends'
        rw [(hnew p hends).1] at hgone
        cases hgone
      rw [hnone]
    · exact h.once p

theorem CleanWait.uses {ret : ℤ} {info : Option Siginfo} {status : Option ℤ}
    (hclean : CleanWait s op) (hg : s.Good children members) (hs : Sleepers s)
    (hmay : s.tree.mayDo op = true)
    (hwait : s.tree.waitStep op = some (.ok (.returned ret info status, k'))) (hp : ret = p)
    (hne : ret ≠ 0) (hzombie : (s.tree.process p).isZombie = true)
    (hno : op.nowait s.tree = false) :
    s.Alive p ∧ Ordinary p ∧ (k'.process p).threadList = [] := by
  obtain ⟨before, hbefore⟩ := exists_withInfo op
  obtain ⟨-, -, hstate⟩ := Tree.mayDo_thread hmay
  have hz : (s.tree.thread op.thread).state ≠ .zombie := hstate ▸ op.threadState_ne
  have hanswers := hclean.meets hg hs hmay before _ k' (by rw [hbefore]; exact hwait)
  have houtcome := hg.outcome hs hmay
    (show s.tree.waitStep (op.withInfo before) = _ by rw [hbefore]; exact hwait)
  rw [hbefore] at houtcome
  cases houtcome with
  | refused _ hr => cases hr
  | @looked asker call targets hrequest hid hcreated _ hturn =>
    rw [hrequest] at hanswers
    rcases hanswers with ⟨hzero, -⟩ | ⟨c, hc, hselected, -⟩
    · exact absurd hzero hne
    obtain rfl : p = c := by exact_mod_cast hp.symm.trans hc
    refine ⟨hselected.1, hselected.2.1, ?_⟩
    rcases hturn with ⟨e, he, -⟩ | hturn
    · cases he
    · generalize hr : WaitResult.returned ret info status = r at hturn
      cases hturn with
      | @reported d _ _ k1 _ hf hslept hconsume _ =>
        have hd : ret = d := (WaitResult.returned.inj hr).1
        obtain rfl : p = d := by exact_mod_cast hp.symm.trans hd
        rw [nowait_of_request hrequest] at hno
        exact consume_deleted hg.agrees hz hslept hconsume hzombie hno
      | nothing => exact absurd (WaitResult.returned.inj hr).1 hne
      | asleep => cases hr
  | group hrequest hid hr =>
    rw [hrequest] at hanswers
    rcases hanswers with ⟨hzero, -⟩ | ⟨c, hc, hselected, -⟩
    · exact absurd hzero hne
    · rcases hr with ⟨-, hr⟩ | ⟨st, hasker, -⟩
      · exact absurd (WaitResult.returned.inj hr).1 hne
      · have hnone := hclean _ _ _ hrequest
        rcases hid with hid | hid <;> simp only [hid] at hnone <;> exact absurd hnone.1 hasker

/-- A clean step reports no zombie twice. -/
theorem Effect.reaped (he : Effect s children op s') (hg : s.Good children members)
    (hs : Sleepers s) (hclean : CleanWait s op) (h : Reaped s) : Reaped s' := by
  cases he with
  | @waited r k1 k' hmay hwait _ _ =>
    obtain ⟨htable, -, hstate⟩ := Tree.mayDo_thread hmay
    have hz : (s.tree.thread op.thread).state ≠ .zombie := hstate ▸ op.threadState_ne
    have hmono : ∀ p, s.deleted p = true → (s.waited op r k').deleted p = true := by
      intro p hp
      simp [System.waited, hp]
    by_cases hret : ∃ ret info status, r = .returned ret info status ∧ ret ≠ 0
    · obtain ⟨ret, written, status, rfl, hne⟩ := hret
      apply h.report (by simp [System.waited, hne]; rfl) hmono
      intro p hends
      simp only [Report.ends, Bool.and_eq_true, decide_eq_true_eq, Bool.not_eq_true'] at hends
      obtain ⟨⟨hp, hzombie⟩, hno⟩ := hends
      obtain ⟨halive, ho, hlist⟩ :=
        hclean.uses hg hs hmay hwait hp hne (by simpa [hp] using hzombie) hno
      have hmain := hg.agrees.threads.main p halive ho.2
      have hthreads : (s.tree.process p).threadList ≠ [] := by
        intro hnil
        rw [hnil] at hmain
        cases hmain
      exact ⟨halive.2, by simp [System.waited, hlist, hthreads]⟩
    · refine h.mono ?_ hmono
      unfold System.waited
      cases r with
      | returned ret info status =>
        have hzero : ret = 0 := by
          by_contra hne
          exact hret ⟨ret, info, status, rfl, hne⟩
        simp [hzero]
      | _ => rfl
  | _ => exact h.mono rfl fun _ hp => hp

theorem Effect.deleted (he : Effect s children op s') (hg : s.Good children members)
    (hp : s'.deleted p = true) : s.deleted p = true ∨ (s.tree.process p).isZombie = true := by
  cases he with
  | @waited r k1 k' hmay _ hslept hconsumed =>
    obtain ⟨-, -, hstate⟩ := Tree.mayDo_thread hmay
    have ha := hg.agrees.slept hslept (hstate ▸ op.threadState_ne)
    rw [← hslept.process]
    simp only [System.waited, Bool.or_eq_true, Bool.and_eq_true, Bool.not_eq_true'] at hp
    rcases hp with hp | ⟨hbefore, hafter⟩
    · exact .inl hp
    · rcases ha.consumed hconsumed with ⟨hlist, -⟩ | ⟨c, _, _, hd, -, -, hzombie, -⟩
      · rw [hlist, hslept.process, hbefore] at hafter
        cases hafter
      · by_cases hpc : p = c
        · subst hpc
          exact .inr hzombie
        · rw [hd.other p hpc, hslept.process, hbefore] at hafter
          cases hafter
  | _ => exact .inl hp

theorem sleepers_booted : Sleepers (System.booted n) := by
  intro t w hw
  cases hw

/-- **Main theorem.** In every system that is reached, the result of a wait call, or of a turn of
    one, meets the request exactly if the wait is clean, and no step deletes a living process. In a
    run of clean waits every zombie is reported by at most one call without `WNOWAIT`. -/
theorem reports_match {Ok : System → Op → Prop} (h : Run System.step Ok (System.booted n) s) :
    (∀ op s', s.tree.mayDo op = true → s.step op = .ok s' →
      (Meets s op ↔ CleanWait s op) ∧
        ∀ p, s'.deleted p = true → s.deleted p = true ∨ (s.tree.process p).isZombie = true) ∧
      ((∀ s op, Ok s op → CleanWait s op) → ReportedOnce s) := by
  constructor
  · have hinv : Sleepers s ∧ ∃ children members, s.Good children members := by
      apply h.invariant (P := fun s => Sleepers s ∧ ∃ children members, s.Good children members)
      · rintro s1 o s2 ⟨hs, children, members, hg⟩ - hstep
        obtain ⟨hgood, he⟩ := step_effect hg hstep
        exact ⟨he.sleepers hg hs, hgood⟩
      · exact ⟨sleepers_booted, _, _, booted_good⟩
    obtain ⟨hs, children, members, hg⟩ := hinv
    intro op s' hmay hstep
    exact ⟨⟨fun hmeets => hmeets.clean hg hs hmay hstep, fun hclean => hclean.meets hg hs hmay⟩,
      fun p hp => (step_effect hg hstep).2.deleted hg hp⟩
  · intro hok
    have hinv : Reaped s ∧ Sleepers s ∧ ∃ children members, s.Good children members := by
      apply h.invariant (P := fun s => Reaped s ∧ Sleepers s ∧
        ∃ children members, s.Good children members)
      · rintro s1 o s2 ⟨hr, hs, children, members, hg⟩ ok hstep
        obtain ⟨hgood, he⟩ := step_effect hg hstep
        exact ⟨he.reaped hg hs (hok _ _ ok) hr, he.sleepers hg hs, hgood⟩
      · refine ⟨⟨fun p r hr => absurd hr List.not_mem_nil, fun p => Nat.zero_le 1⟩,
          sleepers_booted, _, _, booted_good⟩
    exact hinv.1.once

/-- A test for clean waits that ask for all children. -/
def cleanFirst (s : System) (op : Op) : Bool :=
  match s.tree.request op with
  | none => true
  | some (_, call, targets) => call.idtype = .all &&
    match s.tree.firstEvent targets with
    | none => true
    | some c => s.created c && !s.deleted c && Ordinary c &&
      (s.tree.process c).parent = some (s.tree.thread op.thread).process &&
      Asked call.options (s.tree.process c).waitCode

theorem cleanFirst_clean (h : cleanFirst s op = true) : CleanWait s op := by
  intro asker call targets hrequest
  unfold cleanFirst at h
  rw [hrequest] at h
  simp only [Bool.and_eq_true, decide_eq_true_eq] at h
  obtain ⟨hid, h⟩ := h
  simp only [hid]
  intro c hc
  rw [hc] at h
  simp only [Bool.and_eq_true, decide_eq_true_eq, Bool.not_eq_true'] at h
  obtain ⟨⟨⟨⟨hcreated, hdeleted⟩, ho⟩, hparent⟩, hasked⟩ := h
  exact ⟨⟨⟨hcreated, hdeleted⟩, ho, hparent, by simp [hid]⟩, hasked⟩

/-- `wait4` for any child, with a pointer for the status. -/
def wait4Any (options : BitVec 32) : Op := .wait4 1 (-1) true options {}

/-- A child is stopped and seen with `WUNTRACED`; then it goes on and exits. -/
def reportOps : List Op := [.fork 1, .stop 4 20, wait4Any WSTOPPED, .cont 4, .exitGroup 4 3]

/-- The wait for the end of the child is answered, and uses the child up. -/
theorem reports_match_exit : ∃ s s', Run System.step (fun s op => cleanFirst s op = true)
      (System.booted 0) s ∧ s.step (wait4Any 0#32) = .ok s' ∧
    s'.reports = [⟨4, true, false⟩, ⟨4, false, false⟩] ∧ Meets s (wait4Any 0#32) ∧
      ReportedOnce s := by
  obtain ⟨s, hs, hv⟩ := exists_ok_of_map (show ((reportOps.foldlM
      (guarded System.step (fun s op => cleanFirst s op = true) .assertion) (.booted 0)).map fun s =>
        (s.tree.mayDo (wait4Any 0#32), cleanFirst s (wait4Any 0#32),
          (s.step (wait4Any 0#32)).map System.reports)) =
    .ok (true, true, .ok [⟨4, true, false⟩, ⟨4, false, false⟩]) by decide +kernel)
  simp only [Prod.mk.injEq] at hv
  obtain ⟨hmay, hclean, hstep⟩ := hv
  obtain ⟨s', hstep, hreports⟩ := exists_ok_of_map hstep
  have hrun := Run.of_guarded hs
  obtain ⟨hmatch, honce⟩ := reports_match hrun
  exact ⟨s, s', hrun, hstep, hreports,
    (hmatch _ s' hmay hstep).1.mpr (cleanFirst_clean hclean), honce fun _ _ => cleanFirst_clean⟩

/-- What there is to see of a call of `wait4`. -/
structure WaitSeen where
  mayDo : Bool
  result : Except Panic WaitResult
  request : Option (Asker × WaitCall × List Pid)
  code : ℤ
  deriving DecidableEq

/-- The call, with a child that may be reported. -/
def System.waitSeen (s : System) (options : BitVec 32) (c : Pid) : WaitSeen where
  mayDo := s.tree.mayDo (wait4Any options)
  result := (s.tree.wait4 1 (-1) true options {}).map Prod.fst
  request := s.tree.request (wait4Any options)
  code := (s.tree.process c).waitCode

/-- A stopped child is reported by `wait4`, though `WUNTRACED` is not given. -/
theorem stopped_reported : ∃ s, Run System.step (fun _ _ => True) (System.booted 0) s ∧
    s.tree.mayDo (wait4Any 0#32) = true ∧ ¬Meets s (wait4Any 0#32) := by
  obtain ⟨s, hs, hv⟩ := exists_ok_of_map (show (([Op.fork 1, .stop 4 20].foldlM
      System.step (.booted 0)).map fun s => s.waitSeen 0#32 4) =
    .ok ⟨true, .ok (.returned 4 none (some 0x147f)),
      some (.wait4 true, ⟨.all, 0, WEXITED, true⟩, [4]), CLD_STOPPED⟩ by decide +kernel)
  obtain ⟨hmay, hwait, hrequest, hcode⟩ := WaitSeen.mk.inj hv
  obtain ⟨⟨r, k'⟩, hwait, rfl⟩ := exists_ok_of_map hwait
  refine ⟨s, Run.start.foldlM (fun _ _ _ => trivial) hs, hmay, ?_⟩
  intro hmeets
  have hanswers := hmeets {} _ k' (congrArg some hwait)
  rw [hrequest] at hanswers
  rcases hanswers with ⟨hret, -⟩ | ⟨c, hret, -, hasked, -⟩
  · cases hret
  · have hret : (4 : ℤ) = c := hret
    obtain rfl : c = 4 := by exact_mod_cast hret.symm
    rw [hcode] at hasked
    revert hasked
    decide

end Reports

end Fishix.ProcessTree
