import Fishix.Sched.Machine

/-!
# The run queue

The run list of `sched/sched.cpp`: threads hang in it from `enqueue_thread` or their creation
until `dequeue_thread` or `terminate_thread`. `RunList k xs` says that the list is a ring of the
threads `xs` and how they go with the thread states.

A thread that SIGCONT has enqueued stays STOPPED until the scheduler interrupt reaches it, and
`enqueue_thread` and `terminate_thread` go by the state alone: a second SIGCONT links it twice,
and termination leaves it in the list. `Calm` excludes just that.

* `runQueue_wellFormed`: in every run that is calm the run queue is well formed.
* `continuedTwice_breaks`: a run that is not.
-/

namespace Fishix.Sched

/-- READY or RUNNING. -/
def Kernel.Awake (k : Kernel) (t : Tid) : Prop := k.state t = .ready ∨ k.state t = .running

/-- A stopped thread is not in the run list. -/
def Kernel.Calm (k : Kernel) (t : Tid) : Prop :=
  k.state t = .stopped → k.schedLinks (some t) = ⟨none, none⟩

/-- The threads `xs` hang in the run list, in this order. -/
structure RunList (k : Kernel) (xs : List Tid) : Prop where
  ring : IsRing k.schedLinks none (xs.map some)
  idle_notMem : k.idleThread ∉ xs
  idle_awake : k.Awake k.idleThread
  awake_mem : ∀ t, t ≠ k.idleThread → k.Awake t → t ∈ xs
  mem_state : ∀ t ∈ xs, k.state t ≠ .blocked ∧ k.state t ≠ .zombie
  free : ∀ t, t ∉ xs → k.schedLinks (some t) = ⟨none, none⟩
  unused : ∀ t, k.used t = false → k.state t = .zombie

namespace RunList

variable {k k' : Kernel} {xs : List Tid} {t : Tid} {l : Links (Option Tid)}

section

variable (h : RunList k xs)

include h

theorem linked (ht : t ∈ xs) : k.schedLinks (some t) ≠ ⟨none, none⟩ := by
  obtain ⟨pre, post, rfl⟩ := List.append_of_mem ht
  have hr := h.ring
  rw [List.map_append, List.map_cons] at hr
  intro hnull
  have hnext := hr.next
  rw [hnull] at hnext
  cases hnext

/-- The list tells which stopped threads are calm. -/
theorem calm_iff : k.Calm t ↔ (k.state t = .stopped → t ∉ xs) := by
  constructor
  · intro hc hs ht
    exact h.linked ht (hc hs)
  · intro hc hs
    exact h.free t (hc hs)

/-- Threads that stay awake may change between READY and RUNNING, and a thread outside the list
    may die. -/
theorem restate (hl : k'.schedLinks = k.schedLinks) (hi : k'.idleThread = k.idleThread)
    (hu : k'.used = k.used) (hs : ∀ t, k'.state t = k.state t ∨ (t ∈ xs ∨ t = k.idleThread) ∧
    k'.Awake t ∨ t ∉ xs ∧ t ≠ k.idleThread ∧ k'.state t = .zombie) : RunList k' xs := by
  have hidle := h.idle_awake
  constructor
  · exact hl ▸ h.ring
  · exact hi ▸ h.idle_notMem
  · rw [hi]
    have := hs k.idleThread
    unfold Kernel.Awake at *
    grind
  · intro t hne ha
    have := hs t
    have := h.awake_mem t
    unfold Kernel.Awake at *
    grind
  · intro t ht
    have := hs t
    have := h.mem_state t ht
    unfold Kernel.Awake at *
    grind
  · exact fun t ht => hl ▸ h.free t ht
  · intro t ht
    rw [hu] at ht
    have := hs t
    have := h.unused t ht
    have := h.mem_state t
    unfold Kernel.Awake at *
    grind

theorem link (ht : t ∉ xs) (hidle : t ≠ k.idleThread)
    (hadd : k.schedLinks.addBefore none (some t) = some l) (hl : k'.schedLinks = l)
    (hi : k'.idleThread = k.idleThread) (hu : ∀ u, k'.used u = false → u ≠ t ∧ k.used u = false)
    (hs : ∀ u, u ≠ t → k'.state u = k.state u) (hst : k'.state t ≠ .blocked ∧ k'.state t ≠ .zombie)
    : RunList k' (xs ++ [t]) := by
  have hnew : some t ∉ none :: xs.map some := by simpa using ht
  obtain ⟨l', hadd', hring, hframe⟩ := h.ring.addBefore hnew
  obtain rfl : l' = l := Option.some.inj (hadd'.symm.trans hadd)
  subst hl
  constructor
  · rw [List.map_append]
    exact hring
  · rw [hi]
    simpa [h.idle_notMem] using hidle.symm
  · rw [hi]
    unfold Kernel.Awake
    rw [hs _ hidle.symm]
    exact h.idle_awake
  · intro u hne ha
    by_cases hut : u = t
    · simp [hut]
    · unfold Kernel.Awake at ha
      rw [hs u hut] at ha
      exact List.mem_append_left _ (h.awake_mem u (hi ▸ hne) ha)
  · intro u hu
    by_cases hut : u = t
    · rw [hut]
      exact hst
    · rw [hs u hut]
      exact h.mem_state u (by simpa [hut] using hu)
  · intro u hu
    have hu' : u ∉ xs ∧ u ≠ t := by simpa using hu
    rw [hframe (some u) (by simpa using hu'.1) (by simpa using hu'.2)]
    exact h.free u hu'.1
  · intro u hun
    obtain ⟨hut, hun⟩ := hu u hun
    rw [hs u hut]
    exact h.unused u hun

theorem unlink (ha : k.Awake t) (hrem : k.schedLinks.remove (some t) = some l)
    (hl : k'.schedLinks = l) (hi : k'.idleThread = k.idleThread) (hu : k'.used = k.used)
    (hs : ∀ u, u ≠ t → k'.state u = k.state u) (hst : ¬k'.Awake t) :
    ∃ ys, RunList k' ys ∧ ∀ u ∈ ys, u ∈ xs ∧ u ≠ t := by
  have hidle : t ≠ k.idleThread := by
    rintro rfl
    unfold Links.remove at hrem
    rw [h.free _ h.idle_notMem] at hrem
    cases hrem
  obtain ⟨pre, post, rfl⟩ := List.append_of_mem (h.awake_mem t hidle ha)
  have hr := h.ring
  rw [List.map_append, List.map_cons] at hr
  obtain ⟨l', hrem', hring, hnull, hframe⟩ := hr.remove
  obtain rfl : l' = l := Option.some.inj (hrem'.symm.trans hrem)
  subst hl
  have hnd : (pre ++ t :: post).Nodup := by
    have := (List.nodup_cons.mp h.ring.nodup).2
    exact this.of_map
  have hmem : ∀ u, u ∈ pre ++ post ↔ u ∈ pre ++ t :: post ∧ u ≠ t := by
    intro u
    have := List.nodup_middle.mp hnd
    have htn := (List.nodup_cons.mp this).1
    simp only [List.mem_append, List.mem_cons] at htn ⊢
    constructor
    · intro hu
      refine ⟨by tauto, ?_⟩
      rintro rfl
      exact htn hu
    · tauto
  refine ⟨pre ++ post, ?_, fun u hu => (hmem u).mp hu⟩
  constructor
  · rw [List.map_append]
    exact hring
  · rw [hi, hmem]
    exact fun hm => h.idle_notMem hm.1
  · rw [hi]
    unfold Kernel.Awake
    rw [hs _ hidle.symm]
    exact h.idle_awake
  · intro u hne hau
    rw [hmem]
    by_cases hut : u = t
    · subst hut
      exact absurd hau hst
    · unfold Kernel.Awake at hau
      rw [hs u hut] at hau
      exact ⟨h.awake_mem u (hi ▸ hne) hau, hut⟩
  · intro u hu
    obtain ⟨hu, hut⟩ := (hmem u).mp hu
    rw [hs u hut]
    exact h.mem_state u hu
  · intro u hu
    by_cases hut : u = t
    · rw [hut]
      exact hnull
    · have hout : u ∉ pre ++ t :: post := fun hm => hu ((hmem u).mpr ⟨hm, hut⟩)
      rw [hframe (some u) (by simpa using hout)]
      exact h.free u hout
  · intro u hun
    rw [hu] at hun
    have hz := h.unused u hun
    have hut : u ≠ t := by
      rintro rfl
      unfold Kernel.Awake at ha
      grind
    rw [hs u hut]
    exact hz

end

/-! ## The functions of the scheduler -/

section

variable (h : RunList k xs)

include h

/-- `enqueue_thread` of a blocked thread, or of a stopped one that is calm. -/
theorem enqueueThread {s : Option Signal} (hcalm : s = some SIGCONT → k.Calm t)
    (hk : k.enqueueThread t s = .ok k') :
    k' = k ∨ RunList k' (xs ++ [t]) ∧ (k.state t = .blocked ∨ s = some SIGCONT) := by
  obtain rfl | ⟨hstate, l, hl, rfl⟩ := enqueueThread_cases hk
  · exact .inl rfl
  refine .inr ⟨?_, hstate.imp_right And.right⟩
  have hnot : t ∉ xs := by
    obtain hb | ⟨hs, hsig⟩ := hstate
    · exact fun hm => (h.mem_state t hm).1 hb
    · exact h.calm_iff.mp (hcalm hsig) hs
  have hidle : t ≠ k.idleThread := by
    rintro rfl
    have := h.idle_awake
    unfold Kernel.Awake at this
    grind
  refine h.link hnot hidle hl rfl rfl ?_ ?_ ?_
  · intro u hu
    refine ⟨?_, hu⟩
    rintro rfl
    have := h.unused u hu
    grind
  · intro u hu
    exact Kernel.updateThread_state_of_ne _ _ _ _ hu
  · rw [Kernel.updateThread_state_self]
    simp only
    obtain hb | ⟨hs, -⟩ := hstate
    · simp [hb]
    · have hs' : (k.thread t).state = .stopped := hs
      simp [hs, hs']

theorem wake (hw : Wake k k') : ∃ ys, RunList k' ys ∧ ∀ u ∈ ys, u ∈ xs ∨ k.state u = .blocked := by
  cases hw with
  | mark t w s =>
    refine ⟨xs, h.restate rfl rfl rfl ?_, fun u hu => .inl hu⟩
    intro u
    exact .inl (Kernel.updateThread_state _ _ _ rfl u)
  | @enqueue _ t s hs hk =>
    obtain rfl | ⟨hrun, hb⟩ := h.enqueueThread (fun hc => absurd hc hs) hk
    · exact ⟨xs, h, fun u hu => .inl hu⟩
    · refine ⟨xs ++ [t], hrun, ?_⟩
      intro u hu
      obtain hu | hu := List.mem_append.mp hu
      · exact .inl hu
      · obtain rfl : u = t := by simpa using hu
        exact .inr (hb.resolve_right hs)
  | event e n => exact ⟨xs, h.restate rfl rfl rfl fun _ => .inl rfl, fun u hu => .inl hu⟩
  | process p f threads actions =>
    exact ⟨xs, h.restate rfl rfl rfl fun _ => .inl rfl, fun u hu => .inl hu⟩

theorem wakes (hw : Wakes k k') :
    ∃ ys, RunList k' ys ∧ ∀ u ∈ ys, u ∈ xs ∨ k.state u = .blocked := by
  induction hw with
  | refl => exact ⟨xs, h, fun u hu => .inl hu⟩
  | @tail k1 k2 hw1 hw2 ih =>
    obtain ⟨ys, hrun, hys⟩ := ih
    obtain ⟨zs, hrun', hzs⟩ := hrun.wake hw2
    refine ⟨zs, hrun', ?_⟩
    intro u hu
    obtain hu | hb := hzs u hu
    · exact hys u hu
    · -- what is blocked now was blocked before
      right
      obtain hsame | ⟨hb', -⟩ := (Wakes.quiet hw1).state u
      · rw [← hsame]
        exact hb
      · exact hb'

theorem calm_wakes (hw : Wakes k k') (hc : k.Calm t) : k'.Calm t := by
  obtain ⟨ys, hrun, hys⟩ := h.wakes hw
  rw [hrun.calm_iff]
  intro hs ht
  have hks : k.state t = .stopped := by
    obtain hsame | ⟨-, hr⟩ := (Wakes.quiet hw).state t
    · rw [← hsame]
      exact hs
    · grind
  obtain hm | hb := hys t ht
  · exact h.calm_iff.mp hc hks hm
  · grind

theorem sendSignal {s : Signal} (hcalm : s = SIGCONT → k.Calm t) (hk : k.sendSignal t s = .ok k') :
    ∃ ys, RunList k' ys := by
  unfold Kernel.sendSignal at hk
  obtain ⟨k1, h1, hk⟩ := bind_ok hk
  have hmark : Wake k (k.updateThread t fun x =>
      { x with pendingSignals := x.pendingSignals ||| getSignalBit s }) :=
    .mark t (k.thread t).whichEvent _
  obtain ⟨ys, hrun, -⟩ := h.wake hmark
  have hcalm' : some s = some SIGCONT → (k.updateThread t fun x =>
      { x with pendingSignals := x.pendingSignals ||| getSignalBit s }).Calm t := by
    intro hs
    exact h.calm_wakes (.single hmark) (hcalm (Option.some.inj hs))
  obtain ⟨zs, hrun⟩ : ∃ zs, RunList k1 zs := by
    obtain rfl | ⟨hrun', -⟩ := hrun.enqueueThread hcalm' h1
    · exact ⟨ys, hrun⟩
    · exact ⟨_, hrun'⟩
  obtain ⟨ws, hrun, -⟩ := hrun.wakes (wakes_triggerAll hk)
  exact ⟨ws, hrun⟩

theorem setAside {st : ThreadState} (hst : st ≠ .ready ∧ st ≠ .running) (ha : k.Awake t)
    (hrem : k.schedLinks.remove (some t) = some l) :
    ∃ ys, RunList (k.setAside l t st) ys ∧ ∀ u ∈ ys, u ∈ xs ∧ u ≠ t := by
  refine h.unlink ha hrem rfl rfl rfl ?_ ?_
  · intro u hu
    exact setAside_state_of_ne hu
  · unfold Kernel.Awake
    rw [setAside_state_self]
    simpa using hst

theorem dequeueThread {s : Option Signal} (hk : k.dequeueThread t s = .ok k') :
    ∃ ys, RunList k' ys := by
  obtain ⟨ha, l, hl, hw⟩ := dequeueThread_cases hk
  have hst : (if s = none then ThreadState.blocked else .stopped) ≠ .ready ∧
      (if s = none then ThreadState.blocked else .stopped) ≠ .running := by
    split_ifs <;> simp
  obtain ⟨ys, hrun, -⟩ := h.setAside hst ha hl
  obtain ⟨zs, hrun, -⟩ := hrun.wakes hw
  exact ⟨zs, hrun⟩

/-- `terminate_thread` of a thread that is calm; the other threads stay calm. -/
theorem terminateThread {s : Option Signal} (hcalm : k.Calm t) (hk : k.terminateThread t s = .ok k')
    : ∃ ys, RunList k' ys ∧ ∀ u, k.Calm u → k'.Calm u := by
  obtain ⟨-, rfl⟩ | ⟨hz, l, hl, hw⟩ := terminateThread_cases hk
  · exact ⟨xs, h, fun u hu => hu⟩
  obtain ⟨ys, hrun, hys⟩ : ∃ ys, RunList (k.setAside l t .zombie) ys ∧ ∀ u ∈ ys, u ∈ xs := by
    split_ifs at hl with ha
    · have hst : ThreadState.zombie ≠ .ready ∧ ThreadState.zombie ≠ .running := by simp
      obtain ⟨ys, hrun, hys⟩ := h.setAside hst ha hl
      exact ⟨ys, hrun, fun u hu => (hys u hu).1⟩
    · subst hl
      -- the thread is blocked, or stopped and calm: it is not in the list
      have hnot : t ∉ xs := by
        intro hm
        have hst := h.mem_state t hm
        have hstop : k.state t = .stopped := by
          cases hstate : k.state t <;> simp_all
        exact h.calm_iff.mp hcalm hstop hm
      have hidle : t ≠ k.idleThread := by
        rintro rfl
        exact ha h.idle_awake
      refine ⟨xs, h.restate rfl rfl rfl ?_, fun u hu => hu⟩
      intro u
      by_cases hu : u = t
      · subst hu
        exact .inr (.inr ⟨hnot, hidle, setAside_state_self⟩)
      · exact .inl (setAside_state_of_ne hu)
  have hcalm1 : ∀ u, k.Calm u → (k.setAside l t .zombie).Calm u := by
    intro u hc
    rw [hrun.calm_iff]
    intro hs hu
    have hut : u ≠ t := by
      rintro rfl
      rw [setAside_state_self] at hs
      cases hs
    have hks : k.state u = .stopped := by
      rw [← hs, setAside_state_of_ne hut]
    exact h.calm_iff.mp hc hks (hys u hu)
  obtain ⟨zs, hrun', -⟩ := hrun.wakes hw
  exact ⟨zs, hrun', fun u hc => hrun.calm_wakes hw (hcalm1 u hc)⟩

theorem terminateProcess {p : Pid} {s : Option Signal}
    (hcalm : ∀ t ∈ (k.process p).threadList, k.Calm t) (hk : k.terminateProcess p s = .ok k') :
    ∃ ys, RunList k' ys := by
  unfold Kernel.terminateProcess at hk
  have hend := foldlM_ok_invariant
    (fun k1 => (∃ ys, RunList k1 ys) ∧ ∀ t ∈ (k.process p).threadList, k1.Calm t) ⟨⟨xs, h⟩, hcalm⟩
    (fun t k1 k2 ht hk1 hstep => by
      obtain ⟨⟨ys, hrun⟩, hc⟩ := hk1
      obtain ⟨zs, hrun', hkeep⟩ := hrun.terminateThread (hc t ht) hstep
      exact ⟨⟨zs, hrun'⟩, fun u hu => hkeep u (hc u hu)⟩) hk
  exact hend.1

end

/-! ## Signals and the scheduler interrupt -/

theorem dispatched (h : RunList k xs) (hd : Dispatched k t k') : RunList k' xs :=
  h.restate hd.schedLinks hd.idleThread hd.used fun u => .inl (hd.state u)

theorem calm_dispatched (hd : Dispatched k t k') {u : Tid} (hc : k.Calm u) : k'.Calm u := by
  unfold Kernel.Calm at *
  rw [hd.state, hd.schedLinks]
  exact hc

section

variable (h : RunList k xs)

include h

theorem dispatch (hcalm : k.delivery t = .terminate → ∀ u ∈ (k.process (k.thread
    t).process).threadList, k.Calm u) (hk : k.dispatchPendingSignal t = .ok k') :
    ∃ ys, RunList k' ys := by
  obtain ⟨k1, hd, hcases⟩ := dispatch_cases hk
  have h1 := h.dispatched hd
  cases hdel : k.delivery t with
  | nothing | handler =>
    simp only [hdel] at hcases
    subst hcases
    exact ⟨xs, h1⟩
  | terminate =>
    simp only [hdel] at hcases
    obtain ⟨s, hterm⟩ := hcases
    refine h1.terminateProcess ?_ hterm
    intro u hu
    rw [hd.threadList] at hu
    exact calm_dispatched hd (hcalm hdel u hu)
  | stop =>
    simp only [hdel] at hcases
    obtain ⟨s, hstop⟩ := hcases
    exact h1.dequeueThread hstop

theorem updateThread {f : Thread → Thread} (hf : (f (k.thread t)).state = (k.thread t).state) :
    RunList (k.updateThread t f) xs :=
  h.restate rfl rfl rfl fun u => .inl (Kernel.updateThread_state _ _ _ hf u)

theorem isrDeliver (hcalm : (k.thread t).gprState.isUser → (k.thread t).enteringSignal → k.delivery
    t = .terminate → ∀ u ∈ (k.process (k.thread t).process).threadList, k.Calm u)
    (hk : k.isrDeliver t = .ok k') : ∃ ys, RunList k' ys := by
  obtain rfl | ⟨hu, he, hk⟩ | ⟨f, hf, -, -, hw⟩ := deliver_cases hk
  · exact ⟨xs, h⟩
  · exact h.dispatch (hcalm hu he) hk
  · obtain ⟨ys, hrun, -⟩ := (h.updateThread (hf (k.thread t))).wakes hw
    exact ⟨ys, hrun⟩

theorem nextThread {current : Option Tid} (hn : k.nextThread current = .ok t) :
    t ∈ xs ∨ t = k.idleThread := by
  have hhead : ∀ {t}, k.nextThread none = .ok t → t ∈ xs ∨ t = k.idleThread := by
    intro t hfirst
    unfold Kernel.nextThread at hfirst
    rw [h.ring.head_next] at hfirst
    cases xs with
    | nil => exact .inr (Except.ok.inj hfirst).symm
    | cons x xs =>
      obtain rfl := Except.ok.inj hfirst
      exact .inl List.mem_cons_self
  cases current with
  | none => exact hhead hn
  | some c =>
    unfold Kernel.nextThread at hn
    simp only at hn
    split at hn
    · rename_i u hu
      obtain rfl := Except.ok.inj hn
      left
      by_cases hc : c ∈ xs
      · obtain ⟨pre, post, rfl⟩ := List.append_of_mem hc
        have hr := h.ring
        rw [List.map_append, List.map_cons] at hr
        rw [hr.next] at hu
        cases post with
        | nil => cases hu
        | cons y post =>
          obtain rfl : y = u := by simpa using hu
          simp
      · rw [h.free c hc] at hu
        cases hu
    · exact hhead hn

theorem isrSave : RunList (k.isrSave t) xs := by
  refine h.restate rfl rfl rfl ?_
  intro u
  by_cases hu : u = t
  · subst hu
    by_cases hr : k.state u = .running
    · right
      left
      refine ⟨?_, .inl ?_⟩
      · by_cases hidle : u = k.idleThread
        · exact .inr hidle
        · exact .inl (h.awake_mem u hidle (.inr hr))
      · have hr' : (k.thread u).state = .running := hr
        simp [Kernel.isrSave, hr']
    · left
      have hr' : ¬(k.thread u).state = .running := hr
      simp [Kernel.isrSave, hr', Kernel.state]
  · exact .inl (Kernel.updateThread_state_of_ne _ _ _ _ hu)

/-- The thread switched to is not asleep, and is in the list or idle. -/
theorem isrPick {current : Option Tid} (hk : k.isrPick current = .ok (t, k')) :
    (∃ ys, RunList k' ys) ∧ k'.state t ≠ .blocked := by
  obtain ⟨hnext, hb, hz, hcont⟩ := pick_cases hk
  have hswitch : RunList (k.switchTo t) xs := h.restate rfl rfl rfl fun _ => .inl rfl
  obtain ⟨rfl, -⟩ | ⟨hstop, hw⟩ := continueStopped_cases hcont
  · exact ⟨⟨xs, hswitch⟩, hb⟩
  · have hready : RunList ((k.switchTo t).updateThread t fun x => { x with state := .ready }) xs := by
      refine hswitch.restate rfl rfl rfl ?_
      intro u
      by_cases hu : u = t
      · subst hu
        exact .inr (.inl ⟨h.nextThread hnext, .inl (Kernel.updateThread_state_self ..)⟩)
      · exact .inl (Kernel.updateThread_state_of_ne _ _ _ _ hu)
    obtain ⟨ys, hrun, -⟩ := hready.wakes hw
    refine ⟨⟨ys, hrun⟩, ?_⟩
    obtain hsame | ⟨-, hr⟩ := (Wakes.quiet hw).state t
    · rw [hsame, Kernel.updateThread_state_self]
      simp
    · rw [hr]
      simp

theorem isrFinish (hb : k.state t ≠ .blocked) (hcalm : (k.thread t).gprState.isUser → (k.thread
    t).enteringSignal → k.delivery t = .terminate → ∀ u ∈ (k.process (k.thread
    t).process).threadList, k.Calm u) {again : Bool} (hk : k.isrFinish t = .ok (again, k')) :
    ∃ ys, RunList k' ys := by
  obtain ⟨k1, hk1, hend⟩ := finish_cases hk
  obtain ⟨ys, hrun⟩ := h.isrDeliver hcalm hk1
  obtain ⟨-, -, rfl⟩ | ⟨-, hlive, rfl⟩ := hend
  · exact ⟨ys, hrun⟩
  have hb1 := deliver_state hk1 hb
  have ha : k1.Awake t := by
    unfold Kernel.Awake
    cases hst : k1.state t <;> simp_all
  refine ⟨ys, hrun.restate rfl rfl rfl ?_⟩
  intro u
  by_cases hu : u = t
  · subst hu
    right
    left
    refine ⟨?_, .inr isrResume_state_self⟩
    by_cases hidle : u = k1.idleThread
    · exact .inr hidle
    · exact .inl (hrun.awake_mem u hidle ha)
  · exact .inl (isrResume_state_of_ne hu)

end

/-! ## Threads that come and go -/

section

variable (h : RunList k xs)

include h

theorem cloneImpl {old : Tid} {fork : Option Process} {x : Thread} (hunused : k.used t = false)
    (hk : k.cloneImpl old t fork x = .ok k') : ∃ ys, RunList k' ys := by
  obtain ⟨y, l, hy, -, hl, hlinks, hthread, hused, hi, -⟩ := cloneImpl_cases hk
  have hz := h.unused t hunused
  have hnot : t ∉ xs := fun hm => (h.mem_state t hm).2 hz
  have hidle : t ≠ k.idleThread := by
    rintro rfl
    have := h.idle_awake
    unfold Kernel.Awake at this
    grind
  refine ⟨xs ++ [t], h.link hnot hidle hl hlinks hi ?_ ?_ ?_⟩
  · intro u hu
    rw [hused] at hu
    by_cases hut : u = t
    · subst hut
      simp at hu
    · exact ⟨hut, by simpa [hut] using hu⟩
  · intro u hu
    rw [Kernel.state, hthread, Function.update_of_ne hu, Kernel.state]
  · rw [Kernel.state, hthread, Function.update_self, hy]
    simp

/-- Waiting does not touch the run list until the thread leaves it. -/
theorem listensOnly (hl : ListensOnly k k') : RunList k' xs :=
  h.restate hl.schedLinks hl.idleThread hl.used fun u => .inl (hl.state u)

theorem wait {events : List (Option EventId)} {nonblocking : Bool} {r : WaitResult}
    (hk : k.wait t events nonblocking = .ok (r, k')) : ∃ ys, RunList k' ys := by
  obtain ⟨-, rfl | ⟨e, rfl⟩⟩ | ⟨-, -, -, -, -, k1, hreg, hdeq⟩ := wait_cases hk
  · exact ⟨xs, h⟩
  · exact ⟨xs, h.restate rfl rfl rfl fun _ => .inl rfl⟩
  · exact (h.listensOnly (register_frame hreg)).dequeueThread hdeq

theorem destroyThread (hk : k.destroyThread t = .ok k') : RunList k' xs := by
  obtain ⟨hz, k1, hl, rfl⟩ := destroyThread_cases hk
  have h1 := h.listensOnly hl
  refine ⟨h1.ring, h1.idle_notMem, h1.idle_awake, h1.awake_mem, h1.mem_state, h1.free, ?_⟩
  intro u hu
  by_cases hut : u = t
  · subst hut
    exact (hl.state u).trans hz
  · have hu' : k.used u = false := by simpa [hut] using hu
    exact h1.unused u (by rw [hl.used]; exact hu')

theorem exceptionHandler {vec : ℕ} (hcalm : ∀ k1, k.sendSignal t (Kernel.exceptionSignal vec) = .ok
    k1 → k1.delivery t = .terminate → ∀ u ∈ (k1.process (k1.thread t).process).threadList, k1.Calm
    u) (hk : k.exceptionHandler t vec = .ok k') : ∃ ys, RunList k' ys := by
  obtain ⟨k1, k2, h1, h2, rfl⟩ := exceptionHandler_cases hk
  obtain ⟨ys, hrun⟩ := h.sendSignal (fun hs => absurd hs (exceptionSignal_ne vec)) h1
  have hsaved : RunList (k1.exceptionSave t) ys :=
    hrun.restate rfl rfl rfl fun u => .inl (exceptionSave_state u)
  have hcalm1 : (k1.exceptionSave t).delivery t = .terminate →
      ∀ u ∈ ((k1.exceptionSave t).process ((k1.exceptionSave t).thread t).process).threadList,
        (k1.exceptionSave t).Calm u := by
    intro hdel u hu
    rw [exceptionSave_delivery] at hdel
    have hc := hcalm k1 h1 hdel u (by simpa [Kernel.exceptionSave] using hu)
    unfold Kernel.Calm at hc ⊢
    rw [exceptionSave_state]
    exact hc
  obtain ⟨zs, hrun⟩ := hsaved.dispatch hcalm1 h2
  exact ⟨zs, hrun.restate rfl rfl rfl fun _ => .inl rfl⟩

end

end RunList

/-! ## Runs -/

/-- The step does not reach a stopped thread in the run list: no second SIGCONT for it, and it is
    not terminated. -/
def CalmStep (m : Machine) : Op → Prop
  | .sendSignal t s => s = SIGCONT → m.kernel.Calm t
  | .enqueue t s => s = some SIGCONT → m.kernel.Calm t
  | .terminateSelf true => ∀ r, m.running = some r →
      ∀ t ∈ (m.kernel.process (m.kernel.thread r).process).threadList, m.kernel.Calm t
  | .terminateSelf false => ∀ r, m.running = some r → m.kernel.Calm r
  | .terminateThread t _ => m.kernel.Calm t
  | .terminateProcess p _ => ∀ t ∈ (m.kernel.process p).threadList, m.kernel.Calm t
  | .exception vec => ∀ r k, m.running = some r →
      m.kernel.sendSignal r (Kernel.exceptionSignal vec) = .ok k → k.delivery r = .terminate →
      ∀ t ∈ (k.process (k.thread r).process).threadList, k.Calm t
  | .finish => ∀ t, m.pc = .picked t → (m.kernel.thread t).gprState.isUser →
      (m.kernel.thread t).enteringSignal → m.kernel.delivery t = .terminate →
      ∀ u ∈ (m.kernel.process (m.kernel.thread t).process).threadList, m.kernel.Calm u
  | _ => True

/-- What holds between the steps: the list, and that the interrupt does not switch to a thread
    that sleeps. -/
structure RunState (m : Machine) : Prop where
  list : ∃ xs, RunList m.kernel xs
  picked : ∀ t, m.pc = .picked t → m.kernel.state t ≠ .blocked

theorem Pc.inThread_ne {pc : Pc} (h : pc.inThread) (t : Tid) : pc ≠ .picked t := by
  rintro rfl
  cases h

/-- A step in a thread leaves the interrupt alone. -/
theorem RunState.of_list {m : Machine} (h : ∃ xs, RunList m.kernel xs)
    (hpc : ∀ t, m.pc ≠ .picked t) : RunState m :=
  ⟨h, fun t ht => absurd ht (hpc t)⟩

theorem RunState.step {m m' : Machine} {op : Op} (h : RunState m) (hcalm : CalmStep m op)
    (hstep : m.step op = .ok m') : RunState m' := by
  obtain ⟨xs, hrun⟩ := h.list
  have hkernel : m.pc = .kernel → ∀ t, m.pc ≠ .picked t := by
    intro hpc t
    rw [hpc]
    simp
  cases Machine.step_effect hstep with
  | nothing => exact h
  | compute pc mode =>
    exact .of_list ⟨xs, hrun.restate rfl rfl rfl fun _ => .inl rfl⟩ (Pc.inThread_ne pc)
  | syscall pc => exact .of_list ⟨xs, hrun.restate rfl rfl rfl fun _ => .inl rfl⟩ (by simp)
  | @sysret c r pc running =>
    have hend : RunList (m.kernel.syscallEnd r) xs := by
      unfold Kernel.syscallEnd
      simp only
      split_ifs
      · exact (hrun.updateThread (t := r) rfl).updateThread rfl
      · exact hrun.updateThread rfl
    exact .of_list ⟨xs, hend.restate rfl rfl rfl fun _ => .inl rfl⟩ (by simp)
  | @sigreturn f r k pc running hk =>
    obtain rfl := sigreturn_eq hk
    have hmark := hrun.updateThread (t := r)
      (f := fun x => { x with exitingSignal := true, signalFrame := f }) rfl
    exact .of_list ⟨xs, hmark⟩ (hkernel pc)
  | sigaction => exact ⟨⟨xs, hrun.restate rfl rfl rfl fun _ => .inl rfl⟩, h.picked⟩
  | @sigprocmask mask r pc running =>
    have hmark := hrun.updateThread (t := r) (f := fun x => { x with signalMask := mask }) rfl
    exact .of_list ⟨xs, hmark⟩ (hkernel pc)
  | sendSignal pc hk => exact .of_list (hrun.sendSignal hcalm hk) (Pc.inThread_ne pc)
  | trigger pc hk =>
    obtain ⟨ys, hrun', -⟩ := hrun.wakes (wakes_trigger hk)
    exact .of_list ⟨ys, hrun'⟩ (Pc.inThread_ne pc)
  | enqueue pc hk =>
    obtain rfl | ⟨hrun', -⟩ := hrun.enqueueThread hcalm hk
    · exact .of_list ⟨xs, hrun⟩ (Pc.inThread_ne pc)
    · exact .of_list ⟨_, hrun'⟩ (Pc.inThread_ne pc)
  | wait pc running hk awake => exact .of_list (hrun.wait hk) (hkernel pc)
  | sleep pc running hk => exact .of_list (hrun.wait hk) (by simp)
  | waitEnd pc running hk =>
    have hclear := clearListeners_frame (waitEnd_cases hk).1
    exact .of_list ⟨xs, hrun.listensOnly hclear⟩ (hkernel pc)
  | yield pc => exact .of_list ⟨xs, hrun⟩ (by simp)
  | exitGroup pc running hk =>
    exact .of_list (hrun.terminateProcess (hcalm _ running) hk) (by simp)
  | exit pc running hk =>
    obtain ⟨ys, hrun', -⟩ := hrun.terminateThread (hcalm _ running) hk
    exact .of_list ⟨ys, hrun'⟩ (by simp)
  | dequeue pc running ne hk => exact .of_list (hrun.dequeueThread hk) (hkernel pc)
  | terminateThread pc running ne hk =>
    obtain ⟨ys, hrun', -⟩ := hrun.terminateThread hcalm hk
    exact .of_list ⟨ys, hrun'⟩ (hkernel pc)
  | terminateProcess pc running ne hk =>
    exact .of_list (hrun.terminateProcess hcalm hk) (hkernel pc)
  | clone pc running unused hk => exact .of_list (hrun.cloneImpl unused hk) (hkernel pc)
  | destroy pc hk => exact .of_list ⟨xs, hrun.destroyThread hk⟩ (hkernel pc)
  | exception pc running hk =>
    refine .of_list (hrun.exceptionHandler (fun k1 => hcalm _ k1 running) hk) ?_
    intro t
    show m.pc ≠ _
    rw [pc]
    simp
  | interruptIdle pc running => exact .of_list ⟨xs, hrun⟩ (by simp)
  | interrupt pc running => exact .of_list ⟨xs, hrun⟩ (by simp)
  | selectFirst pc hk =>
    obtain ⟨hrun', hb⟩ := hrun.isrPick hk
    refine ⟨hrun', ?_⟩
    intro u hu
    obtain rfl := Pc.picked.inj hu
    exact hb
  | select pc hk =>
    obtain ⟨hrun', hb⟩ := hrun.isrSave.isrPick hk
    refine ⟨hrun', ?_⟩
    intro u hu
    obtain rfl := Pc.picked.inj hu
    exact hb
  | again pc hk => exact .of_list (hrun.isrFinish (h.picked _ pc) (hcalm _ pc) hk) (by simp)
  | resume pc hk =>
    refine .of_list (hrun.isrFinish (h.picked _ pc) (hcalm _ pc) hk) ?_
    intro t
    simp only
    split_ifs <;> simp

/-- The run queue is well formed: a circle that no thread is in twice, that every READY and RUNNING
    thread but the idle one is in, and no BLOCKED or ZOMBIE one. -/
def RunQueueOk (k : Kernel) : Prop :=
  ∃ xs : List Tid, IsRing k.schedLinks none (xs.map some) ∧ xs.Nodup ∧
    (∀ t, t ≠ k.idleThread → k.Awake t → t ∈ xs) ∧
    ∀ t ∈ xs, k.state t ≠ .blocked ∧ k.state t ≠ .zombie

theorem runState_booted (idle main init : Thread) : RunState (Machine.booted idle main init) := by
  refine .of_list ⟨[4, 1], ?_⟩ (by simp [Machine.booted])
  have hstate : ∀ t, (Kernel.booted idle main init).state t =
      if t = 1 then .ready else if t = 3 then .ready else if t = 4 then .running else .zombie := by
    intro t
    unfold Kernel.state Kernel.booted
    simp only
    split_ifs <;> rfl
  constructor
  · refine ⟨?_, by decide⟩
    simp [Linked, Machine.booted, Kernel.booted]
  · show (3 : ℕ) ∉ [4, 1]
    decide
  · left
    rfl
  · intro t hne ha
    unfold Kernel.Awake at ha
    simp only [Machine.booted, hstate] at ha
    simp only [Machine.booted, Kernel.booted] at hne
    grind
  · intro t ht
    simp only [Machine.booted, hstate]
    grind
  · intro t ht
    simp only [Machine.booted, Kernel.booted]
    simp_all
  · intro t ht
    simp only [Machine.booted, hstate]
    simp only [Machine.booted, Kernel.booted] at ht
    grind

/-- **Main theorem.** In every run in which no stopped thread that is already in the run list gets
    a second SIGCONT or is terminated, the run queue is well formed in every state. -/
theorem runQueue_wellFormed {idle main init : Thread} {m : Machine}
    (h : Run Machine.step CalmStep (Machine.booted idle main init) m) : RunQueueOk m.kernel := by
  obtain ⟨xs, hrun⟩ := (h.invariant (fun _ _ _ hs hc => hs.step hc)
    (runState_booted idle main init)).list
  exact ⟨xs, hrun.ring, (List.nodup_cons.mp hrun.ring.nodup).2.of_map, hrun.awake_mem,
    hrun.mem_state⟩

/-- The first switch to the init process and its first fork make such a run. -/
theorem runQueue_wellFormed_firstFork :
    ∃ m, Run Machine.step CalmStep (Machine.booted {} {} initThread) m ∧
      m.kernel.state 5 = .ready ∧ RunQueueOk m.kernel := by
  obtain ⟨m, hm, hstate⟩ := exists_ok_of_map (show
    (([.interrupt, .select] ++ .finish :: [.syscall {}, .clone 5 (some {}) initThread] :
      List Op).foldlM Machine.step (Machine.booted {} {} initThread)).map
        (fun m => m.kernel.state 5) = .ok .ready by decide +kernel)
  rw [List.foldlM_append] at hm
  obtain ⟨m1, h1, hm⟩ := bind_ok hm
  rw [List.foldlM_cons] at hm
  obtain ⟨m2, h2, hm⟩ := bind_ok hm
  have hread : (m1.pc, (m1.kernel.thread 1).enteringSignal) = (.picked 1, false) :=
    map_ok_eq h1 (fun m => (m.pc, (m.kernel.thread 1).enteringSignal)) (by decide +kernel)
  obtain ⟨hpc, hentering⟩ := Prod.mk.inj hread
  have hfinish : CalmStep m1 .finish := by
    intro t ht _ he
    rw [hpc] at ht
    obtain rfl := Pc.picked.inj ht
    rw [hentering] at he
    cases he
  have hrun1 : Run Machine.step CalmStep (Machine.booted {} {} initThread) m1 :=
    Run.start.foldlM (by simp [CalmStep]) h1
  have hrun := (hrun1.step hfinish h2).foldlM (by simp [CalmStep]) hm
  exact ⟨m, hrun, hstate, runQueue_wellFormed hrun⟩

/-- A child that is stopped gets SIGCONT twice before its turn comes: it is linked twice. -/
theorem continuedTwice_breaks :
    ∃ m, Run Machine.step AnyStep (Machine.booted {} {} initThread) m ∧ ¬RunQueueOk m.kernel := by
  obtain ⟨m, hm, hread⟩ := exists_ok_of_map (show
    ((childStopped ++ [Op.sendSignal 5 SIGCONT, Op.sendSignal 5 SIGCONT]).foldlM Machine.step
      (Machine.booted {} {} initThread)).map (fun m => (m.kernel.state 1, m.kernel.idleThread,
        (m.kernel.schedLinks (some 1)).next, (m.kernel.schedLinks (some 5)).prev)) =
      .ok (.running, 3, some (some 5), some (some 5)) by decide +kernel)
  simp only [Prod.mk.injEq] at hread
  obtain ⟨hstate, hidle, hnext, hprev⟩ := hread
  refine ⟨m, Run.start.foldlM (fun _ _ _ => trivial) hm, ?_⟩
  rintro ⟨xs, hring, -, hawake, -⟩
  -- the init thread is in the list, and its successor does not point back to it
  have hmem : 1 ∈ xs := hawake 1 (by rw [hidle]; decide) (.inr hstate)
  obtain ⟨b, hb, hback⟩ := hring.linked (List.mem_map_of_mem hmem)
  rw [hnext] at hb
  obtain rfl := Option.some.inj hb
  rw [hprev] at hback
  cases hback

end Fishix.Sched
