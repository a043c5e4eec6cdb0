import Fishix.Sched.UserMode

/-!
# The listener lists of events

A `Listener` is live while it stands in the `listeners` vector of a thread. `Listening k ps` says
that the list of every event is a ring of exactly the live listeners of that event, `ps e`, and that
`num_listeners` counts them.

The registration loop of `Event::wait` (sched/event.cpp:52-62) links each listener right after it
has put it into the vector. When a later one makes the vector grow, `realloc` moves the earlier
ones, and their lists go on through the old buffer. `Roomy` is that this does not happen: the
vector has room for all the events, or there is one event and the vector is new.

* `listeners_wellFormed`: in every run that is roomy the lists of all events are well formed.
* `twoEvents_break`: a thread whose first wait is on two events.
-/

namespace Fishix.Sched

open Function (update update_self update_of_ne)

/-- `p` stands in the vector of a thread and listens to `e`. -/
def Kernel.Listens (k : Kernel) (p : ListenerRef) (e : EventId) : Prop :=
  (∃ t, p.buffer = (k.thread t).listeners.buffer ∧ p.index < (k.thread t).listeners.size) ∧
    (k.listener p).event = some e

/-- The live listeners of every event hang in its list, in this order. -/
structure Listening (k : Kernel) (ps : EventId → List ListenerRef) : Prop where
  ring : ∀ e, IsRing k.listenerLinks (.head e) ((ps e).map .link)
  mem : ∀ e p, p ∈ ps e ↔ k.Listens p e
  count : ∀ e, (k.event e).numListeners = (ps e).length
  fits : ∀ t, (k.thread t).listeners.size ≤ (k.thread t).listeners.capacity
  fresh : ∀ t, 0 < (k.thread t).listeners.capacity →
    (k.thread t).listeners.buffer < k.nextBuffer
  own : ∀ t u, 0 < (k.thread t).listeners.capacity → 0 < (k.thread u).listeners.capacity →
    (k.thread t).listeners.buffer = (k.thread u).listeners.buffer → t = u
  unused : ∀ t, k.used t = false → (k.thread t).listeners.size = 0

namespace Listening

variable {k k' : Kernel} {ps : EventId → List ListenerRef} {t : Tid} {e : EventId}

theorem same (h : Listening k ps) (hk : SameListeners k k') : Listening k' ps where
  ring := hk.listenerLinks ▸ h.ring
  mem := by
    intro e p
    rw [h.mem]
    unfold Kernel.Listens
    simp only [hk.vector, hk.listener]
  count := fun e => (hk.numListeners e).trans (h.count e)
  fits := fun t => hk.vector t ▸ h.fits t
  fresh := fun t => by
    rw [hk.vector, hk.nextBuffer]
    exact h.fresh t
  own := fun t u => by
    rw [hk.vector, hk.vector]
    exact h.own t u
  unused := fun t => by
    rw [hk.used, hk.vector]
    exact h.unused t

/-- No listener listens to two events. -/
theorem disjoint (h : Listening k ps) {e e' : EventId} {p : ListenerRef} (hp : p ∈ ps e)
    (hp' : p ∈ ps e') : e = e' := by
  have h1 := ((h.mem e p).mp hp).2
  have h2 := ((h.mem e' p).mp hp').2
  exact Option.some.inj (h1.symm.trans h2)

/-- A thread whose listeners are all dead gets an empty vector: of no capacity, with its old buffer
    or with a new one. -/
theorem emptied (h : Listening k ps)
    (hvector : ∀ u, u ≠ t → (k'.thread u).listeners = (k.thread u).listeners)
    (hused : ∀ u, u ≠ t → k'.used u = k.used u)
    (hnum : ∀ e, (k'.event e).numListeners = (k.event e).numListeners)
    (hlistener : k'.listener = k.listener) (hlinks : k'.listenerLinks = k.listenerLinks)
    (hnext : k.nextBuffer ≤ k'.nextBuffer)
    (hdead : ∀ i, i < (k.thread t).listeners.size →
      (k.listener ⟨(k.thread t).listeners.buffer, i⟩).event = none)
    (hsize : (k'.thread t).listeners.size = 0)
    (hbuffer : 0 < (k'.thread t).listeners.capacity →
      (k'.thread t).listeners.buffer = k.nextBuffer ∧ k.nextBuffer < k'.nextBuffer ∨
      (k'.thread t).listeners.buffer = (k.thread t).listeners.buffer ∧
        0 < (k.thread t).listeners.capacity) : Listening k' ps where
  ring := hlinks ▸ h.ring
  mem := by
    intro e p
    rw [h.mem]
    unfold Kernel.Listens
    rw [hlistener]
    refine and_congr_left fun hp => exists_congr fun u => ?_
    by_cases hu : u = t
    · subst hu
      -- no listener of this thread is live, before or after
      constructor
      · rintro ⟨hb, hi⟩
        have hnone := hdead p.index hi
        rw [← hb, show (⟨p.buffer, p.index⟩ : ListenerRef) = p from rfl, hp] at hnone
        cases hnone
      · rintro ⟨-, hi⟩
        rw [hsize] at hi
        exact absurd hi (Nat.not_lt_zero _)
    · rw [hvector u hu]
  count := fun e => (hnum e).trans (h.count e)
  fits := by
    intro u
    by_cases hu : u = t
    · rw [hu, hsize]
      exact Nat.zero_le _
    · rw [hvector u hu]
      exact h.fits u
  fresh := by
    intro u hcap
    by_cases hu : u = t
    · subst hu
      obtain ⟨hb, hlt⟩ | ⟨hb, hold⟩ := hbuffer hcap
      · rw [hb]
        exact hlt
      · rw [hb]
        exact (h.fresh u hold).trans_le hnext
    · rw [hvector u hu] at hcap ⊢
      exact (h.fresh u hcap).trans_le hnext
  own := by
    -- a new buffer is nobody's
    have hne : ∀ u, u ≠ t → 0 < (k'.thread t).listeners.capacity →
        0 < (k'.thread u).listeners.capacity →
        (k'.thread t).listeners.buffer ≠ (k'.thread u).listeners.buffer := by
      intro u hu ht hcap heq
      rw [hvector u hu] at hcap heq
      obtain ⟨hb, -⟩ | ⟨hb, hold⟩ := hbuffer ht
      · have := h.fresh u hcap
        omega
      · exact hu (h.own u t hcap hold (heq.symm.trans hb))
    intro u v hu hv huv
    by_cases hut : u = t
    · by_cases hvt : v = t
      · rw [hut, hvt]
      · subst hut
        exact absurd huv (hne v hvt hu hv)
    · by_cases hvt : v = t
      · subst hvt
        exact absurd huv.symm (hne u hut hv hu)
      · rw [hvector u hut] at hu huv
        rw [hvector v hvt] at hv huv
        exact h.own u v hu hv huv
  unused := by
    intro u hu
    by_cases hut : u = t
    · rw [hut, hsize]
    · rw [hvector u hut]
      exact h.unused u (by rw [← hused u hut]; exact hu)

/-! ## Registration -/

theorem growListeners (h : Listening k ps)
    (hroom : (k.thread t).listeners.size = 0 ∨
      (k.thread t).listeners.size + 1 ≤ (k.thread t).listeners.capacity) :
    Listening (k.growListeners t) ps ∧
      ((k.growListeners t).thread t).listeners.size = (k.thread t).listeners.size ∧
      ((k.growListeners t).thread t).listeners.capacity =
        max 1 (k.thread t).listeners.capacity := by
  unfold Kernel.growListeners
  simp only
  by_cases hgrow : (k.thread t).listeners.capacity < (k.thread t).listeners.size + 1
  · rw [if_pos hgrow]
    have hsize : (k.thread t).listeners.size = 0 := by omega
    have hcap : (k.thread t).listeners.capacity = 0 := by omega
    have hcapacity : increaseCapacity 1 2 0 = 1 := by decide
    simp only [hsize, hcap, Nat.zero_add, hcapacity]
    refine ⟨h.emptied (t := t) ?_ ?_ ?_ ?_ ?_ ?_ ?_ ?_ ?_, ?_, ?_⟩
    · intro u hu
      rw [Kernel.updateThread_thread_of_ne _ _ _ _ hu]
      rfl
    · intro u _
      rfl
    · intro e
      rfl
    · funext p
      simp [Kernel.reallocListeners, hcap]
    · funext n
      cases n with
      | head e => rfl
      | link p => simp [Kernel.reallocListeners, hcap]
    · exact Nat.le_succ _
    · intro i hi
      rw [hsize] at hi
      exact absurd hi (Nat.not_lt_zero _)
    · simp
    · intro _
      exact .inl ⟨by simp, Nat.lt_succ_self _⟩
    · simp
    · simp
  · rw [if_neg hgrow]
    refine ⟨h, rfl, ?_⟩
    omega

theorem place_notMem (h : Listening k ps)
    (hroom : (k.thread t).listeners.size < (k.thread t).listeners.capacity) (e : EventId) :
    (⟨(k.thread t).listeners.buffer, (k.thread t).listeners.size⟩ : ListenerRef) ∉ ps e := by
  intro hm
  obtain ⟨⟨u, hb, hi⟩, -⟩ := (h.mem e _).mp hm
  simp only at hb hi
  have hcap : 0 < (k.thread u).listeners.capacity := by
    have := h.fits u
    omega
  obtain rfl := h.own t u (by omega) hcap hb
  exact absurd hi (Nat.lt_irrefl _)

/-- A listener in the next free place is linked at the end of the list of its event. -/
theorem appended {x : Listener} {p : ListenerRef} (h : Listening k ps) (hused : k.used t = true)
    (hroom : (k.thread t).listeners.size < (k.thread t).listeners.capacity)
    (hp : p = ⟨(k.thread t).listeners.buffer, (k.thread t).listeners.size⟩)
    (hx : x.event = some e)
    (hvector : ∀ u, u ≠ t → (k'.thread u).listeners = (k.thread u).listeners)
    (hself : (k'.thread t).listeners =
      { (k.thread t).listeners with size := (k.thread t).listeners.size + 1 })
    (hused' : k'.used = k.used)
    (hnum : ∀ e', (k'.event e').numListeners =
      (k.event e').numListeners + if e' = e then 1 else 0)
    (hlistener : k'.listener = update k.listener p x)
    (hnext : k'.nextBuffer = k.nextBuffer)
    (hlinks : Links.addBefore (update k.listenerLinks (.link p) {}) (.head e) (.link p) =
      some k'.listenerLinks) :
    Listening k' (update ps e (ps e ++ [p])) := by
  have hnew : ∀ e, p ∉ ps e := fun e => hp ▸ h.place_notMem hroom e
  -- the new link is null, which no ring notices
  have hnull : ∀ e, IsRing (update k.listenerLinks (.link p) {}) (.head e)
      ((ps e).map .link) := by
    intro e
    refine (h.ring e).congr ?_
    intro a ha
    rw [update_of_ne]
    rintro rfl
    simp [hnew e] at ha
  obtain ⟨l, hl, hring, hframe⟩ := (hnull e).addBefore (e := .link p) (by simp [hnew e])
  rw [Option.some.inj (hl.symm.trans hlinks)] at hring hframe
  have hbuffer : ∀ u, (k'.thread u).listeners.buffer = (k.thread u).listeners.buffer := by
    intro u
    by_cases hu : u = t
    · rw [hu, hself]
    · rw [hvector u hu]
  have hcapacity : ∀ u, (k'.thread u).listeners.capacity = (k.thread u).listeners.capacity := by
    intro u
    by_cases hu : u = t
    · rw [hu, hself]
    · rw [hvector u hu]
  -- the new place is the only one that comes to the vectors
  have hplaces : ∀ q : ListenerRef, q ≠ p → ∀ u,
      (q.buffer = (k'.thread u).listeners.buffer ∧ q.index < (k'.thread u).listeners.size ↔
        q.buffer = (k.thread u).listeners.buffer ∧ q.index < (k.thread u).listeners.size) := by
    intro q hq u
    by_cases hu : u = t
    · subst hu
      rw [hself]
      refine and_congr_right fun hb => ?_
      have hi : q.index ≠ (k.thread u).listeners.size := by
        intro hi
        apply hq
        rw [hp, ← hb, ← hi]
      simp only
      omega
    · rw [hvector u hu]
  constructor
  case ring =>
    intro e'
    by_cases he : e' = e
    · subst he
      simpa using hring
    · rw [update_of_ne he]
      refine (hnull e').congr ?_
      intro a ha
      refine hframe a ?_ ?_
      · intro hm
        obtain rfl | ha := List.mem_cons.mp ha
        · simp [he] at hm
        · obtain ⟨q, hq, rfl⟩ := List.mem_map.mp ha
          have hqe : q ∈ ps e := by simpa using hm
          exact he (h.disjoint hq hqe)
      · rintro rfl
        simp [hnew e'] at ha
  case mem =>
    intro e' q
    unfold Kernel.Listens
    rw [hlistener]
    by_cases hq : q = p
    · have hlive : ∃ u, q.buffer = (k'.thread u).listeners.buffer ∧
          q.index < (k'.thread u).listeners.size := ⟨t, by rw [hself, hq, hp]; simp⟩
      rw [hq] at hlive ⊢
      rw [update_self, hx]
      by_cases he : e' = e
      · subst he
        simp [hlive]
      · simp [he, hnew e', Ne.symm he]
    · rw [update_of_ne hq, exists_congr (hplaces q hq)]
      have hold := h.mem e' q
      unfold Kernel.Listens at hold
      rw [← hold]
      by_cases he : e' = e
      · subst he
        simp [hq]
      · simp [he]
  case count =>
    intro e'
    rw [hnum]
    by_cases he : e' = e
    · subst he
      simp [h.count]
    · simp [he, h.count]
  case fits =>
    intro u
    rw [hcapacity]
    by_cases hu : u = t
    · rw [hu, hself]
      exact hroom
    · rw [hvector u hu]
      exact h.fits u
  case fresh =>
    intro u
    rw [hcapacity, hbuffer, hnext]
    exact h.fresh u
  case own =>
    intro u v
    rw [hcapacity, hcapacity, hbuffer, hbuffer]
    exact h.own u v
  case unused =>
    intro u hu
    rw [hused'] at hu
    have hut : u ≠ t := by
      rintro rfl
      rw [hused] at hu
      cases hu
    rw [hvector u hut]
    exact h.unused u hu

/-- One turn of the registration loop, where there is room. -/
theorem addListener {i : ℕ} (h : Listening k ps) (hused : k.used t = true)
    (hroom : (k.thread t).listeners.size = 0 ∨
      (k.thread t).listeners.size + 1 ≤ (k.thread t).listeners.capacity)
    (hk : k.addListener t e i = .ok k') :
    (∃ ps', Listening k' ps') ∧
      (k'.thread t).listeners.size = (k.thread t).listeners.size + 1 ∧
      (k'.thread t).listeners.capacity = max 1 (k.thread t).listeners.capacity := by
  obtain ⟨h1, hsize, hcap⟩ := h.growListeners hroom
  have hused1 : (k.growListeners t).used t = true := by
    rw [growListeners_frame.used]
    exact hused
  unfold Kernel.addListener Kernel.emplaceBack at hk
  simp only at hk
  rw [← hsize, ← hcap]
  generalize k.growListeners t = k1 at *
  obtain ⟨l, hl, rfl⟩ := bind_pure_ok hk
  have hlinks := orPanic_ok_iff.mp hl
  refine ⟨⟨_, h1.appended (x := ⟨t, some e, i⟩) (e := e) hused1 (by omega) rfl rfl ?_ ?_ rfl ?_
    rfl rfl hlinks⟩, by simp, by simp⟩
  · intro u hu
    simp [Kernel.updateThread, hu]
  · simp
  · intro e'
    by_cases he : e' = e
    · subst he
      simp [Kernel.updateEvent]
    · simp [Kernel.updateEvent, he]

/-- The registration loop, where the vector has room for all the events. -/
theorem register : ∀ {es : List (Option EventId)} {k : Kernel} {ps : EventId → List ListenerRef}
    {i : ℕ}, Listening k ps → k.used t = true →
    (k.thread t).listeners.size + (es.filterMap id).length ≤
      max 1 (k.thread t).listeners.capacity →
    Kernel.register t k es i = .ok k' → ∃ ps', Listening k' ps'
  | [], k, ps, i, h, hused, hroom, hk => by
    obtain rfl := Except.ok.inj hk
    exact ⟨ps, h⟩
  | none :: es, k, ps, i, h, hused, hroom, hk => by
    have hrest : (k.thread t).listeners.size + (es.filterMap id).length ≤
        max 1 (k.thread t).listeners.capacity := hroom
    have hgo : Kernel.register t k es (i + 1) = .ok k' := hk
    exact register h hused hrest hgo
  | some e :: es, k, ps, i, h, hused, hroom, hk => by
    obtain ⟨k1, h1, hk⟩ := bind_ok hk
    rw [List.filterMap_cons_some (f := id) (a := some e) (b := e) rfl, List.length_cons] at hroom
    obtain ⟨⟨ps1, hps1⟩, hsize, hcap⟩ := h.addListener hused (by omega) h1
    refine register hps1 ?_ ?_ hk
    · rw [(addListener_frame h1).used]
      exact hused
    · rw [hsize, hcap]
      omega

/-! ## Clearing -/

/-- A live listener is taken out of the list of its event. -/
theorem removed {p : ListenerRef} {x : Listener} (h : Listening k ps) (hmem : p ∈ ps e)
    (hx : x.event = none) (hthread : k'.thread = k.thread) (hused : k'.used = k.used)
    (hnum : ∀ e', (k'.event e').numListeners =
      (k.event e').numListeners - if e' = e then 1 else 0)
    (hlistener : k'.listener = update k.listener p x)
    (hnext : k'.nextBuffer = k.nextBuffer)
    (hlinks : k.listenerLinks.remove (.link p) = some k'.listenerLinks) :
    ∃ ps', Listening k' ps' := by
  obtain ⟨xs, ys, hsplit⟩ := List.append_of_mem hmem
  have hring := h.ring e
  rw [hsplit, List.map_append, List.map_cons] at hring
  obtain ⟨l, hl, hring', -, hframe⟩ := hring.remove
  rw [Option.some.inj (hl.symm.trans hlinks)] at hring' hframe
  -- the listener stood in the list once
  have hnd : (ps e).Nodup := ((List.nodup_cons.mp (h.ring e).nodup).2).of_map
  have hout : p ∉ xs ++ ys := by
    rw [hsplit, List.nodup_append] at hnd
    rw [List.mem_append]
    rintro (hx | hy)
    · exact hnd.2.2 p hx p List.mem_cons_self rfl
    · exact (List.nodup_cons.mp hnd.2.1).1 hy
  refine ⟨update ps e (xs ++ ys), ?_⟩
  constructor
  case ring =>
    intro e'
    by_cases he : e' = e
    · subst he
      simpa using hring'
    · rw [update_of_ne he]
      refine (h.ring e').congr ?_
      intro a ha
      refine hframe a ?_
      rw [← List.map_cons, ← List.map_append, ← hsplit]
      intro hm
      obtain rfl | ha := List.mem_cons.mp ha
      · simp [he] at hm
      · obtain ⟨q, hq, rfl⟩ := List.mem_map.mp ha
        have hqe : q ∈ ps e := by simpa using hm
        exact he (h.disjoint hq hqe)
  case mem =>
    intro e' q
    unfold Kernel.Listens
    rw [hthread, hlistener]
    by_cases hq : q = p
    · subst hq
      rw [update_self, hx]
      by_cases he : e' = e
      · subst he
        simp only [update_self]
        simpa using hout
      · have hne : q ∉ ps e' := fun hm => he (h.disjoint hm hmem)
        simp [he, hne]
    · rw [update_of_ne hq]
      have hold := h.mem e' q
      unfold Kernel.Listens at hold
      rw [← hold]
      by_cases he : e' = e
      · subst he
        simp [hsplit, hq]
      · simp [he]
  case count =>
    intro e'
    rw [hnum]
    by_cases he : e' = e
    · subst he
      rw [h.count, hsplit]
      simp
      omega
    · simp [he, h.count]
  case fits => rw [hthread]; exact h.fits
  case fresh => rw [hthread, hnext]; exact h.fresh
  case own => rw [hthread]; exact h.own
  case unused => rw [hthread, hused]; exact h.unused

theorem clearListener {p : ListenerRef} (h : Listening k ps)
    (hp : ∃ u, p.buffer = (k.thread u).listeners.buffer ∧ p.index < (k.thread u).listeners.size)
    (hk : k.clearListener p = .ok k') :
    (∃ ps', Listening k' ps') ∧ k'.thread = k.thread ∧
      ∀ q, q = p ∨ (k.listener q).event = none → (k'.listener q).event = none := by
  unfold Kernel.clearListener at hk
  cases hevent : (k.listener p).event with
  | none =>
    simp only [hevent] at hk
    obtain rfl := Except.ok.inj hk
    refine ⟨⟨ps, h⟩, rfl, ?_⟩
    intro q hq
    obtain rfl | hq := hq
    · exact hevent
    · exact hq
  | some e =>
    simp only [hevent] at hk
    obtain ⟨l, hl, rfl⟩ := bind_pure_ok hk
    have hmem : p ∈ ps e := (h.mem e p).mpr ⟨hp, hevent⟩
    refine ⟨h.removed (x := { k.listener p with event := none }) hmem rfl rfl rfl ?_ rfl rfl
      (orPanic_ok_iff.mp hl), rfl, ?_⟩
    · intro e'
      by_cases he : e' = e
      · subst he
        simp [Kernel.updateEvent]
      · simp [Kernel.updateEvent, he]
    · intro q hq
      show (update k.listener p { k.listener p with event := none } q).event = none
      by_cases hqp : q = p
      · rw [hqp, update_self]
      · rw [update_of_ne hqp]
        exact hq.resolve_left hqp

theorem clearListeners (h : Listening k ps) (hk : k.clearListeners t = .ok k') :
    (∃ ps', Listening k' ps') ∧ (k'.thread t).listeners.size = 0 := by
  unfold Kernel.clearListeners at hk
  obtain ⟨k1, h1, rfl⟩ := bind_pure_ok hk
  generalize hv : (k.thread t).listeners = v at h1
  have hloop := foldlM_ok_induction
    (fun done k1 => (∃ ps1, Listening k1 ps1) ∧ k1.thread = k.thread ∧
      ∀ i ∈ done, (k1.listener ⟨v.buffer, i⟩).event = none)
    (List.range v.size) [] k k1 ⟨⟨ps, h⟩, rfl, by simp⟩ (by
      rintro done i s s' ⟨⟨ps1, hps1⟩, hthread, hdone⟩ hi hs
      have hlive : ∃ u, (⟨v.buffer, i⟩ : ListenerRef).buffer = (s.thread u).listeners.buffer ∧
          (⟨v.buffer, i⟩ : ListenerRef).index < (s.thread u).listeners.size := by
        refine ⟨t, ?_⟩
        rw [hthread, hv]
        exact ⟨rfl, List.mem_range.mp hi⟩
      obtain ⟨hnext, hthread', hnone⟩ := hps1.clearListener hlive hs
      refine ⟨hnext, hthread'.trans hthread, ?_⟩
      intro j hj
      obtain hj | hj := List.mem_append.mp hj
      · exact hnone _ (.inr (hdone j hj))
      · obtain rfl : j = i := by simpa using hj
        exact hnone _ (.inl rfl)) h1
  obtain ⟨⟨ps1, hps1⟩, hthread, hdone⟩ := hloop
  refine ⟨⟨ps1, hps1.emptied (t := t) ?_ ?_ ?_ rfl rfl (Nat.le_refl _) ?_ (by simp) ?_⟩, by simp⟩
  · intro u hu
    rw [Kernel.updateThread_thread_of_ne _ _ _ _ hu]
  · intro u _
    rfl
  · intro e
    rfl
  · intro i hi
    rw [hthread, hv] at hi ⊢
    exact hdone i (by simpa using hi)
  · intro hcap
    exact .inr ⟨by simp, by simpa using hcap⟩

theorem destroyThread (h : Listening k ps) (hk : k.destroyThread t = .ok k') :
    ∃ ps', Listening k' ps' := by
  unfold Kernel.destroyThread at hk
  obtain ⟨u, -, hk⟩ := bind_ok hk
  obtain ⟨k1, hclear, rfl⟩ := bind_pure_ok hk
  have hstart : Listening (k.updateProcess (k.thread t).process fun z =>
      { z with threadList := z.threadList.erase t }) ps := h.same { SameListeners.refl k with }
  obtain ⟨⟨ps1, hps1⟩, hsize⟩ := hstart.clearListeners hclear
  refine ⟨ps1, hps1.emptied (t := t) ?_ ?_ ?_ rfl rfl (Nat.le_refl _) ?_ (by simp) (by simp)⟩
  · intro u hu
    simp [Kernel.updateThread, hu]
  · intro u hu
    simp [update_of_ne hu]
  · intro e
    rfl
  · intro i hi
    rw [hsize] at hi
    exact absurd hi (Nat.not_lt_zero _)

end Listening

/-! ## The scheduler -/

section Same

variable {k k' : Kernel} {t : Tid}

theorem Dispatched.sameListeners (h : Dispatched k t k') : SameListeners k k' := by
  obtain ⟨s, g, a, m, P, -, rfl⟩ := h
  refine { SameListeners.refl k with vector := ?_ }
  intro u
  by_cases hu : u = t
  · subst hu
    simp
  · simp [Kernel.updateThread, hu]

theorem sameListeners_dispatch (h : k.dispatchPendingSignal t = .ok k') : SameListeners k k' := by
  obtain ⟨k1, hd, hsame⟩ := dispatch_same h
  exact hd.sameListeners.trans hsame.toSameListeners

theorem sameListeners_deliver (h : k.isrDeliver t = .ok k') : SameListeners k k' := by
  obtain rfl | ⟨-, -, h⟩ | ⟨f, -, -, hf, hw⟩ := deliver_cases h
  · exact .refl k'
  · exact sameListeners_dispatch h
  · exact (sameListeners_updateThread hf).trans (Wakes.quiet hw).sameContexts.toSameListeners

theorem sameListeners_pick {c : Option Tid} (h : k.isrPick c = .ok (t, k')) :
    SameListeners k k' := by
  obtain ⟨-, -, -, hcont⟩ := pick_cases h
  have hswitch : SameListeners k (k.switchTo t) := { SameListeners.refl k with }
  exact hswitch.trans (sameContexts_continueStopped hcont).toSameListeners

theorem sameListeners_isrSave : SameListeners k (k.isrSave t) :=
  sameListeners_updateThread fun _ => rfl

theorem sameListeners_isrResume : SameListeners k (k.isrResume t) := by
  have hrun : SameListeners k (k.updateThread t fun x => { x with state := .running }) :=
    sameListeners_updateThread fun _ => rfl
  exact { hrun with }

theorem sameListeners_syscallEnd : SameListeners k (k.syscallEnd t) := by
  unfold Kernel.syscallEnd
  simp only
  split_ifs
  · refine .trans (sameListeners_updateThread ?_) (sameListeners_updateThread ?_)
    · intro x
      rfl
    · intro x
      rfl
  · refine sameListeners_updateThread ?_
    intro x
    rfl

theorem cloneImpl_lists {old : Tid} {fork : Option Process} {x : Thread}
    (h : k.cloneImpl old t fork x = .ok k') :
    k'.listener = k.listener ∧ k'.listenerLinks = k.listenerLinks ∧ k'.event = k.event ∧
      k'.nextBuffer = k.nextBuffer := by
  unfold Kernel.cloneImpl at h
  obtain ⟨l, -, rfl⟩ := bind_pure_ok h
  cases fork with
  | none => exact ⟨rfl, rfl, rfl, rfl⟩
  | some y => exact ⟨rfl, rfl, rfl, rfl⟩

theorem sameListeners_exceptionHandler {vec : ℕ} (h : k.exceptionHandler t vec = .ok k') :
    SameListeners k k' ∧ ∀ u, k.state u = .zombie → k'.state u = .zombie := by
  obtain ⟨k1, k2, h1, h2, rfl⟩ := exceptionHandler_cases h
  have hsave : SameListeners k1 (k1.exceptionSave t) := sameListeners_updateThread fun _ => rfl
  have hall := ((sameContexts_sendSignal h1).toSameListeners.trans hsave).trans
    (sameListeners_dispatch h2)
  refine ⟨{ hall with }, ?_⟩
  intro u hz
  have hz1 : (k1.exceptionSave t).state u = .zombie := by
    rw [exceptionSave_state]
    exact (keeps_sendSignal h1).dead u hz
  exact (keeps_dispatch h2).dead u hz1

end Same

/-- What holds between the steps. -/
structure Listed (k : Kernel) : Prop where
  listening : ∃ ps, Listening k ps
  unused : ∀ t, k.used t = false → k.state t = .zombie

/-- A thread that falls asleep has room for its listeners. -/
def Roomy (m : Machine) : Op → Prop
  | .wait events nonblocking => ∀ r, m.running = some r → m.kernel.hasPendingSignals r = false →
      m.kernel.pendingEvent events = none → nonblocking = false →
      (events.filterMap id).length ≤ max 1 (m.kernel.thread r).listeners.capacity
  | _ => True

namespace Listed

variable {k k' : Kernel} {m : Machine}

/-- A step that leaves the listeners alone. -/
theorem onward (h : Listed k) (hsame : SameListeners k k')
    (hdead : ∀ u, k.state u = .zombie → k'.state u = .zombie) : Listed k' := by
  obtain ⟨ps, hps⟩ := h.listening
  refine ⟨⟨ps, hps.same hsame⟩, ?_⟩
  intro t ht
  exact hdead t (h.unused t (by rw [← hsame.used]; exact ht))

/-- A change of a thread's marks. -/
theorem marked (h : Listed k) {t : Tid} {f : Thread → Thread}
    (hv : ∀ x, (f x).listeners = x.listeners) (hs : ∀ x, (f x).state = x.state) :
    Listed (k.updateThread t f) := by
  refine h.onward (sameListeners_updateThread hv) ?_
  intro u hz
  rw [Kernel.updateThread_state _ _ _ (hs _)]
  exact hz

/-- A step that touches the listeners and leaves the threads in their states. -/
theorem relisted (h : Listed k) {ps : EventId → List ListenerRef} (hps : Listening k' ps)
    (hframe : ListensOnly k k') : Listed k' := by
  refine ⟨⟨ps, hps⟩, ?_⟩
  intro t ht
  rw [hframe.state]
  exact h.unused t (by rw [← hframe.used]; exact ht)

/-- A thread that is not dead is in use. -/
theorem used (h : Listed k) {t : Tid} (hstate : k.state t ≠ .zombie) : k.used t = true := by
  by_contra hused
  exact hstate (h.unused t (by simpa using hused))

theorem step {m' : Machine} {op : Op} (h : Listed m.kernel) (hroomy : Roomy m op)
    (hstep : m.step op = .ok m') : Listed m'.kernel := by
  cases Machine.step_effect hstep with
  | nothing => exact h
  | compute pc mode => exact h.onward { SameListeners.refl _ with } fun _ hz => hz
  | syscall pc => exact h.onward { SameListeners.refl _ with } fun _ hz => hz
  | @sysret c r pc running =>
    have hsame : SameListeners m.kernel (m.kernel.syscallEnd r) := sameListeners_syscallEnd
    have hregs : SameListeners m.kernel ((m.kernel.syscallEnd r).setRegisters c) := { hsame with }
    exact h.onward hregs fun u hz => (syscallEnd_state u).trans hz
  | @sigreturn f r k pc running hk =>
    obtain rfl := sigreturn_eq hk
    exact h.marked (t := r) (f := fun x => { x with exitingSignal := true, signalFrame := f })
      (fun _ => rfl) (fun _ => rfl)
  | sigaction => exact h.onward { SameListeners.refl _ with } fun _ hz => hz
  | @sigprocmask mask r pc running =>
    exact h.marked (t := r) (f := fun x => { x with signalMask := mask }) (fun _ => rfl)
      (fun _ => rfl)
  | sendSignal pc hk =>
    exact h.onward (sameContexts_sendSignal hk).toSameListeners (keeps_sendSignal hk).dead
  | trigger pc hk =>
    have hq := Wakes.quiet (wakes_trigger hk)
    exact h.onward hq.sameContexts.toSameListeners hq.keeps.dead
  | enqueue pc hk =>
    exact h.onward (sameContexts_enqueueThread hk).toSameListeners (keeps_enqueueThread hk).dead
  | wait pc running hk awake =>
    obtain ⟨-, rfl | ⟨e, rfl⟩⟩ | ⟨hasleep, -⟩ := wait_cases hk
    · exact h
    · refine h.onward { SameListeners.refl _ with numListeners := ?_ } fun _ hz => hz
      exact m.kernel.updateEvent_event e (fun x => { x with pending := x.pending - 1 })
        (g := Event.numListeners) fun _ => rfl
    · exact absurd hasleep awake
  | @sleep r events nonblocking k pc running hk =>
    obtain ⟨hne, -⟩ | ⟨-, hsignals, hpending, hblock, hsize, k1, hreg, hdeq⟩ := wait_cases hk
    · exact absurd rfl hne
    · have hframe := register_frame hreg
      -- a thread that can be taken off the run list is not dead
      have hstate : m.kernel.state r ≠ .zombie := by
        obtain ⟨hawake, -⟩ := dequeueThread_cases hdeq
        rw [← hframe.state]
        intro hz
        rw [hz] at hawake
        simp at hawake
      obtain ⟨ps, hps⟩ := h.listening
      obtain ⟨ps', hps'⟩ := hps.register (h.used hstate)
        (by rw [hsize, Nat.zero_add]; exact hroomy r running hsignals hpending hblock) hreg
      exact (h.relisted hps' hframe).onward (sameContexts_dequeueThread hdeq).toSameListeners
        (keeps_dequeueThread hdeq).dead
  | waitEnd pc running hk =>
    have hclear := (waitEnd_cases hk).1
    obtain ⟨ps, hps⟩ := h.listening
    obtain ⟨⟨ps', hps'⟩, -⟩ := hps.clearListeners hclear
    exact h.relisted hps' (clearListeners_frame hclear)
  | yield pc => exact h
  | exitGroup pc running hk =>
    exact h.onward (sameContexts_terminateProcess hk).toSameListeners (keeps_terminateProcess hk).dead
  | exit pc running hk =>
    exact h.onward (sameContexts_terminateThread hk).toSameListeners (keeps_terminateThread hk).dead
  | dequeue pc running ne hk =>
    exact h.onward (sameContexts_dequeueThread hk).toSameListeners (keeps_dequeueThread hk).dead
  | terminateThread pc running ne hk =>
    exact h.onward (sameContexts_terminateThread hk).toSameListeners (keeps_terminateThread hk).dead
  | terminateProcess pc running ne hk =>
    exact h.onward (sameContexts_terminateProcess hk).toSameListeners (keeps_terminateProcess hk).dead
  | @clone t r fork x k pc running unused hk =>
    obtain ⟨y, l, -, hempty, -, -, hthread, hused, -, -⟩ := cloneImpl_cases hk
    obtain ⟨hlistener, hlinks, hevent, hnext⟩ := cloneImpl_lists hk
    obtain ⟨ps, hps⟩ := h.listening
    have hold : ∀ u, u ≠ t → k.thread u = m.kernel.thread u := by
      intro u hu
      rw [hthread, update_of_ne hu]
    have hself : (k.thread t).listeners = {} := by
      rw [hthread, update_self, hempty]
    have hused' : ∀ u, u ≠ t → k.used u = m.kernel.used u := by
      intro u hu
      rw [hused, update_of_ne hu]
    refine ⟨⟨ps, hps.emptied (t := t) ?_ hused' ?_ hlistener hlinks hnext.ge ?_ ?_ ?_⟩, ?_⟩
    · intro u hu
      rw [hold u hu]
    · intro e
      rw [hevent]
    · intro i hi
      rw [hps.unused t unused] at hi
      exact absurd hi (Nat.not_lt_zero _)
    · rw [hself]
    · rw [hself]
      exact fun hcap => absurd hcap (Nat.lt_irrefl _)
    · intro u hu
      have hut : u ≠ t := by
        rintro rfl
        simp [hused] at hu
      rw [Kernel.state, hold u hut]
      exact h.unused u (by rw [← hused' u hut]; exact hu)
  | @destroy t k pc hk =>
    obtain ⟨ps, hps⟩ := h.listening
    obtain ⟨ps', hps'⟩ := hps.destroyThread hk
    obtain ⟨hz, k1, hl, rfl⟩ := destroyThread_cases hk
    refine ⟨⟨ps', hps'⟩, ?_⟩
    intro u hu
    by_cases hut : u = t
    · rw [hut]
      exact (hl.state t).trans hz
    · have hu' : m.kernel.used u = false := by simpa [hut] using hu
      exact (hl.state u).trans (h.unused u hu')
  | exception pc running hk =>
    obtain ⟨hsame, hdead⟩ := sameListeners_exceptionHandler hk
    exact h.onward hsame hdead
  | interruptIdle pc running => exact h
  | interrupt pc running => exact h
  | selectFirst pc hk => exact h.onward (sameListeners_pick hk) (pick_running hk).2.2
  | select pc hk =>
    exact (h.onward sameListeners_isrSave keeps_isrSave.dead).onward (sameListeners_pick hk)
      (pick_running hk).2.2
  | again pc hk =>
    obtain ⟨k1, hdel, ⟨-, -, rfl⟩ | ⟨hf, -, -⟩⟩ := finish_cases hk
    · exact h.onward (sameListeners_deliver hdel) (keeps_deliver hdel).dead
    · cases hf
  | @resume t k pc hk =>
    obtain ⟨k1, hdel, ⟨hf, -, -⟩ | ⟨-, hlive, rfl⟩⟩ := finish_cases hk
    · cases hf
    · refine (h.onward (sameListeners_deliver hdel) (keeps_deliver hdel).dead).onward
        sameListeners_isrResume ?_
      intro u hz
      have hut : u ≠ t := by
        rintro rfl
        exact hlive (.inl hz)
      rw [isrResume_state_of_ne hut]
      exact hz

end Listed

theorem listed_booted (idle main init : Thread) : Listed (Kernel.booted idle main init) := by
  have hempty : ∀ t, ((Kernel.booted idle main init).thread t).listeners = {} := by
    intro t
    simp only [Kernel.booted]
    split_ifs <;> rfl
  refine ⟨⟨fun _ => [], ?_⟩, ?_⟩
  · constructor
    case ring =>
      intro e
      exact isRing_nil rfl
    case mem =>
      intro e p
      simp [Kernel.Listens, hempty]
    case count =>
      intro e
      rfl
    all_goals simp [hempty]
  · exact (live_booted idle main init).unused

/-- The list of every event holds exactly its live listeners, in well-formed links, and
    `num_listeners` is its length. -/
def ListsOk (k : Kernel) : Prop :=
  ∀ e, ∃ ps : List ListenerRef, IsRing k.listenerLinks (.head e) (ps.map .link) ∧
    (∀ p, p ∈ ps ↔ k.Listens p e) ∧ (k.event e).numListeners = ps.length

/-- **Main theorem.** In every run in which the vector of a thread has room for its listeners when
    it falls asleep, the listener lists of all events are well formed. -/
theorem listeners_wellFormed {idle main init : Thread} {m : Machine}
    (h : Run Machine.step Roomy (Machine.booted idle main init) m) : ListsOk m.kernel := by
  have hlisted : Listed m.kernel := h.invariant (P := fun m => Listed m.kernel)
    (fun _ _ _ hs hroomy hstep => hs.step hroomy hstep) (listed_booted idle main init)
  obtain ⟨ps, hps⟩ := hlisted.listening
  exact fun e => ⟨ps e, hps.ring e, hps.mem e, hps.count e⟩

/-- The init process is switched to and waits for the events. -/
def waitOps (events : List (Option EventId)) : List Op :=
  switchOps ++ [.syscall {}, .wait events false]

/-- The init process waits for one event. -/
theorem listeners_wellFormed_firstWait :
    ∃ m, Run Machine.step Roomy (Machine.booted {} {} initThread) m ∧
      (m.kernel.thread 1).listeners.size = 1 ∧ ListsOk m.kernel := by
  obtain ⟨m, hm, hsize⟩ := exists_ok_of_map (show
    ((waitOps [some 1]).foldlM Machine.step (Machine.booted {} {} initThread)).map
      (fun m => (m.kernel.thread 1).listeners.size) = .ok 1 by decide +kernel)
  have hrun : Run Machine.step Roomy (Machine.booted {} {} initThread) m :=
    Run.start.foldlM (by simp [waitOps, switchOps, Roomy]) hm
  exact ⟨m, hrun, hsize, listeners_wellFormed hrun⟩

/-- The first wait of the init process is for two events: the vector grows when the first listener
    is linked, and the list of the first event goes through the old buffer. -/
theorem twoEvents_break :
    ∃ m, Run Machine.step AnyStep (Machine.booted {} {} initThread) m ∧ ¬ListsOk m.kernel := by
  obtain ⟨m, hm, hread⟩ := exists_ok_of_map (show
    ((waitOps [some 1, some 2]).foldlM Machine.step
      (Machine.booted {} {} initThread)).map (fun m => ((m.kernel.thread 1).listeners,
        (m.kernel.listener ⟨1, 0⟩).event, (m.kernel.listenerLinks (.link ⟨1, 0⟩)).next,
        (m.kernel.listenerLinks (.head 1)).prev)) =
      .ok (⟨1, 2, 2⟩, some 1, some (.head 1), some (.link ⟨0, 0⟩))
      by decide +kernel)
  simp only [Prod.mk.injEq] at hread
  obtain ⟨hvector, hevent, hnext, hprev⟩ := hread
  refine ⟨m, Run.start.foldlM (fun _ _ _ => trivial) hm, ?_⟩
  intro hok
  obtain ⟨ps, hring, hmem, -⟩ := hok 1
  -- the moved listener is live, and the head does not point back to it
  have hlive : m.kernel.Listens ⟨1, 0⟩ 1 := ⟨⟨1, by simp [hvector]⟩, hevent⟩
  obtain ⟨b, hb, hback⟩ := hring.linked (List.mem_map_of_mem ((hmem _).mpr hlive))
  rw [hnext] at hb
  obtain rfl := Option.some.inj hb
  rw [hprev] at hback
  simp at hback

end Fishix.Sched
