import Fishix.Userland.Epoll

/-!
# Edge-triggered registrations

With `EPOLLET` a scan reports the bits that the poll of the last scan did not show
(userland/epoll.cpp:168-174). A bit that has gone and come back between two scans looks to them as
if it had stayed.

* `scan_reached`: what a scan does to a registration that it reaches.
* `edge_reported_iff`: exactly when the next scan reports a bit that has come back.
* `edge_lost`: a pipe that is drained and filled again between two scans.
-/

namespace Fishix.Userland

namespace EPoll

variable {poll : DescriptionPtr → BitVec 32 → U64} {maxevents : ℕ}

/-! ## One scan -/

variable {r : RegisteredEvent} {d : DescriptionPtr} {rest : List RegisteredEvent} {i n : ℕ}

/-- A registration after a scan. -/
def scanned (poll : DescriptionPtr → BitVec 32 → U64) (r : RegisteredEvent) (d : DescriptionPtr) :
    RegisteredEvent :=
  { description := some d
    oldRevents := (poll d r.userEvents.events).setWidth 32
    userEvents := r.userEvents }

theorem scanFrom_free (hd : r.description = none) :
    scanFrom poll maxevents i n (r :: rest) =
      (r :: (scanFrom poll maxevents (i + 1) n rest).1,
        (scanFrom poll maxevents (i + 1) n rest).2) := by
  rw [scanFrom]
  simp only [hd]

theorem scanFrom_quiet (hd : r.description = some d)
    (hrevents : reventsOf r (poll d r.userEvents.events) = 0#64) :
    scanFrom poll maxevents i n (r :: rest) =
      (scanned poll r d :: (scanFrom poll maxevents (i + 1) n rest).1,
        (scanFrom poll maxevents (i + 1) n rest).2) := by
  rw [scanFrom]
  simp only [hd]
  rw [if_neg (not_not.mpr hrevents)]
  rfl

theorem scanFrom_full (hd : r.description = some d)
    (hrevents : reventsOf r (poll d r.userEvents.events) ≠ 0#64) (hfull : maxevents ≤ n + 1) :
    scanFrom poll maxevents i n (r :: rest) =
      (scanned poll r d :: rest,
        [⟨i, reventsOf r (poll d r.userEvents.events), r.userEvents.data⟩]) := by
  rw [scanFrom]
  simp only [hd]
  rw [if_pos hrevents, if_pos hfull]
  rfl

theorem scanFrom_report (hd : r.description = some d)
    (hrevents : reventsOf r (poll d r.userEvents.events) ≠ 0#64) (hroom : ¬maxevents ≤ n + 1) :
    scanFrom poll maxevents i n (r :: rest) =
      (scanned poll r d :: (scanFrom poll maxevents (i + 1) (n + 1) rest).1,
        ⟨i, reventsOf r (poll d r.userEvents.events), r.userEvents.data⟩ ::
          (scanFrom poll maxevents (i + 1) (n + 1) rest).2) := by
  rw [scanFrom]
  simp only [hd]
  rw [if_pos hrevents, if_neg hroom]
  rfl

/-- A scan goes through the first registrations, and then through the rest if it may still report. -/
theorem scanFrom_append {l₁ l₂ : List RegisteredEvent} : ∀ {i n : ℕ}, n < maxevents →
    scanFrom poll maxevents i n (l₁ ++ l₂) =
      if n + (scanFrom poll maxevents i n l₁).2.length < maxevents then
        ((scanFrom poll maxevents i n l₁).1 ++
          (scanFrom poll maxevents (i + l₁.length)
            (n + (scanFrom poll maxevents i n l₁).2.length) l₂).1,
        (scanFrom poll maxevents i n l₁).2 ++
          (scanFrom poll maxevents (i + l₁.length)
            (n + (scanFrom poll maxevents i n l₁).2.length) l₂).2)
      else ((scanFrom poll maxevents i n l₁).1 ++ l₂, (scanFrom poll maxevents i n l₁).2) := by
  induction l₁ with
  | nil =>
    intro i n hn
    simp [scanFrom, hn]
  | cons r l₁ ih =>
    intro i n hn
    have hnext : i + 1 + l₁.length = i + (l₁.length + 1) := by omega
    rw [List.cons_append]
    cases hd : r.description with
    | none =>
      rw [scanFrom_free hd, scanFrom_free hd, ih hn, hnext]
      split_ifs <;> rfl
    | some d =>
      by_cases hrevents : reventsOf r (poll d r.userEvents.events) = 0#64
      · rw [scanFrom_quiet hd hrevents, scanFrom_quiet hd hrevents, ih hn, hnext]
        split_ifs <;> rfl
      · by_cases hfull : maxevents ≤ n + 1
        · rw [scanFrom_full hd hrevents hfull, scanFrom_full hd hrevents hfull]
          rw [if_neg (by simpa using hfull)]
          rfl
        · rw [scanFrom_report hd hrevents hfull, scanFrom_report hd hrevents hfull,
            ih (by omega), hnext]
          have hcount : ∀ m, n + 1 + m = n + (m + 1) := by
            intro m
            omega
          simp only [List.length_cons, hcount]
          split_ifs <;> rfl

/-- Reports are about the registrations that are scanned. -/
theorem scanFrom_index {l : List RegisteredEvent} : ∀ {i n : ℕ},
    ∀ report ∈ (scanFrom poll maxevents i n l).2, i ≤ report.index ∧ report.index < i + l.length := by
  induction l with
  | nil =>
    intro i n report h
    simp [scanFrom] at h
  | cons r rest ih =>
    intro i n report h
    have hrest : ∀ n, report ∈ (scanFrom poll maxevents (i + 1) n rest).2 →
        i ≤ report.index ∧ report.index < i + (r :: rest).length := by
      intro n hn
      have := ih report hn
      rw [List.length_cons]
      omega
    cases hd : r.description with
    | none =>
      rw [scanFrom_free hd] at h
      exact hrest n h
    | some d =>
      by_cases hrevents : reventsOf r (poll d r.userEvents.events) = 0#64
      · rw [scanFrom_quiet hd hrevents] at h
        exact hrest n h
      · by_cases hfull : maxevents ≤ n + 1
        · rw [scanFrom_full hd hrevents hfull] at h
          obtain rfl := List.mem_singleton.mp h
          simp
        · rw [scanFrom_report hd hrevents hfull] at h
          rcases List.mem_cons.mp h with rfl | h
          · simp
          · exact hrest (n + 1) h

/-- A scan reaches the registration at `i`. -/
def Reaches (ep : EPoll) (poll : DescriptionPtr → BitVec 32 → U64) (maxevents i : ℕ) : Prop :=
  (scanFrom poll maxevents 0 0 (ep.events.take i)).2.length < maxevents

instance (ep : EPoll) (i : ℕ) : Decidable (ep.Reaches poll maxevents i) :=
  inferInstanceAs (Decidable (_ < _))

/-- A bit is reported for the registration at `i`. -/
def Reports (reports : List Report) (i b : ℕ) : Prop :=
  ∃ report ∈ reports, report.index = i ∧ report.revents.getLsbD b = true

instance (reports : List Report) (i b : ℕ) : Decidable (Reports reports i b) :=
  inferInstanceAs (Decidable (∃ report ∈ reports, _))

variable {ep : EPoll} {b : ℕ}

/-- The registrations before a place keep their number. -/
theorem scanFrom_length {l : List RegisteredEvent} :
    (scanFrom poll maxevents i n l).1.length = l.length := by
  have h := congrArg List.length (@scanFrom_descriptions poll maxevents l i n)
  rw [List.length_map, List.length_map] at h
  exact h

/-- The registrations before, at and behind a place. -/
theorem events_split (hr : ep.events[i]? = some r) :
    ep.events = ep.events.take i ++ r :: ep.events.drop (i + 1) ∧ (ep.events.take i).length = i := by
  obtain ⟨hi, rfl⟩ := List.getElem?_eq_some_iff.mp hr
  exact ⟨by rw [List.getElem_cons_drop, List.take_append_drop], List.length_take_of_le (by omega)⟩

theorem scanFrom_head (hd : r.description = some d) :
    (scanFrom poll maxevents i n (r :: rest)).1.head? = some (scanned poll r d) ∧
      (Reports (scanFrom poll maxevents i n (r :: rest)).2 i b ↔
        (reventsOf r (poll d r.userEvents.events)).getLsbD b = true) := by
  have hlater : ∀ n, ¬Reports (scanFrom poll maxevents (i + 1) n rest).2 i b := by
    rintro n ⟨report, hreport, hindex, -⟩
    have := scanFrom_index report hreport
    omega
  by_cases hrevents : reventsOf r (poll d r.userEvents.events) = 0#64
  · rw [scanFrom_quiet hd hrevents, hrevents]
    refine ⟨rfl, ?_⟩
    simpa using hlater n
  · by_cases hfull : maxevents ≤ n + 1
    · rw [scanFrom_full hd hrevents hfull]
      refine ⟨rfl, ?_⟩
      simp [Reports]
    · rw [scanFrom_report hd hrevents hfull]
      refine ⟨rfl, ?_⟩
      have := hlater (n + 1)
      unfold Reports at this ⊢
      simp only [List.mem_cons, exists_eq_or_imp, true_and, or_iff_left this]

/-- What a scan does to a registration that it reaches. -/
theorem scan_reached (hr : ep.events[i]? = some r) (hd : r.description = some d)
    (hreach : ep.Reaches poll maxevents i) :
    (ep.scan poll maxevents).1.events[i]? = some (scanned poll r d) ∧
      (Reports (ep.scan poll maxevents).2 i b ↔
        (reventsOf r (poll d r.userEvents.events)).getLsbD b = true) := by
  obtain ⟨hsplit, hlength⟩ := events_split hr
  unfold Reaches at hreach
  have hscan := congrArg (scanFrom poll maxevents 0 0) hsplit
  rw [scanFrom_append (by omega), if_pos (by omega), hlength] at hscan
  rw [Nat.zero_add i] at hscan
  obtain ⟨hhead, hreports⟩ := @scanFrom_head poll maxevents r d (ep.events.drop (i + 1)) i
    (0 + (scanFrom poll maxevents 0 0 (ep.events.take i)).2.length) b hd
  constructor
  · show (scanFrom poll maxevents 0 0 ep.events).1[i]? = _
    rw [hscan]
    show (_ ++ _)[i]? = _
    rw [List.getElem?_append_right (by rw [scanFrom_length, hlength]), scanFrom_length, hlength,
      Nat.sub_self, ← List.head?_eq_getElem?]
    exact hhead
  · show Reports (scanFrom poll maxevents 0 0 ep.events).2 i b ↔ _
    rw [hscan, ← hreports]
    unfold Reports
    simp only [List.mem_append]
    constructor
    · rintro ⟨report, hmem | hmem, hindex, hbit⟩
      · have := (scanFrom_index report hmem).2
        omega
      · exact ⟨report, hmem, hindex, hbit⟩
    · rintro ⟨report, hmem, hindex, hbit⟩
      exact ⟨report, .inr hmem, hindex, hbit⟩

/-- A scan that stops before a registration leaves it alone. -/
theorem scan_not_reached (hr : ep.events[i]? = some r) (hmax : 0 < maxevents)
    (hreach : ¬ep.Reaches poll maxevents i) :
    (ep.scan poll maxevents).1.events[i]? = some r ∧ ¬Reports (ep.scan poll maxevents).2 i b := by
  obtain ⟨hsplit, hlength⟩ := events_split hr
  unfold Reaches at hreach
  have hscan := congrArg (scanFrom poll maxevents 0 0) hsplit
  rw [scanFrom_append hmax, if_neg (by omega)] at hscan
  constructor
  · show (scanFrom poll maxevents 0 0 ep.events).1[i]? = _
    rw [hscan]
    show (_ ++ _)[i]? = _
    rw [List.getElem?_append_right (by rw [scanFrom_length, hlength]), scanFrom_length, hlength,
      Nat.sub_self]
    rfl
  · show ¬Reports (scanFrom poll maxevents 0 0 ep.events).2 i b
    rw [hscan]
    rintro ⟨report, hmem, hindex, -⟩
    have := (scanFrom_index report hmem).2
    omega

end EPoll

/-! ## A bit that comes and goes -/

/-- An instance, the state of the nodes, and what has happened to one bit of one registration. -/
structure Watch (σ : Type) where
  epoll : EPoll
  world : σ
  /-- A scan has reported the bit. -/
  reported : Bool := false
  /-- Since the last report it was not ready, -/
  fell : Bool := false
  /-- and ready again. -/
  rose : Bool := false
  /-- What the last scan that reached the registration found. -/
  seen : Option Bool := none

/-- What happens around a registration. -/
inductive WatchOp (σ : Type)
  /-- The state of the nodes changes. -/
  | change (world : σ)
  /-- `epoll_wait` scans. -/
  | scan (maxevents : ℕ)
  /-- `epoll_ctl` on other registrations. -/
  | ctl (event : DescriptionPtr → Option EventPtr) (op : CtlOp) (fd : ℕ) (target : DescriptionPtr)
    (userEvent : EpollEvent)

namespace Watch

variable {σ : Type} (poll : σ → DescriptionPtr → BitVec 32 → U64) (r : RegisteredEvent)
  (d : DescriptionPtr) (i b : ℕ)

/-- The poll of the description shows the bit. -/
def ready (s : Watch σ) : Bool := (poll s.world d r.userEvents.events).getLsbD b

/-- The history goes on with the readiness of the moment. -/
def observe (s : Watch σ) : Watch σ :=
  if s.reported then
    if s.ready poll r d b then { s with rose := s.rose || s.fell } else { s with fell := true }
  else s

/-- What a scan adds to the history. -/
def noteScan (s : Watch σ) (reached reports : Bool) : Watch σ :=
  let s := if reached then { s with seen := some (s.ready poll r d b) } else s
  if reports then { s with reported := true, fell := false, rose := false } else s

def step (s : Watch σ) : WatchOp σ → Except Unit (Watch σ)
  | .change world => .ok ({ s with world }.observe poll r d b)
  | .scan maxevents =>
    if 0 < maxevents then
      let (epoll, reports) := s.epoll.scan (poll s.world) maxevents
      .ok { s.noteScan poll r d b (s.epoll.Reaches (poll s.world) maxevents i)
        (EPoll.Reports reports i b) with epoll }
    else .error ()
  | .ctl event op fd target userEvent =>
    match s.epoll.ctl event op fd target userEvent with
    | .ok epoll =>
      -- the registration itself stays as it is
      if epoll.events[i]? = s.epoll.events[i]? then .ok { s with epoll } else .error ()
    | .error _ => .ok s

/-- The registration is still there, and it remembers what the last scan has found. -/
structure Watched (s : Watch σ) : Prop where
  registered : ∃ old, s.epoll.events[i]? = some { r with oldRevents := old } ∧
    (s.reported → s.seen = some (old.getLsbD b))
  fell : s.fell → s.reported
  rose : s.rose → s.reported

variable {poll r d i b} {s s' : Watch σ}

/-- The bit of what is reported with `EPOLLET`. -/
theorem reventsOf_bit {old : BitVec 32} {newRevents : U64}
    (hedge : r.userEvents.events &&& EPOLLET ≠ 0#32) (hb : b < 32) :
    (EPoll.reventsOf { r with oldRevents := old } newRevents).getLsbD b =
      (newRevents.getLsbD b && !old.getLsbD b) := by
  unfold EPoll.reventsOf
  rw [if_pos hedge, BitVec.getLsbD_and, BitVec.getLsbD_setWidth, BitVec.getLsbD_not]
  simp [hb, show b < 64 by omega]

/-- Looking at the readiness keeps what is registered and what has been seen. -/
theorem Watched.observe (h : s.Watched r i b) : (s.observe poll r d b).Watched r i b := by
  unfold Watch.observe
  split_ifs with hreported hready
  · refine ⟨h.registered, h.fell, ?_⟩
    intro _
    exact hreported
  · refine ⟨h.registered, ?_, h.rose⟩
    intro _
    exact hreported
  · exact h

theorem Watched.scan_reached (h : s.Watched r i b) (hd : r.description = some d) (hb : b < 32)
    {epoll : EPoll} (hevent : epoll.events[i]? = some (EPoll.scanned (poll s.world) r d))
    (reports : Bool) :
    ({ s.noteScan poll r d b true reports with epoll } : Watch σ).Watched r i b := by
  have hregistered : EPoll.scanned (poll s.world) r d =
      { r with oldRevents := (poll s.world d r.userEvents.events).setWidth 32 } := by
    unfold EPoll.scanned
    rw [hd]
  have hbit : s.ready poll r d b =
      ((poll s.world d r.userEvents.events).setWidth 32).getLsbD b := by
    unfold ready
    rw [BitVec.getLsbD_setWidth]
    simp [hb]
  rw [hregistered] at hevent
  unfold noteScan
  cases reports with
  | false =>
    refine ⟨⟨_, hevent, ?_⟩, h.fell, h.rose⟩
    intro _
    exact congrArg some hbit
  | true =>
    refine ⟨⟨_, hevent, ?_⟩, fun hfell => ?_, fun hrose => ?_⟩
    · intro _
      exact congrArg some hbit
    · cases hfell
    · cases hrose

theorem step_watched (hd : r.description = some d) (hb : b < 32) (h : s.Watched r i b)
    {o : WatchOp σ} (hstep : s.step poll r d i b o = .ok s') : s'.Watched r i b := by
  obtain ⟨old, hevent, hseen⟩ := h.registered
  unfold step at hstep
  cases o with
  | change world =>
    cases hstep
    have hworld : ({ s with world } : Watch σ).Watched r i b := ⟨h.registered, h.fell, h.rose⟩
    exact hworld.observe
  | scan maxevents =>
    simp only at hstep
    split_ifs at hstep with hmax
    cases hstep
    by_cases hreach : s.epoll.Reaches (poll s.world) maxevents i
    · have hscan := (EPoll.scan_reached (b := b) hevent hd hreach).1
      rw [show decide (s.epoll.Reaches (poll s.world) maxevents i) = true from decide_eq_true hreach]
      exact h.scan_reached hd hb hscan _
    · have hscan := EPoll.scan_not_reached (b := b) hevent hmax hreach
      rw [show decide (s.epoll.Reaches (poll s.world) maxevents i) = false from
          decide_eq_false hreach,
        show decide (EPoll.Reports (s.epoll.scan (poll s.world) maxevents).2 i b) = false from
          decide_eq_false hscan.2]
      exact ⟨⟨old, hscan.1, hseen⟩, h.fell, h.rose⟩
  | ctl event op fd target userEvent =>
    simp only at hstep
    split at hstep
    · rename_i epoll hctl
      split_ifs at hstep with hsame
      cases hstep
      exact ⟨⟨old, hsame.trans hevent, hseen⟩, h.fell, h.rose⟩
    · cases hstep
      exact h

end Watch

section Edge

variable {σ : Type} {poll : σ → DescriptionPtr → BitVec 32 → U64} {r : RegisteredEvent}
  {d : DescriptionPtr} {i b maxevents : ℕ} {s0 s : Watch σ}

/-- **Main theorem.** A descriptor is registered with `EPOLLET`. In every run, the next scan that
    reaches it reports a bit that was not ready and ready again since its last report exactly if the
    bit is ready then, and the last scan before that reached it had found it not ready. -/
theorem edge_reported_iff (hedge : r.userEvents.events &&& EPOLLET ≠ 0#32)
    (hd : r.description = some d) (hb : b < 32) (hr : s0.epoll.events[i]? = some r)
    (hstart : s0 = { epoll := s0.epoll, world := s0.world })
    (h : Run (Watch.step poll r d i b) (fun _ _ => True) s0 s)
    (hreach : s.epoll.Reaches (poll s.world) maxevents i) :
    (s.rose → EPoll.Reports (s.epoll.scan (poll s.world) maxevents).2 i b) ↔
      (s.rose → s.ready poll r d b ∧ s.seen = some false) := by
  have hwatched : s.Watched r i b := by
    refine h.invariant (fun _ _ _ hs _ hstep => Watch.step_watched hd hb hs hstep) ?_
    rw [hstart]
    refine ⟨⟨r.oldRevents, hr, ?_⟩, ?_, ?_⟩
    · intro hreported
      cases hreported
    · intro hfell
      cases hfell
    · intro hrose
      cases hrose
  obtain ⟨old, hevent, hseen⟩ := hwatched.registered
  have hreports := (EPoll.scan_reached (b := b) hevent hd hreach).2
  rw [Watch.reventsOf_bit hedge hb] at hreports
  refine forall_congr' fun hrose => ?_
  rw [hreports, hseen (hwatched.rose hrose)]
  show (s.ready poll r d b && _) = true ↔ _
  cases old.getLsbD b <;> simp

/-! ## A pipe -/

/-- `POLLIN` is ready or not. -/
def pollIn (world : Bool) (_ : DescriptionPtr) (events : BitVec 32) : U64 :=
  if world then events.setWidth 64 &&& 1#64 else 0#64

/-- A descriptor that is registered for `POLLIN` with `EPOLLET`, with data. -/
def edgeTriggered : RegisteredEvent where
  description := some 0x1000#64
  userEvents := { events := 1#32 ||| EPOLLET }

def watchedPipe : Watch Bool where
  epoll := { events := [edgeTriggered], waitEvents := [none, some (.node 7)] }
  world := true

/-- Data that comes after a scan has found the pipe empty is reported. -/
theorem edge_reported_iff_empty : ∃ s : Watch Bool,
    Run (Watch.step pollIn edgeTriggered 0x1000#64 0 0) (fun _ _ => True) watchedPipe s ∧ s.rose ∧
      EPoll.Reports (s.epoll.scan (pollIn s.world) 1).2 0 0 := by
  obtain ⟨s, hs, hread⟩ := exists_ok_of_map
    (show (([.scan 1, .change false, .scan 1, .change true] : List (WatchOp Bool)).foldlM
      (Watch.step pollIn edgeTriggered 0x1000#64 0 0) watchedPipe).map
        (fun s => (s.world, s.rose, s.seen, decide (s.epoll.Reaches (pollIn s.world) 1 0))) =
      .ok (true, true, some false, true) by decide +kernel)
  obtain ⟨hworld, hrose, hseen, hreach⟩ : s.world = true ∧ s.rose = true ∧ s.seen = some false ∧
      decide (s.epoll.Reaches (pollIn s.world) 1 0) = true := by simpa using hread
  have hrun : Run (Watch.step pollIn edgeTriggered 0x1000#64 0 0) (fun _ _ => True) watchedPipe s :=
    Run.start.foldlM (by simp) hs
  refine ⟨s, hrun, hrose, ?_⟩
  refine (edge_reported_iff (by decide) rfl (by decide) rfl rfl hrun
    (of_decide_eq_true hreach)).mpr ?_ hrose
  intro _
  refine ⟨?_, hseen⟩
  unfold Watch.ready
  rw [hworld]
  decide

/-- A pipe that is drained and filled again between two scans is not reported. -/
theorem edge_lost : ¬∀ s : Watch Bool,
    Run (Watch.step pollIn edgeTriggered 0x1000#64 0 0) (fun _ _ => True) watchedPipe s →
    s.epoll.Reaches (pollIn s.world) 1 0 → s.rose →
    EPoll.Reports (s.epoll.scan (pollIn s.world) 1).2 0 0 := by
  intro h
  obtain ⟨s, hs, hread⟩ := exists_ok_of_map
    (show (([.scan 1, .change false, .change true] : List (WatchOp Bool)).foldlM
      (Watch.step pollIn edgeTriggered 0x1000#64 0 0) watchedPipe).map
        (fun s => (s.rose, decide (s.epoll.Reaches (pollIn s.world) 1 0),
          decide (EPoll.Reports (s.epoll.scan (pollIn s.world) 1).2 0 0))) =
      .ok (true, true, false) by decide +kernel)
  obtain ⟨hrose, hreach, hreports⟩ : s.rose = true ∧
      decide (s.epoll.Reaches (pollIn s.world) 1 0) = true ∧
      decide (EPoll.Reports (s.epoll.scan (pollIn s.world) 1).2 0 0) = false := by simpa using hread
  exact of_decide_eq_false hreports
    (h s (Run.start.foldlM (by simp) hs) (of_decide_eq_true hreach) hrose)

end Edge

end Fishix.Userland
