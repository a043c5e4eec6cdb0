import Fishix.Common.Outcome
import Fishix.Common.TimeSpec
import Fishix.Sched.Basic

/-!
# `pselect` by way of `ppoll`

Model of `pselect_impl` and `ppoll_impl` (fs/vfs.cpp:841-918, 936-985). The three descriptor sets
become one list of `pollfd`s; `ppoll` scans it, again after each wait, until a descriptor reports
something; what is reported is sorted into the sets. `ppoll` counts the descriptors that report
anything, a closed one (`POLLNVAL`) among them, and `pselect` returns that number.

What `vnode->poll` answers is part of the world: it is another one in each scan.

* `waitLoop_returns`: the scan in which `ppoll` returns is the only one that leaves traces.
* `named_results`: the result sets.
* `pselect_agrees_iff`: when the number is that of the bits, and no descriptor is closed.
-/

namespace Fishix.Fs.Select

open Fishix.Sched (Panic Thread)

def POLLIN : BitVec 16 := 1#16
def POLLPRI : BitVec 16 := 2#16
def POLLOUT : BitVec 16 := 4#16
def POLLERR : BitVec 16 := 8#16
def POLLHUP : BitVec 16 := 0x10#16
def POLLNVAL : BitVec 16 := 0x20#16

/-- `fd_set`: 1024 bits. -/
abbrev FdSet := BitVec 1024

/-- `FD_ISSET`. -/
def fdIsset (i : ℕ) (s : FdSet) : Bool := s.getLsbD i

/-- `FD_SET`. -/
def fdSet (i : ℕ) (s : FdSet) : FdSet := s ||| BitVec.twoPow 1024 i

/-- The three sets. -/
inductive Condition
  | read
  | write
  | except
  deriving DecidableEq

/-- What a set asks `poll` for (fs/vfs.cpp:944-949). -/
def Condition.request : Condition → BitVec 16
  | .read => POLLIN
  | .write => POLLOUT
  | .except => POLLPRI

/-- What puts a descriptor into the result set (fs/vfs.cpp:970-975). -/
def Condition.result : Condition → BitVec 16
  | .read => POLLIN ||| POLLERR ||| POLLHUP
  | .write => POLLOUT ||| POLLERR ||| POLLHUP
  | .except => POLLPRI

/-- `readfds`, `writefds` and `exceptfds`; `none` is null. -/
abbrev Sets := Condition → Option FdSet

/-- The set is there and has the bit. -/
def Sets.named (sets : Sets) (c : Condition) (i : ℕ) : Bool := (sets c).any (fdIsset i)

/-- `pollfd`. -/
structure Pollfd where
  fd : ℤ
  events : BitVec 16 := 0#16
  revents : BitVec 16 := 0#16
  deriving DecidableEq

/-- What `get_file_description` finds, and what the `poll` of its node answers. -/
abbrev World := ℕ → Option (U64 → U64)

/-- How `Event::wait` ends, and with it whether the timer has fired. -/
inductive Wait
  | interrupted
  | woken (fired : Bool)
  deriving DecidableEq

/-- One turn of `ppoll`: what it scans, and how it waits after that. -/
structure Round where
  world : World
  wait : Wait

/-- One turn of the scan (fs/vfs.cpp:892-907), with what is added to `ret`. -/
def Pollfd.scan (w : World) (p : Pollfd) : Pollfd × ℕ :=
  if p.fd < 0 ∨ p.events = 0#16 then (p, 0)
  else
    match w p.fd.toNat with
    | none => ({ p with revents := POLLNVAL }, 1)
    | some poll =>
      let revents := poll (p.events.signExtend 64)
      if revents ≠ 0#64 then ({ p with revents := revents.setWidth 16 }, 1) else (p, 0)

/-- The scan (fs/vfs.cpp:891-908). -/
def scan (w : World) (fds : List Pollfd) : List Pollfd × ℕ :=
  (fds.map fun p => (p.scan w).1, (fds.map fun p => (p.scan w).2).sum)

/-- The loop of `ppoll` (fs/vfs.cpp:890-917); `none` where it still waits after these rounds. -/
def waitLoop (block : Bool) : List Round → List Pollfd → Option (ℤ × List Pollfd)
  | [], _ => none
  | r :: rounds, fds =>
    let (fds, ret) := scan r.world fds
    if ret ≠ 0 then some (ret, fds)
    else if ¬block then some (0, fds)
    else
      match r.wait with
      | .interrupted => some (-4, fds)
      | .woken true => some (0, fds)
      | .woken false => waitLoop block rounds fds

/-- The temporary mask (fs/vfs.cpp:846-851). -/
def installMask (x : Thread) : Option U64 → Except Panic Thread
  | none => .ok x
  | some mask =>
    if x.pollSavedSignalMask = none then
      .ok { x with pollSavedSignalMask := some x.signalMask, signalMask := mask }
    else .error .assertion

/-- `ppoll_impl` (fs/vfs.cpp:841-918). -/
def ppollImpl (x : Thread) (fds : List Pollfd) (timeout : Option TimeSpec) (sigmask : Option U64)
    (rounds : List Round) : Except Panic (Option (ℤ × List Pollfd)) :=
  if 1024 < fds.length then .ok (some (-22, fds))
  else do
    let x ← installMask x sigmask
    if sigmask.isSome ∧ x.pendingSignals &&& ~~~x.signalMask ≠ 0#64 then .ok (some (-4, fds))
    else
      .ok (waitLoop (timeout.all fun t => !t.isZero) rounds
        (fds.map fun p => { p with revents := 0#16 }))

/-- The events of a descriptor (fs/vfs.cpp:944-949). -/
def events (sets : Sets) (i : ℕ) : BitVec 16 :=
  [Condition.read, .write, .except].foldl
    (fun events c => if sets.named c i then events ||| c.request else events) 0#16

/-- The first loop of `pselect_impl` (fs/vfs.cpp:941-956). -/
def request (sets : Sets) (i : ℕ) : Pollfd :=
  { fd := if events sets i = 0#16 then -1 else i, events := events sets i }

/-- The second loop (fs/vfs.cpp:967-976). -/
def results (sets : Sets) (nfds : ℕ) (fds : List Pollfd) : Condition → FdSet :=
  (List.range nfds).foldl (fun res i c =>
    if sets.named c i ∧ (fds.getD i ⟨-1, 0#16, 0#16⟩).revents &&& c.result ≠ 0#16 then
      fdSet i (res c)
    else res c) fun _ => 0#1024

/-- `pselect_impl` (fs/vfs.cpp:936-985). -/
def pselectImpl (x : Thread) (nfds : ℕ) (sets : Sets) (timeout : Option TimeSpec)
    (sigmask : Option U64) (rounds : List Round) : Except Panic (Option (ℤ × Sets)) :=
  if 1024 < nfds then .ok (some (-22, sets))
  else do
    let r ← ppollImpl x ((List.range nfds).map (request sets)) timeout sigmask rounds
    .ok (r.map fun (ret, fds) =>
      if ret < 0 then (ret, sets)
      else (ret, fun c => (sets c).map fun _ => results sets nfds fds c))

/-! ## What `pselect` is for -/

/-- The number of bits in a set. -/
def bits (s : Option FdSet) : ℕ := (List.range 1024).countP fun i => s.any (fdIsset i)

/-- The number of bits in the three sets. -/
def totalBits (sets : Sets) : ℕ := bits (sets .read) + bits (sets .write) + bits (sets .except)

/-- A set of the request names the descriptor. -/
def Requested (sets : Sets) (nfds i : ℕ) : Prop := i < nfds ∧ ∃ c, sets.named c i

/-- What an open descriptor reports when it is asked for all its conditions. -/
def reported (w : World) (sets : Sets) (i : ℕ) : U64 :=
  (w i).elim 0#64 fun poll => poll ((events sets i).signExtend 64)

/-- The descriptor is ready for a condition. -/
def Ready (w : World) (sets : Sets) (c : Condition) (i : ℕ) : Prop :=
  (reported w sets i).setWidth 16 &&& c.result ≠ 0#16

instance (w : World) (sets : Sets) (c : Condition) (i : ℕ) : Decidable (Ready w sets c i) :=
  inferInstanceAs (Decidable (_ ≠ _))

/-- A call with what it returns agrees with the state of the descriptors: the result sets are those
    of the ready ones in the scan that returns, the number is that of their bits, and a descriptor
    that is closed at the call makes it fail. -/
structure Agrees (first last : World) (nfds : ℕ) (sets : Sets) (ret : ℤ) (result : Sets) :
    Prop where
  ready : 0 ≤ ret → ∀ c i, result.named c i ↔ i < nfds ∧ sets.named c i ∧ Ready last sets c i
  number : 0 ≤ ret → ret = totalBits result
  closed : (∃ i, Requested sets nfds i ∧ first i = none) → ret = -9 ∧ result = sets

/-- A requested descriptor reports something, or is closed. -/
def reports (w : World) (sets : Sets) (i : ℕ) : Bool :=
  events sets i ≠ 0#16 ∧ (w i = none ∨ reported w sets i ≠ 0#64)

/-- As many descriptors report something as are ready, each counted in every set. -/
def Balanced (w : World) (nfds : ℕ) (sets : Sets) : Prop :=
  let ready (c : Condition) := (List.range nfds).countP fun i => sets.named c i ∧ Ready w sets c i
  (List.range nfds).countP (reports w sets) = ready .read + ready .write + ready .except

instance (w : World) (nfds : ℕ) (sets : Sets) : Decidable (Balanced w nfds sets) :=
  inferInstanceAs (Decidable (_ = _))

/-! ## Scanning -/

section Scan

variable {w last : World} {sets : Sets} {nfds i : ℕ} {c : Condition}

theorem events_ne_zero_iff : events sets i ≠ 0#16 ↔ ∃ c, sets.named c i := by
  have hevents : events sets i = ((if sets.named .read i then POLLIN else 0#16) |||
      (if sets.named .write i then POLLOUT else 0#16)) |||
      if sets.named .except i then POLLPRI else 0#16 := by
    unfold events
    simp only [List.foldl_cons, List.foldl_nil]
    split_ifs <;> rfl
  rw [hevents]
  constructor
  · intro h
    by_contra hnone
    have hall : ∀ c, sets.named c i = false := fun c =>
      Bool.eq_false_iff.mpr fun hc => hnone ⟨c, hc⟩
    simp [hall] at h
  · rintro ⟨c, hc⟩
    cases c <;> simp only [hc, if_true] <;> split_ifs <;> decide

/-- What the scan puts into the `pollfd` of a descriptor. -/
def revents (w : World) (sets : Sets) (i : ℕ) : BitVec 16 :=
  if events sets i = 0#16 then 0#16
  else if w i = none then POLLNVAL
  else (reported w sets i).setWidth 16

theorem scan_request : (request sets i).scan w =
    ({ request sets i with revents := revents w sets i }, if reports w sets i then 1 else 0) := by
  unfold Pollfd.scan revents reports
  by_cases he : events sets i = 0#16
  · simp [request, he]
  · have hfd : ¬((request sets i).fd < 0 ∨ (request sets i).events = 0#16) := by
      simp [request, he]
    rw [if_neg hfd]
    have hi : (request sets i).fd.toNat = i := by simp [request, he]
    rw [hi]
    cases hw : w i with
    | none => simp [he]
    | some poll =>
      have hreported : reported w sets i = poll ((events sets i).signExtend 64) := by
        simp [reported, hw]
      have hevents : (request sets i).events = events sets i := rfl
      simp only [hevents, ← hreported]
      by_cases hz : reported w sets i = 0#64
      · simp [hz, he, request]
      · simp [hz, he, request]

/-- A turn that counts nothing changes nothing. -/
theorem scan_eq_self {p : Pollfd} (h : (p.scan w).2 = 0) : (p.scan w).1 = p := by
  unfold Pollfd.scan at h ⊢
  by_cases hskip : p.fd < 0 ∨ p.events = 0#16
  · rw [if_pos hskip]
  rw [if_neg hskip] at h ⊢
  cases hw : w p.fd.toNat with
  | none => simp [hw] at h
  | some poll =>
    simp only [hw] at h ⊢
    split_ifs at h ⊢ with hz
    rfl

theorem scan_fst {fds : List Pollfd} (h : (scan w fds).2 = 0) : (scan w fds).1 = fds := by
  have hzero := List.sum_eq_zero_iff.mp h
  conv_rhs => rw [← List.map_id fds]
  refine List.map_congr_left ?_
  intro p hp
  exact scan_eq_self (hzero _ (List.mem_map_of_mem hp))

/-- The scan of the call in which `ppoll` returns: those before it found nothing. -/
theorem waitLoop_returns {block : Bool} {fds fds' : List Pollfd} {ret : ℤ} {last : Round} :
    ∀ {earlier : List Round}, (earlier = [] ∨ waitLoop block earlier fds = none) →
      waitLoop block (earlier ++ [last]) fds = some (ret, fds') →
      fds' = (scan last.world fds).1 ∧
        (ret = (scan last.world fds).2 ∨ ret = -4 ∧ (scan last.world fds).2 = 0)
  | [], _, h => by
    simp only [List.nil_append, waitLoop] at h
    split_ifs at h with hret hblock
    · cases h
      exact ⟨rfl, .inl rfl⟩
    · have hzero : (scan last.world fds).2 = 0 := by simpa using hret
      cases hwait : last.wait with
      | interrupted =>
        simp only [hwait] at h
        cases h
        exact ⟨rfl, .inr ⟨rfl, hzero⟩⟩
      | woken fired =>
        cases fired with
        | false => simp [hwait] at h
        | true =>
          simp only [hwait] at h
          cases h
          exact ⟨rfl, .inl (by simp [hzero])⟩
    · cases h
      exact ⟨rfl, .inl (by rw [not_not.mp hret]; rfl)⟩
  | r :: rounds, hwaits, h => by
    have hnone : waitLoop block (r :: rounds) fds = none := hwaits.resolve_left (by simp)
    simp only [List.cons_append, waitLoop] at h hnone
    by_cases hret : (scan r.world fds).2 ≠ 0
    · rw [if_pos hret] at hnone
      cases hnone
    rw [if_neg hret] at h hnone
    by_cases hblock : ¬block = true
    · rw [if_pos hblock] at hnone
      cases hnone
    rw [if_neg hblock] at h hnone
    have hsame := scan_fst (not_not.mp hret)
    rw [hsame] at h hnone
    cases hwait : r.wait with
    | interrupted => simp [hwait] at hnone
    | woken fired =>
      cases fired with
      | true => simp [hwait] at hnone
      | false =>
        simp only [hwait] at h hnone
        exact waitLoop_returns (.inr hnone) h

theorem sum_map_ite (p : ℕ → Bool) (l : List ℕ) :
    (l.map fun i => if p i then 1 else 0).sum = l.countP p := by
  induction l with
  | nil => rfl
  | cons a l ih =>
    rw [List.map_cons, List.sum_cons, ih, List.countP_cons, Nat.add_comm]

/-- The `pollfd`s of a call when it returns from a scan. -/
theorem scan_requests : scan w ((List.range nfds).map (request sets)) =
    ((List.range nfds).map fun i => { request sets i with revents := revents w sets i },
      (List.range nfds).countP (reports w sets)) := by
  unfold scan
  simp only [List.map_map, Function.comp_def, scan_request]
  exact Prod.ext rfl (sum_map_ite _ _)

/-! ## The result sets -/

theorem getLsbD_fdSet {j : ℕ} {s : FdSet} (hi : i < 1024) :
    (fdSet i s).getLsbD j = true ↔ s.getLsbD j = true ∨ i = j := by
  unfold fdSet
  rw [BitVec.getLsbD_or, BitVec.getLsbD_twoPow]
  simp [hi]

/-- A descriptor is in a result set if it was requested there and reports what the set is for. -/
theorem named_results {fds : List Pollfd} {j : ℕ} : ∀ {nfds : ℕ}, nfds ≤ 1024 →
    ((results sets nfds fds c).getLsbD j = true ↔ j < nfds ∧ sets.named c j ∧
      (fds.getD j ⟨-1, 0#16, 0#16⟩).revents &&& c.result ≠ 0#16)
  | 0, _ => by simp [results]
  | nfds + 1, hn => by
    have ih : (results sets nfds fds c).getLsbD j = true ↔ j < nfds ∧ sets.named c j ∧
      (fds.getD j ⟨-1, 0#16, 0#16⟩).revents &&& c.result ≠ 0#16 := named_results (by omega)
    have hturn : results sets (nfds + 1) fds c = if sets.named c nfds ∧
        (fds.getD nfds ⟨-1, 0#16, 0#16⟩).revents &&& c.result ≠ 0#16 then
          fdSet nfds (results sets nfds fds c) else results sets nfds fds c := by
      unfold results
      rw [List.range_succ, List.foldl_append]
      rfl
    rw [hturn]
    split_ifs with hset
    · rw [getLsbD_fdSet (by omega), ih]
      constructor
      · rintro (⟨hj, h⟩ | rfl)
        · exact ⟨by omega, h⟩
        · exact ⟨by omega, hset⟩
      · rintro ⟨hj, h⟩
        by_cases hlast : nfds = j
        · exact .inr hlast
        · exact .inl ⟨by omega, h⟩
    · rw [ih]
      constructor
      · rintro ⟨hj, h⟩
        exact ⟨by omega, h⟩
      · rintro ⟨hj, h⟩
        refine ⟨?_, h⟩
        by_contra hlast
        obtain rfl : j = nfds := by omega
        exact hset h

theorem revents_ready : sets.named c i ∧ revents w sets i &&& c.result ≠ 0#16 ↔
    sets.named c i ∧ Ready w sets c i := by
  refine and_congr_right fun hc => ?_
  have he := events_ne_zero_iff.mpr ⟨c, hc⟩
  unfold revents Ready
  rw [if_neg he]
  by_cases hw : w i = none
  · have hreported : reported w sets i = 0#64 := by simp [reported, hw]
    rw [if_pos hw, hreported]
    cases c <;> decide
  · rw [if_neg hw]

theorem Ready.reports (hc : sets.named c i) (h : Ready w sets c i) : reports w sets i := by
  have he := events_ne_zero_iff.mpr ⟨c, hc⟩
  have hreported : reported w sets i ≠ 0#64 := by
    intro hz
    unfold Ready at h
    rw [hz] at h
    exact h (BitVec.zero_and)
  simp [Select.reports, he, hreported]

/-- The sets that `pselect` returns after a scan. -/
def scanned (w : World) (nfds : ℕ) (sets : Sets) : Sets := fun c =>
  (sets c).map fun _ => results sets nfds (scan w ((List.range nfds).map (request sets))).1 c

theorem named_scanned (hn : nfds ≤ 1024) : (scanned w nfds sets).named c i = true ↔
    i < nfds ∧ sets.named c i ∧ Ready w sets c i := by
  have hset : (scanned w nfds sets).named c i = true ↔ (sets c).isSome ∧ i < nfds ∧
      sets.named c i ∧ revents w sets i &&& c.result ≠ 0#16 := by
    have hresult : (results sets nfds (scan w ((List.range nfds).map (request sets))).1 c).getLsbD
        i = true ↔ _ := named_results hn
    have hrevents : i < nfds → (((scan w ((List.range nfds).map (request sets))).1).getD i
        ⟨-1, 0#16, 0#16⟩).revents = revents w sets i := by
      intro hi
      rw [scan_requests, List.getD_eq_getElem _ _ (by simpa using hi)]
      simp
    show Option.any _ ((sets c).map _) = true ↔ _
    cases hs : sets c with
    | none => simp
    | some s =>
      simp only [Option.map_some, Option.any_some, Option.isSome_some, true_and]
      show BitVec.getLsbD _ _ = true ↔ _
      rw [hresult]
      exact and_congr_right fun hi => by rw [hrevents hi]
  rw [hset, revents_ready]
  constructor
  · rintro ⟨-, h⟩
    exact h
  · rintro ⟨hi, hc, h⟩
    refine ⟨?_, hi, hc, h⟩
    unfold Sets.named at hc
    cases hs : sets c with
    | none => simp [hs] at hc
    | some s => rfl

theorem bits_scanned (hn : nfds ≤ 1024) : bits (scanned w nfds sets c) =
    (List.range nfds).countP fun i => sets.named c i ∧ Ready w sets c i := by
  have hbits : bits (scanned w nfds sets c) = (List.range 1024).countP fun i =>
      (scanned w nfds sets).named c i := rfl
  rw [hbits, ← Nat.add_sub_cancel' hn, List.range_add, List.countP_append]
  have hbehind : ((List.range (1024 - nfds)).map (nfds + ·)).countP
      (fun i => (scanned w nfds sets).named c i) = 0 := by
    rw [List.countP_eq_zero]
    intro i hi h
    obtain ⟨j, -, rfl⟩ := List.mem_map.mp hi
    have := ((named_scanned hn).mp h).1
    omega
  rw [hbehind, Nat.add_zero]
  refine List.countP_congr ?_
  intro i hi
  rw [named_scanned hn]
  simp [List.mem_range.mp hi]

/-- The number of bits is that of `Balanced`. -/
theorem balanced_iff (hn : nfds ≤ 1024) : Balanced w nfds sets ↔
    (List.range nfds).countP (reports w sets) = totalBits (scanned w nfds sets) := by
  unfold Balanced totalBits
  rw [bits_scanned hn, bits_scanned hn, bits_scanned hn]

end Scan

/-! ## `pselect` -/

/-- A signal is pending that the temporary mask lets through. -/
def Interrupted (x : Thread) (sigmask : Option U64) : Prop :=
  ∃ mask, sigmask = some mask ∧ x.pendingSignals &&& ~~~mask ≠ 0#64

section Calls

variable {x : Thread} {nfds : ℕ} {sets result : Sets} {timeout : Option TimeSpec}
  {sigmask : Option U64} {earlier : List Round} {last : Round} {ret : ℤ}

theorem pselectImpl_cases {rounds : List Round} {r : Option (ℤ × Sets)} (hn : nfds ≤ 1024)
    (h : pselectImpl x nfds sets timeout sigmask rounds = .ok r) :
    Interrupted x sigmask ∧ r = some (-4, sets) ∨
    ¬Interrupted x sigmask ∧ r = (waitLoop (timeout.all fun t => !t.isZero) rounds
      ((List.range nfds).map (request sets))).map fun (ret, fds) =>
        if ret < 0 then (ret, sets) else (ret, fun c => (sets c).map fun _ =>
          results sets nfds fds c) := by
  unfold pselectImpl at h
  rw [if_neg (by omega)] at h
  obtain ⟨p, hppoll, rfl⟩ := bind_pure_ok h
  unfold ppollImpl at hppoll
  rw [if_neg (by simpa using hn)] at hppoll
  obtain ⟨y, hmask, hppoll⟩ := bind_ok hppoll
  have hinterrupted : (sigmask.isSome ∧ y.pendingSignals &&& ~~~y.signalMask ≠ 0#64) ↔
      Interrupted x sigmask := by
    unfold Interrupted
    cases sigmask with
    | none => simp
    | some mask =>
      unfold installMask at hmask
      split_ifs at hmask
      cases hmask
      simp
  have hcleared : ((List.range nfds).map (request sets)).map
      (fun p => { p with revents := 0#16 }) = (List.range nfds).map (request sets) := by
    rw [List.map_map]
    rfl
  rw [hcleared] at hppoll
  split_ifs at hppoll with hpending
  · cases hppoll
    exact .inl ⟨hinterrupted.mp hpending, rfl⟩
  · cases hppoll
    exact .inr ⟨fun hi => hpending (hinterrupted.mpr hi), rfl⟩

/-- What reports nothing is not ready. -/
theorem balanced_of_none {w : World} (h : (List.range nfds).countP (reports w sets) = 0) :
    Balanced w nfds sets := by
  have hnone : ∀ c, (List.range nfds).countP
      (fun i => decide (sets.named c i ∧ Ready w sets c i)) = 0 := by
    intro c
    have hle := List.countP_mono_left (l := List.range nfds)
      (p := fun i => decide (sets.named c i ∧ Ready w sets c i)) (q := reports w sets)
      (fun i _ hi => (of_decide_eq_true hi).2.reports (of_decide_eq_true hi).1)
    omega
  unfold Balanced
  simp only [hnone, h]

/-- A call after some rounds of waiting, in the scan after which it returns. -/
theorem pselectImpl_returns (hn : nfds ≤ 1024)
    (hwaits : earlier = [] ∨ pselectImpl x nfds sets timeout sigmask earlier = .ok none)
    (h : pselectImpl x nfds sets timeout sigmask (earlier ++ [last]) = .ok (some (ret, result))) :
    ret = -4 ∧ result = sets ∧ (Interrupted x sigmask ∨ Balanced last.world nfds sets) ∨
      ¬Interrupted x sigmask ∧ ret = (List.range nfds).countP (reports last.world sets) ∧
        result = scanned last.world nfds sets := by
  rcases pselectImpl_cases hn h with ⟨hi, hr⟩ | ⟨hi, hr⟩
  · cases hr
    exact .inl ⟨rfl, rfl, .inl hi⟩
  · obtain ⟨⟨ret', fds'⟩, hloop, heq⟩ := Option.map_eq_some_iff.mp hr.symm
    have hwaits' : earlier = [] ∨ waitLoop (timeout.all fun t => !t.isZero) earlier
        ((List.range nfds).map (request sets)) = none := by
      refine hwaits.imp id fun hw => ?_
      rcases pselectImpl_cases hn hw with ⟨-, hsome⟩ | ⟨-, hnone⟩
      · cases hsome
      · exact Option.map_eq_none_iff.mp hnone.symm
    obtain ⟨hfds, hret⟩ := waitLoop_returns hwaits' hloop
    have hcount : (scan last.world ((List.range nfds).map (request sets))).2 =
        (List.range nfds).countP (reports last.world sets) := by rw [scan_requests]
    rw [hcount] at hret
    rcases hret with rfl | ⟨rfl, hzero⟩
    all_goals simp only at heq
    · rw [if_neg (by omega)] at heq
      cases heq
      exact .inr ⟨hi, rfl, by rw [hfds]; rfl⟩
    · rw [if_pos (by omega)] at heq
      cases heq
      exact .inl ⟨rfl, rfl, .inr (balanced_of_none hzero)⟩

/-- **Main theorem.** A call that has waited in some rounds and returns in the last one agrees with
    the state of the descriptors if and only if no descriptor that it names is closed, and a signal
    interrupts it at once or, in the last scan, the descriptors that report something are as many as
    those that are ready, each counted in every set. -/
theorem pselect_agrees_iff (hn : nfds ≤ 1024)
    (hwaits : earlier = [] ∨ pselectImpl x nfds sets timeout sigmask earlier = .ok none)
    (h : pselectImpl x nfds sets timeout sigmask (earlier ++ [last]) = .ok (some (ret, result))) :
    Agrees (earlier.headD last).world last.world nfds sets ret result ↔
      (∀ i, Requested sets nfds i → (earlier.headD last).world i ≠ none) ∧
        (Interrupted x sigmask ∨ Balanced last.world nfds sets) := by
  rcases pselectImpl_returns hn hwaits h with ⟨rfl, rfl, hok⟩ | ⟨hi, rfl, rfl⟩
  · constructor
    · intro hagrees
      refine ⟨fun i hreq hclosed => ?_, hok⟩
      have := (hagrees.closed ⟨i, hreq, hclosed⟩).1
      omega
    · rintro ⟨hopen, -⟩
      exact ⟨fun hpos => by omega, fun hpos => by omega,
        fun ⟨i, hreq, hclosed⟩ => absurd hclosed (hopen i hreq)⟩
  · rw [balanced_iff hn]
    constructor
    · intro hagrees
      refine ⟨fun i hreq hclosed => ?_, .inr ?_⟩
      · have := (hagrees.closed ⟨i, hreq, hclosed⟩).1
        omega
      · have := hagrees.number (by omega)
        omega
    · rintro ⟨hopen, hbalanced⟩
      have hnumber := hbalanced.resolve_left hi
      exact ⟨fun _ c i => named_scanned hn, fun _ => by rw [hnumber],
        fun ⟨i, hreq, hclosed⟩ => absurd hclosed (hopen i hreq)⟩

end Calls

/-- Every descriptor can be read and written at once. -/
def bothReady : World := fun _ => some fun _ => 5#64

/-- Descriptor 0 is to be read and descriptor 1 to be written. -/
def oneEach : Sets
  | .read => some 1#1024
  | .write => some 2#1024
  | .except => none

theorem pselect_agrees_oneEach :
    ∃ result : Sets, Agrees bothReady bothReady 2 oneEach 2 result := by
  obtain ⟨r, hr, hret⟩ := exists_ok_of_map (show (pselectImpl {} 2 oneEach none none
    [⟨bothReady, .interrupted⟩]).map (fun r => r.map Prod.fst) = .ok (some 2) by decide +kernel)
  obtain ⟨⟨ret, result⟩, rfl, rfl⟩ := Option.map_eq_some_iff.mp hret
  have hrun : pselectImpl {} 2 oneEach none none ([] ++ [⟨bothReady, .interrupted⟩]) =
      .ok (some (2, result)) := hr
  refine ⟨result, (pselect_agrees_iff (by omega) (.inl rfl) hrun).mpr
    ⟨fun _ _ => by simp [bothReady], .inr ?_⟩⟩
  decide +kernel

/-- Descriptor 0 is to be read and written. -/
def bothSets : Sets
  | .read => some 1#1024
  | .write => some 1#1024
  | .except => none

/-- `pselect` returns 1, and two bits are set. -/
theorem pselect_counts_descriptors : ¬∀ (x : Thread) (nfds : ℕ) (sets result : Sets)
    (timeout : Option TimeSpec) (sigmask : Option U64) (last : Round) (ret : ℤ), nfds ≤ 1024 →
    pselectImpl x nfds sets timeout sigmask [last] = .ok (some (ret, result)) →
      Agrees last.world last.world nfds sets ret result := by
  intro h
  obtain ⟨r, hr, hbits⟩ := exists_ok_of_map (show (pselectImpl {} 1 bothSets none none
    [⟨bothReady, .interrupted⟩]).map (fun r => r.map fun p => (p.1, totalBits p.2)) =
      .ok (some (1, 2)) by decide +kernel)
  obtain ⟨⟨ret, result⟩, rfl, heq⟩ := Option.map_eq_some_iff.mp hbits
  obtain ⟨rfl, htwo⟩ := Prod.mk.inj heq
  have hagrees := h _ _ _ _ _ _ _ _ (by omega) hr
  have hnumber : (1 : ℤ) = totalBits result := hagrees.number (by omega)
  have htwo : totalBits result = 2 := htwo
  omega

end Fishix.Fs.Select
