import Fishix.Common.HashTable
import Fishix.Net.Basic

/-!
# ARP lookups

Model of `arp_lookup` and of the replies of `arp_process` on one interface (dev/net.cpp:49-65,
91-104), with the `RequestCallback` and the `RootAwaitable`s of the interface
(klib/async.hpp:96-173). The lookups are coroutines that go on in any order. There is one callback for all of them: a lookup
that waits takes it from the one before, and it is never given back. A reply invokes it whatever
the address is.

* `step_iff`: what has to be so before a step for the lookups to be resolved as they should.
* `arp_resolves_iff`: the runs in which they are.
-/

namespace Fishix.Net

/-- What `arp_lookup` returns, with `*result_mac`. -/
abbrev LookupResult := Except NetErrno Mac

/-- Where a call of `arp_lookup` is. -/
inductive LookupPlace
  | idle
  /-- In `arp_send`. -/
  | sending
  /-- The `RootAwaitable` is made (line 97); `has_result`. -/
  | constructed (hasResult : Bool)
  /-- `await_ready` has returned false; `has_result`. -/
  | unready (hasResult : Bool)
  /-- `await_suspend` has stored the handle. -/
  | suspended
  | done (result : LookupResult)
  deriving DecidableEq

/-- The lookup has been at the callback. -/
def LookupPlace.Registered : LookupPlace → Prop
  | .idle | .sending => False
  | _ => True

abbrev LookupId := ℕ

structure Lookup where
  targetIp : Ipv4 := 0#32
  place : LookupPlace := .idle

/-- The ARP state of an interface, and the replies that it received, the last one in front. `broken`
    is set when the awaitable of a finished lookup is written to. -/
structure ArpState where
  arpCache : HashTable Ipv4 Mac := .create 16
  arpRequestCallback : Option LookupId := none
  lookup : LookupId → Lookup := fun _ => {}
  replies : List (Ipv4 × Mac) := []
  broken : Bool := false

inductive ArpOp
  /-- `arp_lookup` is called. -/
  | start (l : LookupId) (targetIp : Ipv4)
  /-- The request is sent. -/
  | sent (l : LookupId)
  /-- `await_ready`. -/
  | ready (l : LookupId)
  /-- `await_suspend`. -/
  | suspend (l : LookupId)
  /-- `arp_process` has a reply for this interface. -/
  | reply (ip : Ipv4) (mac : Mac)

namespace ArpState

variable (hash : Ipv4 → U64) (s : ArpState) (l : LookupId)

def place : LookupPlace := (s.lookup l).place

def targetIp : Ipv4 := (s.lookup l).targetIp

def goto (place : LookupPlace) : ArpState :=
  { s with lookup := Function.update s.lookup l { s.lookup l with place } }

/-- The start of `arp_lookup` (dev/net.cpp:91-96). -/
def arpLookup (targetIp : Ipv4) : ArpState :=
  let s := { s with lookup := Function.update s.lookup l { targetIp } }
  match s.arpCache.find hash targetIp with
  | some mac => s.goto l (.done (.ok mac))
  | none => s.goto l .sending

/-- The end of `arp_lookup` (dev/net.cpp:98-103). -/
def resume : ArpState :=
  match s.arpCache.find hash (s.targetIp l) with
  | some mac => s.goto l (.done (.ok mac))
  | none => s.goto l (.done (.error .netUnreachable))

/-- `callback_handler` on the awaitable of a lookup (klib/async.hpp:119-125). -/
def callbackHandler : ArpState :=
  match s.place l with
  | .constructed _ => s.goto l (.constructed true)
  | .unready _ => s.goto l (.unready true)
  | .suspended => s.resume hash l
  | _ => { s with broken := true }

/-- A reply (dev/net.cpp:59-63). -/
def arpReply (ip : Ipv4) (mac : Mac) : ArpState :=
  let s := { s with arpCache := s.arpCache.emplace hash ip mac, replies := (ip, mac) :: s.replies }
  match s.arpRequestCallback with
  | some l => s.callbackHandler hash l
  | none => s

/-- A lookup that is not there does not go on. -/
def step : ArpOp → ArpState
  | .start l targetIp =>
    match s.place l with
    | .idle => s.arpLookup hash l targetIp
    | _ => s
  | .sent l =>
    match s.place l with
    | .sending => { s with arpRequestCallback := some l }.goto l (.constructed false)
    | _ => s
  | .ready l =>
    match s.place l with
    | .constructed true => s.resume hash l
    | .constructed false => s.goto l (.unready false)
    | _ => s
  | .suspend l =>
    match s.place l with
    | .unready _ => s.goto l .suspended
    | _ => s
  | .reply ip mac => s.arpReply hash ip mac

end ArpState

/-! ## What lookups are to be -/

namespace ArpState

variable (hash : Ipv4 → U64)

/-- The address of the last reply for `ip`. -/
def lastReply (s : ArpState) (ip : Ipv4) : Option Mac :=
  (s.replies.find? (·.1 = ip)).map Prod.snd

def Done (s : ArpState) (l : LookupId) : Prop := ∃ r, s.place l = .done r

/-- What a step is to do to the lookups. -/
structure StepResolves (s : ArpState) (o : ArpOp) (s' : ArpState) : Prop where
  /-- A lookup that completes yields the last reply for its address. -/
  completes : ∀ l r, ¬s.Done l → s'.place l = .done r →
    ∃ mac, s'.lastReply (s'.targetIp l) = some mac ∧ r = .ok mac
  /-- A reply for another address does not complete a lookup. -/
  other : ∀ ip mac, o = .reply ip mac → ∀ l, s.targetIp l ≠ ip → s'.Done l → s.Done l
  /-- A reply for the address completes a lookup that is suspended. -/
  resumed : ∀ ip mac, o = .reply ip mac → ∀ l, s.targetIp l = ip → s.place l = .suspended →
    s'.Done l
  /-- No lookup is suspended after a reply for its address. -/
  waiting : ∀ l, s'.place l = .suspended → s'.lastReply (s'.targetIp l) = none
  broken : s'.broken = false

/-- Every step of the run resolves the lookups. -/
def Resolves (s : ArpState) : List ArpOp → Prop
  | [] => True
  | o :: ops => s.StepResolves o (s.step hash o) ∧ (s.step hash o).Resolves ops

/-! ## When they are -/

/-- A reply comes when the callback is of no lookup or of one that has not completed, and that one
    is for this address if it is suspended; no other lookup for the address is suspended. A lookup
    whose callback is invoked before `await_ready` has had a reply by then, and one that suspends
    has had none. -/
def Allows (s : ArpState) : ArpOp → Prop
  | .reply ip _ =>
    (∀ l, s.arpRequestCallback = some l →
      ¬s.Done l ∧ (s.place l = .suspended → s.targetIp l = ip)) ∧
    ∀ l, s.place l = .suspended → s.targetIp l = ip → s.arpRequestCallback = some l
  | .ready l => s.place l = .constructed true → s.lastReply (s.targetIp l) ≠ none
  | .suspend l => ∀ b, s.place l = .unready b → s.lastReply (s.targetIp l) = none
  | _ => True

def AllowsAll (s : ArpState) : List ArpOp → Prop
  | [] => True
  | o :: ops => s.Allows o ∧ (s.step hash o).AllowsAll ops

variable {hash : Ipv4 → U64} {s : ArpState} {o : ArpOp} {l : LookupId} {ip : Ipv4} {mac : Mac}
  {p : LookupPlace}

/-! ## One step -/

theorem place_goto (l' : LookupId) :
    (s.goto l p).place l' = if l' = l then p else s.place l' := by
  unfold goto place
  simp only [Function.update_apply]
  split_ifs <;> rfl

theorem targetIp_goto (l' : LookupId) : (s.goto l p).targetIp l' = s.targetIp l' := by
  unfold goto targetIp
  simp only [Function.update_apply]
  split_ifs with h
  · rw [h]
  · rfl

/-- What holds throughout the runs in which the lookups are resolved. -/
structure Sound (hash : Ipv4 → U64) (s : ArpState) : Prop where
  table : 0 < s.arpCache.table.length
  find : ∀ ip, s.arpCache.find hash ip = s.lastReply ip
  waiting : ∀ l, s.place l = .suspended → s.lastReply (s.targetIp l) = none
  callback : ∀ l, s.arpRequestCallback = some l → (s.place l).Registered
  broken : s.broken = false

theorem sound_start : Sound hash {} where
  table := by decide
  find _ := HashTable.find_create 16
  waiting _ := nofun
  callback _ := nofun
  broken := rfl

section Goto

variable (h : s.Sound hash)
include h

theorem Sound.goto (hwaiting : p = .suspended → s.lastReply (s.targetIp l) = none)
    (hcallback : s.arpRequestCallback = some l → p.Registered) : (s.goto l p).Sound hash where
  table := h.table
  find := h.find
  waiting l' hplace := by
    rw [place_goto] at hplace
    show s.lastReply ((s.goto l p).targetIp l') = none
    rw [targetIp_goto]
    split_ifs at hplace with hl
    · exact hl ▸ hwaiting hplace
    · exact h.waiting l' hplace
  callback l' hl' := by
    rw [place_goto]
    split_ifs with hl
    · exact hcallback (hl ▸ hl')
    · exact h.callback l' hl'
  broken := h.broken

/-- A lookup goes on without a reply. -/
theorem Sound.resolves_goto (ho : ∀ ip mac, o ≠ .reply ip mac)
    (hdone : ∀ r, p = .done r → ∃ mac, s.lastReply (s.targetIp l) = some mac ∧ r = .ok mac)
    (hwaiting : p = .suspended → s.lastReply (s.targetIp l) = none) :
    s.StepResolves o (s.goto l p) where
  completes l' r hnot hr := by
    rw [place_goto] at hr
    show ∃ mac, s.lastReply ((s.goto l p).targetIp l') = some mac ∧ r = .ok mac
    rw [targetIp_goto]
    split_ifs at hr with hl
    · exact hl ▸ hdone r hr
    · exact absurd ⟨r, hr⟩ hnot
  other ip mac hreply := absurd hreply (ho ip mac)
  resumed ip mac hreply := absurd hreply (ho ip mac)
  waiting l' hplace := by
    rw [place_goto] at hplace
    show s.lastReply ((s.goto l p).targetIp l') = none
    rw [targetIp_goto]
    split_ifs at hplace with hl
    · exact hl ▸ hwaiting hplace
    · exact h.waiting l' hplace
  broken := h.broken

theorem Sound.resolves_self (ho : ∀ ip mac, o ≠ .reply ip mac) : s.StepResolves o s where
  completes _ r hnot hr := absurd ⟨r, hr⟩ hnot
  other ip mac hreply := absurd hreply (ho ip mac)
  resumed ip mac hreply := absurd hreply (ho ip mac)
  waiting := h.waiting
  broken := h.broken

theorem Sound.resume_eq : s.resume hash l = s.goto l (.done
    ((s.lastReply (s.targetIp l)).elim (.error .netUnreachable) .ok)) := by
  unfold resume
  rw [h.find]
  cases s.lastReply (s.targetIp l) <;> rfl

end Goto

/-! ### Replies -/

section Reply

variable (h : s.Sound hash)

/-- The reply is stored. -/
abbrev stored (hash : Ipv4 → U64) (s : ArpState) (ip : Ipv4) (mac : Mac) : ArpState :=
  { s with arpCache := s.arpCache.emplace hash ip mac, replies := (ip, mac) :: s.replies }

/-- A reply is the last one for its address. -/
theorem lastReply_of_replies {s' : ArpState} (h : s'.replies = (ip, mac) :: s.replies)
    (ip' : Ipv4) : s'.lastReply ip' = if ip' = ip then some mac else s.lastReply ip' := by
  unfold lastReply
  rw [h]
  by_cases hip : ip' = ip
  · rw [if_pos hip, List.find?_cons_of_pos (by simpa using hip.symm)]
    rfl
  · rw [if_neg hip, List.find?_cons_of_neg (by simpa using Ne.symm hip)]

theorem lastReply_stored (ip' : Ipv4) : (s.stored hash ip mac).lastReply ip' =
    if ip' = ip then some mac else s.lastReply ip' :=
  lastReply_of_replies rfl ip'

include h

/-- The lookups that wait for this address are resolved, and nothing else changes. -/
theorem Sound.resolves_reply {s' : ArpState} (hreplies : s'.replies = (ip, mac) :: s.replies)
    (htarget : ∀ l, s'.targetIp l = s.targetIp l) (hbroken : s'.broken = false)
    (hwaiting : ∀ l, s.place l = .suspended → s.targetIp l = ip → s'.place l = .done (.ok mac))
    (hrest : ∀ l, ¬(s.place l = .suspended ∧ s.targetIp l = ip) →
      (∀ r, s'.place l = .done r → s.place l = .done r) ∧
        (s'.place l = .suspended → s.place l = .suspended)) :
    s.StepResolves (.reply ip mac) s' := by
  have hlast := lastReply_of_replies hreplies
  constructor
  · intro l r hnot hr
    by_cases hl : s.place l = .suspended ∧ s.targetIp l = ip
    · rw [hwaiting l hl.1 hl.2] at hr
      refine ⟨mac, ?_, (LookupPlace.done.inj hr).symm⟩
      rw [hlast, htarget, if_pos hl.2]
    · exact absurd ⟨r, (hrest l hl).1 r hr⟩ hnot
  · rintro ip' mac' hreply l hne ⟨r, hr⟩
    cases hreply
    exact ⟨r, (hrest l fun hl => hne hl.2).1 r hr⟩
  · intro ip' mac' hreply l hip hplace
    cases hreply
    exact ⟨_, hwaiting l hplace hip⟩
  · intro l hplace
    by_cases hl : s.place l = .suspended ∧ s.targetIp l = ip
    · rw [hwaiting l hl.1 hl.2] at hplace
      cases hplace
    · have hsuspended := (hrest l hl).2 hplace
      rw [hlast, htarget, if_neg fun hip => hl ⟨hsuspended, hip⟩]
      exact h.waiting l hsuspended
  · exact hbroken

theorem Sound.find_stored (ip' : Ipv4) :
    (s.stored hash ip mac).arpCache.find hash ip' = (s.stored hash ip mac).lastReply ip' := by
  rw [lastReply_stored, HashTable.find_emplace h.table, h.find]

theorem Sound.resume_stored : (s.stored hash ip mac).resume hash l =
    (s.stored hash ip mac).goto l (.done (if s.targetIp l = ip then .ok mac else
      (s.lastReply (s.targetIp l)).elim (.error .netUnreachable) .ok)) := by
  unfold resume
  rw [h.find_stored]
  show (match (s.stored hash ip mac).lastReply (s.targetIp l) with
    | some mac' => (s.stored hash ip mac).goto l (.done (.ok mac'))
    | none => (s.stored hash ip mac).goto l (.done (.error .netUnreachable))) = _
  rw [lastReply_stored]
  split_ifs
  · rfl
  · cases s.lastReply (s.targetIp l) <;> rfl

theorem Sound.of_reply {s' : ArpState} (hcache : s'.arpCache = s.arpCache.emplace hash ip mac)
    (hreplies : s'.replies = (ip, mac) :: s.replies)
    (hcallback : s'.arpRequestCallback = s.arpRequestCallback)
    (hregistered : ∀ l, (s.place l).Registered → (s'.place l).Registered)
    (hresolves : s.StepResolves (.reply ip mac) s') : s'.Sound hash where
  table := by
    rw [hcache]
    simpa [HashTable.emplace] using h.table
  find ip' := by
    rw [hcache, HashTable.find_emplace h.table, h.find, lastReply_of_replies hreplies]
  waiting := hresolves.waiting
  callback l hl := hregistered l (h.callback l (hcallback ▸ hl))
  broken := hresolves.broken

theorem Sound.reply_iff_none (s' : ArpState)
    (hreplies : s'.replies = (ip, mac) :: s.replies) (htarget : ∀ l, s'.targetIp l = s.targetIp l)
    (hbroken : s'.broken = false)
    (hplace : ∀ l, (s.place l = .suspended → s'.place l = .suspended) ∧
      (∀ r, s'.place l = .done r → s.place l = .done r) ∧
        (s'.place l = .suspended → s.place l = .suspended)) :
    s.StepResolves (.reply ip mac) s' ↔ ∀ l, s.place l = .suspended → s.targetIp l ≠ ip := by
  constructor
  · intro hresolves l hsuspended hip
    obtain ⟨r, hr⟩ := hresolves.resumed ip mac rfl l hip hsuspended
    rw [(hplace l).1 hsuspended] at hr
    cases hr
  · intro hnone
    exact h.resolves_reply hreplies htarget hbroken
      (fun l hsuspended hip => absurd hip (hnone l hsuspended)) fun l _ => (hplace l).2

theorem Sound.arpReply_iff :
    (s.StepResolves (.reply ip mac) (s.arpReply hash ip mac) ↔ s.Allows (.reply ip mac)) ∧
      (s.Allows (.reply ip mac) → (s.arpReply hash ip mac).Sound hash) := by
  cases hcallback : s.arpRequestCallback with
  | none =>
    have hreply : s.arpReply hash ip mac = s.stored hash ip mac := by
      show (match s.arpRequestCallback with
        | some l => (s.stored hash ip mac).callbackHandler hash l
        | none => s.stored hash ip mac) = _
      rw [hcallback]
    have hiff : s.StepResolves (.reply ip mac) (s.stored hash ip mac) ↔
        s.Allows (.reply ip mac) := by
      refine (h.reply_iff_none (s.stored hash ip mac) rfl (fun _ => rfl) h.broken
        fun _ => ⟨id, fun _ => id, id⟩).trans ?_
      simp only [Allows, hcallback, reduceCtorEq, false_implies, implies_true, true_and, imp_false,
        ne_eq]
    rw [hreply]
    exact ⟨hiff, fun hallows => h.of_reply rfl rfl rfl (fun _ => id) (hiff.mpr hallows)⟩
  | some c =>
    have hreply : s.arpReply hash ip mac = (s.stored hash ip mac).callbackHandler hash c := by
      show (match s.arpRequestCallback with
        | some l => (s.stored hash ip mac).callbackHandler hash l
        | none => s.stored hash ip mac) = _
      rw [hcallback]
    have hregistered := h.callback c hcallback
    -- the awaitable of the callback is not suspended, and is told that there is a result
    have hearly : ∀ p : LookupPlace, p ≠ .suspended → (∀ r, p ≠ .done r) → p.Registered →
        s.place c ≠ .suspended → (∀ r, s.place c ≠ .done r) →
        s.arpReply hash ip mac = (s.stored hash ip mac).goto c p →
        (s.StepResolves (.reply ip mac) (s.arpReply hash ip mac) ↔ s.Allows (.reply ip mac)) ∧
          (s.Allows (.reply ip mac) → (s.arpReply hash ip mac).Sound hash) := by
      intro p hsuspended hdone hp hcsuspended hcdone hgoto
      have hiff : s.StepResolves (.reply ip mac) ((s.stored hash ip mac).goto c p) ↔
          s.Allows (.reply ip mac) := by
        refine (h.reply_iff_none ((s.stored hash ip mac).goto c p) rfl targetIp_goto h.broken
          fun l => ?_).trans ?_
        swap
        · constructor
          · intro hnone
            refine ⟨fun l hl => ?_, fun l hl hip => absurd hip (hnone l hl)⟩
            rw [hcallback] at hl
            obtain rfl := Option.some.inj hl
            exact ⟨fun ⟨r, hr⟩ => hcdone r hr, fun hc => absurd hc hcsuspended⟩
          · intro hallows l hl hip
            have hlc := hallows.2 l hl hip
            rw [hcallback] at hlc
            exact hcsuspended (Option.some.inj hlc ▸ hl)
        · rw [place_goto]
          split_ifs with hl
          · rw [hl]
            exact ⟨fun hc => absurd hc hcsuspended, fun r hr => absurd hr (hdone r),
              fun hp => absurd hp hsuspended⟩
          · exact ⟨id, fun _ => id, id⟩
      rw [hgoto]
      refine ⟨hiff, fun hallows => h.of_reply rfl rfl rfl (fun l hl => ?_) (hiff.mpr hallows)⟩
      rw [place_goto]
      split_ifs
      · exact hp
      · exact hl
    cases hplace : s.place c with
    | idle | sending =>
      rw [hplace] at hregistered
      exact hregistered.elim
    | constructed b =>
      refine hearly (.constructed true) nofun (fun _ => nofun) trivial (by rw [hplace]; exact nofun)
        (fun _ => by rw [hplace]; exact nofun) (hreply.trans ?_)
      unfold callbackHandler
      rw [show (s.stored hash ip mac).place c = _ from hplace]
    | unready b =>
      refine hearly (.unready true) nofun (fun _ => nofun) trivial (by rw [hplace]; exact nofun)
        (fun _ => by rw [hplace]; exact nofun) (hreply.trans ?_)
      unfold callbackHandler
      rw [show (s.stored hash ip mac).place c = _ from hplace]
    | done r =>
      have hbroken : (s.arpReply hash ip mac).broken = true := by
        rw [hreply]
        unfold callbackHandler
        rw [show (s.stored hash ip mac).place c = _ from hplace]
      have hnot : ¬s.Allows (.reply ip mac) := fun hallows => (hallows.1 c hcallback).1 ⟨r, hplace⟩
      refine ⟨iff_of_false (fun hresolves => ?_) hnot, fun hallows => absurd hallows hnot⟩
      exact absurd (hresolves.broken.symm.trans hbroken) nofun
    | suspended =>
      have hresume : s.arpReply hash ip mac = (s.stored hash ip mac).goto c (.done
          (if s.targetIp c = ip then .ok mac else
            (s.lastReply (s.targetIp c)).elim (.error .netUnreachable) .ok)) := by
        rw [hreply, ← h.resume_stored]
        unfold callbackHandler
        rw [show (s.stored hash ip mac).place c = _ from hplace]
      have hiff : s.StepResolves (.reply ip mac) (s.arpReply hash ip mac) ↔
          s.Allows (.reply ip mac) := by
        rw [hresume]
        constructor
        · intro hresolves
          refine ⟨fun l hl => ?_, fun l hl hip => ?_⟩
          · rw [hcallback] at hl
            obtain rfl := Option.some.inj hl
            refine ⟨fun ⟨r, hr⟩ => (nomatch hplace.symm.trans hr), fun _ => ?_⟩
            by_contra hip
            obtain ⟨r, hr⟩ := hresolves.other ip mac rfl c hip
              ⟨_, (place_goto c).trans (if_pos rfl)⟩
            cases hplace.symm.trans hr
          · by_contra hlc
            obtain ⟨r, hr⟩ := hresolves.resumed ip mac rfl l hip hl
            rw [place_goto, if_neg (show ¬l = c from fun heq => hlc (heq ▸ hcallback))] at hr
            cases hl.symm.trans hr
        · intro hallows
          have hip := (hallows.1 c hcallback).2 hplace
          have honly : ∀ l, s.place l = .suspended → s.targetIp l = ip → l = c := fun l hl hip =>
            (Option.some.inj (hcallback.symm.trans (hallows.2 l hl hip))).symm
          refine h.resolves_reply rfl targetIp_goto h.broken (fun l hl hlip => ?_) fun l hl => ?_
          · rw [place_goto, if_pos (honly l hl hlip), if_pos hip]
          · rw [place_goto, if_neg (show ¬l = c from fun heq => hl ⟨heq ▸ hplace, heq ▸ hip⟩)]
            exact ⟨fun _ => id, id⟩
      refine ⟨hiff, fun hallows => ?_⟩
      have hresolves := hiff.mpr hallows
      rw [hresume] at hresolves ⊢
      refine h.of_reply rfl rfl rfl (fun l hl => ?_) hresolves
      rw [place_goto]
      by_cases heq : l = c
      · rw [if_pos heq]
        trivial
      · rw [if_neg heq]
        exact hl

end Reply

/-- What has to be so before a step for the lookups to be resolved. -/
theorem Sound.step_iff (h : s.Sound hash) :
    (s.StepResolves o (s.step hash o) ↔ s.Allows o) ∧
      (s.Allows o → (s.step hash o).Sound hash) := by
  have hself : s.step hash o = s → (∀ ip mac, o ≠ .reply ip mac) → s.Allows o →
      (s.StepResolves o (s.step hash o) ↔ s.Allows o) ∧
        (s.Allows o → (s.step hash o).Sound hash) := by
    intro hstep ho hallows
    rw [hstep]
    exact ⟨iff_of_true (h.resolves_self ho) hallows, fun _ => h⟩
  have hgoto : ∀ l p, s.step hash o = s.goto l p → (∀ ip mac, o ≠ .reply ip mac) →
      (∀ r, p = .done r → ∃ mac, s.lastReply (s.targetIp l) = some mac ∧ r = .ok mac) →
      (p = .suspended → s.lastReply (s.targetIp l) = none) → p.Registered → s.Allows o →
      (s.StepResolves o (s.step hash o) ↔ s.Allows o) ∧
        (s.Allows o → (s.step hash o).Sound hash) := by
    intro l p hstep ho hdone hwaiting hregistered hallows
    rw [hstep]
    exact ⟨iff_of_true (h.resolves_goto ho hdone hwaiting) hallows,
      fun _ => h.goto hwaiting fun _ => hregistered⟩
  cases o with
  | start l targetIp =>
    cases hplace : s.place l with
    | idle =>
      -- the lookup that is made has an address and nothing else
      let s1 : ArpState := { s with lookup := Function.update s.lookup l { targetIp } }
      have hsame : ∀ l', s1.place l' = s.place l' := by
        intro l'
        show (Function.update s.lookup l { targetIp } l').place = s.place l'
        by_cases heq : l' = l
        · rw [heq, Function.update_self, hplace]
        · rw [Function.update_of_ne heq]
          rfl
      have hs1 : s1.Sound hash := by
        refine ⟨h.table, h.find, fun l' hl' => ?_, fun l' hl' => ?_, h.broken⟩
        · rw [hsame] at hl'
          have heq : l' ≠ l := fun heq => nomatch (heq ▸ hplace).symm.trans hl'
          show s.lastReply (Function.update s.lookup l { targetIp } l').targetIp = none
          rw [Function.update_of_ne heq]
          exact h.waiting l' hl'
        · rw [hsame]
          exact h.callback l' hl'
      have htarget : s1.targetIp l = targetIp :=
        congrArg Lookup.targetIp (Function.update_self l _ s.lookup)
      have hstep : s.step hash (.start l targetIp) = s1.goto l
          ((s.lastReply targetIp).elim .sending fun mac => .done (.ok mac)) := by
        simp only [step, hplace]
        show (match s.arpCache.find hash targetIp with
          | some mac => s1.goto l (.done (.ok mac))
          | none => s1.goto l .sending) = _
        rw [h.find]
        cases s.lastReply targetIp <;> rfl
      rw [hstep]
      have hresolves : ∀ p, (∀ r, p = .done r → ∃ mac, s.lastReply targetIp = some mac ∧
          r = .ok mac) → p ≠ .suspended →
            s.StepResolves (.start l targetIp) (s1.goto l p) := by
        intro p hdone hp
        have hgo : s1.StepResolves (.start l targetIp) (s1.goto l p) :=
          hs1.resolves_goto (fun _ _ => nofun) (fun r hr => htarget ▸ hdone r hr)
            fun hr => absurd hr hp
        refine ⟨fun l' r hnot => hgo.completes l' r ?_, fun _ _ => nofun, fun _ _ => nofun,
          hgo.waiting, hgo.broken⟩
        rintro ⟨r', hr'⟩
        exact hnot ⟨r', (hsame l').symm.trans hr'⟩
      have hcallback : s1.arpRequestCallback ≠ some l := by
        intro hl
        have hregistered := h.callback l hl
        rw [hplace] at hregistered
        exact hregistered
      cases hlast : s.lastReply targetIp with
      | none =>
        exact ⟨iff_of_true (hresolves _ nofun nofun) trivial,
          fun _ => hs1.goto nofun fun hl => absurd hl hcallback⟩
      | some mac =>
        refine ⟨iff_of_true (hresolves _ (fun r hr => ⟨mac, hlast, ?_⟩) nofun) trivial,
          fun _ => hs1.goto nofun fun hl => absurd hl hcallback⟩
        exact (LookupPlace.done.inj hr).symm
    | _ => exact hself (by simp only [step, hplace]) (fun _ _ => nofun) trivial
  | sent l =>
    cases hplace : s.place l with
    | sending =>
      have hstep : s.step hash (.sent l) =
          { s.goto l (.constructed false) with arpRequestCallback := some l } := by
        simp only [step, hplace]
        rfl
      have hgo : s.StepResolves (.sent l) (s.goto l (.constructed false)) :=
        h.resolves_goto (fun _ _ => nofun) nofun nofun
      have hsound : (s.goto l (.constructed false)).Sound hash := h.goto nofun fun _ => trivial
      rw [hstep]
      refine ⟨iff_of_true ⟨hgo.completes, hgo.other, hgo.resumed, hgo.waiting, hgo.broken⟩ trivial,
        fun _ => ⟨hsound.table, hsound.find, hsound.waiting, fun l' hl' => ?_, hsound.broken⟩⟩
      show ((s.goto l (.constructed false)).place l').Registered
      rw [← Option.some.inj hl', place_goto, if_pos rfl]
      trivial
    | _ => exact hself (by simp only [step, hplace]) (fun _ _ => nofun) trivial
  | ready l =>
    have hallows : (∀ b, s.place l ≠ .constructed b) → s.Allows (.ready l) :=
      fun hne hb => absurd hb (hne true)
    cases hplace : s.place l with
    | constructed b =>
      cases b with
      | false =>
        exact hgoto l (.unready false) (by simp only [step, hplace]) (fun _ _ => nofun)
          (fun _ => nofun) nofun trivial fun hb => nomatch hplace.symm.trans hb
      | true =>
        have hstep : s.step hash (.ready l) = s.resume hash l := by simp only [step, hplace]
        rw [h.resume_eq] at hstep
        cases hlast : s.lastReply (s.targetIp l) with
        | none =>
          -- the callback was invoked by a reply for another address
          rw [hlast] at hstep
          have hnot : ¬s.Allows (.ready l) := fun hallows => hallows hplace hlast
          refine ⟨iff_of_false (fun hresolves => ?_) hnot, fun hallows => absurd hallows hnot⟩
          have hdone : (s.step hash (.ready l)).place l = .done (.error .netUnreachable) := by
            rw [hstep, place_goto, if_pos rfl]
            rfl
          obtain ⟨mac, -, hmac⟩ := hresolves.completes l _
            (fun ⟨r, hr⟩ => (nomatch hplace.symm.trans hr)) hdone
          cases hmac
        | some mac =>
          rw [hlast] at hstep
          refine hgoto l _ hstep (fun _ _ => nofun) (fun r hr => ⟨mac, hlast, ?_⟩) nofun trivial
            fun _ hnone => nomatch hlast.symm.trans hnone
          exact (LookupPlace.done.inj hr).symm
    | _ =>
      exact hself (by simp only [step, hplace]) (fun _ _ => nofun)
        (hallows (by rw [hplace]; exact fun _ => nofun))
  | suspend l =>
    cases hplace : s.place l with
    | unready b =>
      have hstep : s.step hash (.suspend l) = s.goto l .suspended := by simp only [step, hplace]
      by_cases hlast : s.lastReply (s.targetIp l) = none
      · exact hgoto l _ hstep (fun _ _ => nofun) nofun (fun _ => hlast) trivial fun _ _ => hlast
      · have hnot : ¬s.Allows (.suspend l) := fun hallows => hlast (hallows b hplace)
        refine ⟨iff_of_false (fun hresolves => ?_) hnot, fun hallows => absurd hallows hnot⟩
        rw [hstep] at hresolves
        have hwaiting := hresolves.waiting l ((place_goto l).trans (if_pos rfl))
        rw [targetIp_goto] at hwaiting
        exact hlast hwaiting
    | _ =>
      exact hself (by simp only [step, hplace]) (fun _ _ => nofun)
        fun _ hb => nomatch hplace.symm.trans hb
  | reply ip mac => exact h.arpReply_iff

theorem Sound.resolves_iff (h : s.Sound hash) {ops : List ArpOp} :
    s.Resolves hash ops ↔ s.AllowsAll hash ops := by
  induction ops generalizing s with
  | nil => exact Iff.rfl
  | cons o ops ih =>
    obtain ⟨hiff, hsound⟩ := h.step_iff (o := o)
    constructor
    · rintro ⟨hresolves, hrest⟩
      have hallows := hiff.mp hresolves
      exact ⟨hallows, (ih (hsound hallows)).mp hrest⟩
    · rintro ⟨hallows, hrest⟩
      exact ⟨hiff.mpr hallows, (ih (hsound hallows)).mpr hrest⟩

end ArpState

/-- **Main theorem.** The lookups of a run are resolved as they should, exactly if every reply comes
    to the one lookup that is suspended for its address, or to one that is about to be suspended
    and not too early for it. -/
theorem arp_resolves_iff (hash : Ipv4 → U64) (ops : List ArpOp) :
    ArpState.Resolves hash {} ops ↔ ArpState.AllowsAll hash {} ops :=
  ArpState.sound_start.resolves_iff

/-- A lookup that is suspended. -/
def lookUp (l : LookupId) (ip : Ipv4) : List ArpOp := [.start l ip, .sent l, .ready l, .suspend l]

/-- Two lookups wait, and a reply comes for the first one. -/
def overlapping : List ArpOp :=
  lookUp 0 (ipv4 10 0 2 2) ++ lookUp 1 (ipv4 10 0 2 3) ++ [.reply (ipv4 10 0 2 2) 0x525400123456#48]

/-- It fails the second lookup, and the first one stays suspended. -/
theorem overlapping_lookups :
    (overlapping.foldl (ArpState.step fun _ => 0#64) {}).place 0 = .suspended ∧
      (overlapping.foldl (ArpState.step fun _ => 0#64) {}).place 1 =
        .done (.error .netUnreachable) ∧
      ¬ArpState.Resolves (fun _ => 0#64) {} overlapping := by
  refine ⟨by decide, by decide, ?_⟩
  rintro ⟨-, -, -, -, -, -, -, -, hreply, -⟩
  exact absurd (hreply.waiting 0 (by decide)) (by decide)

end Fishix.Net
