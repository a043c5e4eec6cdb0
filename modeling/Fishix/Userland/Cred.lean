import Fishix.Common.Outcome

/-!
# Users and groups

Model of `userland/cred.cpp`: the calls that change the user and group numbers of the calling
thread, and what a fork hands on (sched/sched.cpp:889). `klib::Vector` has a copy constructor and no
assignment of its own: the two threads have one buffer for their groups, and what `setgroups` writes
into it both see. There is always room for a larger buffer.

A thread without privileges may set each of its numbers to one of the three it has. It may so take
back an effective user 0 that it keeps as its real or saved one, and is privileged again. Up to
there the numbers of the thread and of all threads forked from it stay among the three.

* `Cred.Within`: the numbers are among those of an earlier `Cred`; `call_within`: one call.
* `Users.lineage_within`: a run, with every thread forked on the way.
* `run_buffers`: without `setgroups` every thread reads the groups it had.
* `no_privilege_gain`: what holds from any state that the kernel gets into.
* `privilege_regained`: a thread that has only put its effective user aside.
-/

namespace Fishix.Userland

open Function (update update_self update_of_ne)

/-- `uid_t`, `gid_t`. -/
abbrev Id := BitVec 32

/-- `(uint)-1`. -/
abbrev keepId : Id := 0xFFFFFFFF#32

/-- `Cred::IdSet` (userland/cred.hpp:10-14). -/
structure IdSet where
  rid : Id := keepId
  eid : Id := keepId
  fsid : Id := keepId
  sid : Id := keepId
deriving DecidableEq

namespace IdSet

/-- `contains` (userland/cred.hpp:13). -/
def contains (s : IdSet) (id : Id) : Bool := s.rid = id || s.eid = id || s.sid = id

/-- All four numbers of the set. -/
def ids (s : IdSet) : List Id := [s.rid, s.eid, s.fsid, s.sid]

end IdSet

/-- `klib::Vector<gid_t>` (klib/vector.hpp:8-10), with the number of its buffer. -/
structure GroupVector where
  buffer : Option ℕ := none
  size : ℕ := 0
  capacity : ℕ := 0
deriving DecidableEq

/-- What the buffers hold, and how many there have been: `free` does nothing (mem/bump.cpp:30-32). -/
structure GroupBuffers where
  words : ℕ → ℕ → Id := fun _ _ => 0#32
  next : ℕ := 0

/-- The loop of `increase_capacity` (klib/vector.hpp:14-15), in at most `turns` turns. -/
def growCapacity (newCapacity : ℕ) : ℕ → ℕ → ℕ
  | 0, capacity => capacity
  | turns + 1, capacity =>
    if newCapacity > capacity then
      growCapacity newCapacity turns (if capacity ≠ 0 then capacity * 2 else 1)
    else capacity

namespace GroupBuffers

/-- `realloc` (mem/bump.cpp:34-47) into the next buffer. What is copied from behind the end of the
    old one is written before it is read. -/
def reallocate (b : GroupBuffers) (old : Option ℕ) : GroupBuffers where
  words := match old with
    | some i => update b.words b.next (b.words i)
    | none => b.words
  next := b.next + 1

/-- `resize` (klib/vector.hpp:12-18, 54-57). The capacity grows in every turn. -/
def resize (b : GroupBuffers) (v : GroupVector) (newSize : ℕ) : GroupVector × GroupBuffers :=
  if newSize > v.capacity then
    ({ buffer := some b.next, size := newSize
       capacity := growCapacity newSize (newSize + 1) v.capacity }, b.reallocate v.buffer)
  else ({ v with size := newSize }, b)

/-- `memcpy` to the beginning of a buffer. -/
def write (b : GroupBuffers) (buffer : Option ℕ) (list : List Id) : GroupBuffers :=
  match buffer with
  | some i => { b with words := update b.words i fun j => (list[j]?).getD (b.words i j) }
  | none => b

/-- The list that a thread has in its vector (userland/cred.cpp:131). -/
def list (b : GroupBuffers) (v : GroupVector) : List Id :=
  match v.buffer with
  | some i => (List.range v.size).map (b.words i)
  | none => []

end GroupBuffers

/-- `Cred` (userland/cred.hpp:9-19). -/
structure Cred where
  uids : IdSet := {}
  gids : IdSet := {}
  groups : GroupVector := {}
deriving DecidableEq

/-- `has_capability` (userland/cred.hpp:18), for every capability. -/
def Cred.hasCapability (c : Cred) : Bool := c.uids.eid = 0#32

inductive CredErrno where
  | EPERM
  | EINVAL
  | ENOSYS
deriving DecidableEq

/-- What a call changes: the thread's `cred`, the process's `dumpable` and the buffers. -/
structure Caller where
  cred : Cred
  dumpable : Bool
  buffers : GroupBuffers

namespace Caller

/-- `is_gid ? cred.gids : cred.uids`. -/
def idSet (c : Caller) (isGid : Bool) : IdSet := if isGid then c.cred.gids else c.cred.uids

def setIdSet (c : Caller) (isGid : Bool) (s : IdSet) : Caller :=
  if isGid then { c with cred := { c.cred with gids := s } }
  else { c with cred := { c.cred with uids := s } }

/-- `thread->process->dumpable = false`, under a condition. -/
def undumpable (c : Caller) (p : Prop) [Decidable p] : Caller :=
  if p then { c with dumpable := false } else c

/-- `setid` (userland/cred.cpp:28-49). -/
def setid (c : Caller) (isGid : Bool) (id : Id) : Except CredErrno Caller :=
  let ids := c.idSet isGid
  if c.cred.hasCapability then
    .ok ((c.undumpable (id ≠ ids.eid)).setIdSet isGid { eid := id, fsid := id, rid := id, sid := id })
  else if ids.contains id then
    .ok ((c.undumpable (id ≠ ids.eid)).setIdSet isGid { ids with eid := id, fsid := id })
  else .error .EPERM

/-- One of the three checks of `setresid` (userland/cred.cpp:61-72). -/
def mayTake (ids : IdSet) (id : Id) : Except CredErrno Unit :=
  if id ≠ keepId ∧ !ids.contains id then .error .EPERM else .ok ()

/-- A number that is set unless it is -1. -/
def orKeep (id old : Id) : Id := if id ≠ keepId then id else old

/-- The checks of `setresid` (userland/cred.cpp:56-73). -/
def checkResid (c : Caller) (ids : IdSet) (rid eid sid : Id) : Except CredErrno Unit :=
  if c.cred.hasCapability then .ok ()
  else do
    mayTake ids eid
    mayTake ids rid
    mayTake ids sid

/-- `setresid` (userland/cred.cpp:51-81). Nothing is written before the last check. -/
def setresid (c : Caller) (isGid : Bool) (rid eid sid : Id) : Except CredErrno Caller :=
  let ids := c.idSet isGid
  let newEid := orKeep eid ids.eid
  let newIds : IdSet :=
    { rid := orKeep rid ids.rid, eid := newEid, fsid := newEid, sid := orKeep sid ids.sid }
  do
    c.checkResid ids rid eid sid
    .ok ((c.undumpable (newIds.eid ≠ ids.eid ∨ newIds.fsid ≠ ids.fsid)).setIdSet isGid newIds)

/-- `syscall_setgroups` (userland/cred.cpp:134-144) with the list in the memory of the caller;
    `qsort` leaves the copy in ascending order. -/
def setgroups (c : Caller) (size : BitVec 32) (list : ℕ → Id) : Except CredErrno Caller :=
  if size.msb then .error .EINVAL
  else
    let (groups, buffers) := c.buffers.resize c.cred.groups size.toNat
    let sorted := ((List.range size.toNat).map list).insertionSort (· ≤ ·)
    .ok { c with cred := { c.cred with groups }, buffers := buffers.write groups.buffer sorted }

end Caller

/-- The calls that change a `Cred`, with their arguments (userland/cred.cpp:83-121, 134-144). -/
inductive CredCall where
  | setuid (uid : Id)
  | setgid (gid : Id)
  | setreuid (ruid euid : Id)
  | setregid (rgid egid : Id)
  | setresuid (ruid euid suid : Id)
  | setresgid (rgid egid sgid : Id)
  | setfsuid (fsuid : Id)
  | setfsgid (fsgid : Id)
  | setgroups (size : BitVec 32) (list : ℕ → Id)

def Caller.call (c : Caller) : CredCall → Except CredErrno Caller
  | .setuid uid => c.setid false uid
  | .setgid gid => c.setid true gid
  | .setreuid ruid euid => c.setresid false ruid euid keepId
  | .setregid rgid egid => c.setresid true rgid egid keepId
  | .setresuid ruid euid suid => c.setresid false ruid euid suid
  | .setresgid rgid egid sgid => c.setresid true rgid egid sgid
  | .setfsuid _ => .error .ENOSYS
  | .setfsgid _ => .error .ENOSYS
  | .setgroups size list => c.setgroups size list

/-- The call is `setgroups`. -/
def CredCall.IsSetgroups : CredCall → Prop
  | .setgroups _ _ => True
  | _ => False

/-! ## All threads -/

abbrev CredTid := ℕ
abbrev CredPid := ℕ

/-- The `cred` and the process of every thread, `dumpable` of every process, and the buffers. -/
structure Users where
  cred : CredTid → Option Cred
  process : CredTid → CredPid
  dumpable : CredPid → Bool
  buffers : GroupBuffers

namespace Users

/-- The first process (sched/sched.cpp:580-583); thread 1 is its only thread. -/
def booted : Users where
  cred := fun t => if t = 1 then
      some { uids := { rid := 0#32, eid := 0#32, fsid := 0#32, sid := 0#32 }
             gids := { rid := 0#32, eid := 0#32, fsid := 0#32, sid := 0#32 } }
    else none
  process := fun _ => 1
  dumpable := fun _ => true
  buffers := {}

/-- The groups of a thread with this `cred`. -/
def groups (s : Users) (c : Cred) : List Id := s.buffers.list c.groups

/-- What a call by a thread of the process `p` works on. -/
def caller (s : Users) (cred : Cred) (p : CredPid) : Caller :=
  { cred, dumpable := s.dumpable p, buffers := s.buffers }

/-- A call by the thread `t`. -/
def call (s : Users) (t : CredTid) (c : CredCall) : Users :=
  match s.cred t with
  | none => s
  | some cred =>
    match (s.caller cred (s.process t)).call c with
    | .error _ => s
    | .ok caller =>
      { s with
        cred := update s.cred t (some caller.cred)
        dumpable := update s.dumpable (s.process t) caller.dumpable
        buffers := caller.buffers }

/-- `clone_impl` by the thread `t` (sched/sched.cpp:852-889), for a new process or a thread of the
    same one. A thread number in use is not handed out. The assignment of the `cred` copies the
    pointer to the buffer of the groups. -/
def clone (s : Users) (t child : CredTid) (newProcess : Option CredPid) : Users :=
  match s.cred t, s.cred child with
  | some cred, none =>
    { s with
      cred := update s.cred child (some cred)
      process := update s.process child (newProcess.getD (s.process t))
      dumpable := match newProcess with
        | some p => update s.dumpable p true
        | none => s.dumpable }
  | _, _ => s

end Users

inductive CredOp where
  | call (t : CredTid) (c : CredCall)
  | clone (t child : CredTid) (newProcess : Option CredPid)

def Users.step (s : Users) : CredOp → Users
  | .call t c => s.call t c
  | .clone t child newProcess => s.clone t child newProcess

def Users.run (s : Users) (ops : List CredOp) : Users := ops.foldl Users.step s

/-- The threads of `F`, and the one that is forked from them in this step. -/
def Users.join (s : Users) (F : List CredTid) : CredOp → List CredTid
  | .call _ _ => F
  | .clone t child _ =>
    if t ∈ F ∧ (s.cred t).isSome ∧ s.cred child = none then child :: F else F

/-- The threads of `F` and all threads forked from them in a run. -/
def Users.lineage (s : Users) (F : List CredTid) : List CredOp → List CredTid
  | [] => F
  | o :: ops => (s.step o).lineage (s.join F o) ops

/-- Before every step of a run the threads of `F` and those forked from them have an effective user
    other than 0. -/
def Users.Unprivileged (s : Users) (F : List CredTid) : List CredOp → Prop
  | [] => True
  | o :: ops => (∀ t ∈ F, ∀ c, s.cred t = some c → c.uids.eid ≠ 0#32) ∧
    (s.step o).Unprivileged (s.join F o) ops

/-- The step is no `setgroups`. -/
def CredOp.GroupsLeft (o : CredOp) : Prop := ∀ t c, o = .call t c → ¬c.IsSetgroups

/-! ## One call -/

/-- Every number of the set is one of the three of an earlier set. -/
def IdSet.Within (s s' : IdSet) : Prop := ∀ id ∈ s.ids, s'.contains id = true

/-- The users and groups of `c` are among the real, effective and saved ones of `d`. -/
structure Cred.Within (c d : Cred) : Prop where
  uids : c.uids.Within d.uids
  gids : c.gids.Within d.gids

/-- The numbers that files are accessed with are the effective ones. -/
structure Cred.Settled (c : Cred) : Prop where
  uids : c.uids.fsid = c.uids.eid
  gids : c.gids.fsid = c.gids.eid

namespace IdSet

variable {s s' : IdSet} {id : Id}

theorem contains_iff : s.contains id = true ↔ s.rid = id ∨ s.eid = id ∨ s.sid = id := by
  simp [contains, or_assoc]

theorem within_iff : s.Within s' ↔ s'.contains s.rid = true ∧ s'.contains s.eid = true ∧
    s'.contains s.fsid = true ∧ s'.contains s.sid = true := by
  simp [Within, ids]

theorem within_self (h : s.fsid = s.eid) : s.Within s := by
  rw [within_iff, h]
  simp [contains]

theorem Within.contains (h : s.Within s') (hid : s.contains id = true) :
    s'.contains id = true := by
  obtain ⟨hr, he, -, hs⟩ := within_iff.mp h
  obtain rfl | rfl | rfl := contains_iff.mp hid
  · exact hr
  · exact he
  · exact hs

end IdSet

namespace Caller

variable {c c' : Caller} {d : Cred}

@[simp] theorem undumpable_cred (p : Prop) [Decidable p] : (c.undumpable p).cred = c.cred := by
  unfold undumpable
  split_ifs <;> rfl

/-- The groups of the caller and the other id set are left alone, and the new set is within the
    bounds that the old one is in. -/
theorem setIdSet_within (h : c.cred.Within d) (isGid : Bool) {s : IdSet}
    (hs : ∀ s', (c.idSet isGid).Within s' → s.Within s') : (c.setIdSet isGid s).cred.Within d := by
  cases isGid with
  | false => exact ⟨hs _ h.uids, h.gids⟩
  | true => exact ⟨h.uids, hs _ h.gids⟩

theorem setid_within (hcap : c.cred.hasCapability = false) (h : c.cred.Within d) {isGid : Bool}
    {id : Id} (hset : c.setid isGid id = .ok c') : c'.cred.Within d := by
  unfold setid at hset
  simp only [hcap, Bool.false_eq_true, if_false] at hset
  split_ifs at hset with hid
  cases hset
  refine setIdSet_within (by simpa using h) isGid ?_
  intro s' hs'
  have hold : (c.idSet isGid).Within s' := by
    cases isGid <;> simpa [idSet] using hs'
  obtain ⟨hr, -, -, hs⟩ := IdSet.within_iff.mp hold
  have hnew := hold.contains hid
  exact IdSet.within_iff.mpr ⟨hr, hnew, hnew, hs⟩

theorem orKeep_within {s s' : IdSet} {id old : Id} (h : s.Within s') (hold : s'.contains old = true)
    (hcheck : mayTake s id = .ok ()) : s'.contains (orKeep id old) = true := by
  unfold mayTake at hcheck
  unfold orKeep
  by_cases hid : id = keepId
  · rw [if_neg (not_not.mpr hid)]
    exact hold
  · rw [if_pos hid]
    apply h.contains
    by_contra hout
    rw [if_pos ⟨hid, by simpa using hout⟩] at hcheck
    cases hcheck

theorem setresid_within (hcap : c.cred.hasCapability = false) (h : c.cred.Within d) {isGid : Bool}
    {rid eid sid : Id} (hset : c.setresid isGid rid eid sid = .ok c') : c'.cred.Within d := by
  obtain ⟨_, hcheck, hc'⟩ := bind_ok hset
  unfold checkResid at hcheck
  rw [hcap, if_neg Bool.false_ne_true] at hcheck
  obtain ⟨_, he, hcheck⟩ := bind_ok hcheck
  obtain ⟨_, hr, hs⟩ := bind_ok hcheck
  cases hc'
  refine setIdSet_within (by simpa using h) isGid ?_
  intro s' hs'
  have hold : (c.idSet isGid).Within s' := by
    cases isGid <;> simpa [idSet] using hs'
  obtain ⟨hrid, heid, -, hsid⟩ := IdSet.within_iff.mp hold
  have hnew := orKeep_within hold heid he
  exact IdSet.within_iff.mpr ⟨orKeep_within hold hrid hr, hnew, hnew, orKeep_within hold hsid hs⟩

/-- A call without privileges takes no number from outside. -/
theorem call_within (hcap : c.cred.hasCapability = false) (h : c.cred.Within d) {k : CredCall}
    (hcall : c.call k = .ok c') : c'.cred.Within d := by
  cases k with
  | setuid uid => exact setid_within hcap h hcall
  | setgid gid => exact setid_within hcap h hcall
  | setreuid ruid euid => exact setresid_within hcap h hcall
  | setregid rgid egid => exact setresid_within hcap h hcall
  | setresuid ruid euid suid => exact setresid_within hcap h hcall
  | setresgid rgid egid sgid => exact setresid_within hcap h hcall
  | setfsuid fsuid => cases hcall
  | setfsgid fsgid => cases hcall
  | setgroups size list =>
    unfold call setgroups at hcall
    simp only at hcall
    split_ifs at hcall
    cases hcall
    exact ⟨h.uids, h.gids⟩

theorem setIdSet_settled (h : c.cred.Settled) (isGid : Bool) {s : IdSet} (hs : s.fsid = s.eid) :
    (c.setIdSet isGid s).cred.Settled := by
  cases isGid with
  | false => exact ⟨hs, h.gids⟩
  | true => exact ⟨h.uids, hs⟩

theorem setid_settled (h : c.cred.Settled) {isGid : Bool} {id : Id}
    (hset : c.setid isGid id = .ok c') : c'.cred.Settled := by
  unfold setid at hset
  simp only at hset
  split_ifs at hset
  · cases hset
    exact setIdSet_settled (by simpa using h) isGid rfl
  · cases hset
    exact setIdSet_settled (by simpa using h) isGid rfl

theorem setresid_settled (h : c.cred.Settled) {isGid : Bool} {rid eid sid : Id}
    (hset : c.setresid isGid rid eid sid = .ok c') : c'.cred.Settled := by
  obtain ⟨-, -, hc'⟩ := bind_ok hset
  cases hc'
  exact setIdSet_settled (by simpa using h) isGid rfl

/-- With or without privileges, the number for files follows the effective one. -/
theorem call_settled (h : c.cred.Settled) {k : CredCall} (hcall : c.call k = .ok c') :
    c'.cred.Settled := by
  cases k with
  | setuid uid => exact setid_settled h hcall
  | setgid gid => exact setid_settled h hcall
  | setreuid ruid euid => exact setresid_settled h hcall
  | setregid rgid egid => exact setresid_settled h hcall
  | setresuid ruid euid suid => exact setresid_settled h hcall
  | setresgid rgid egid sgid => exact setresid_settled h hcall
  | setfsuid fsuid => cases hcall
  | setfsgid fsgid => cases hcall
  | setgroups size list =>
    unfold call setgroups at hcall
    simp only at hcall
    split_ifs at hcall
    cases hcall
    exact ⟨h.uids, h.gids⟩

/-- The vector of the groups and the buffers are as they were. -/
def SameGroups (c c' : Caller) : Prop :=
  c'.cred.groups = c.cred.groups ∧ c'.buffers = c.buffers

theorem setIdSet_groups (c : Caller) (p : Prop) [Decidable p] (isGid : Bool) (s : IdSet) :
    c.SameGroups ((c.undumpable p).setIdSet isGid s) := by
  unfold undumpable
  cases isGid <;> split_ifs <;> exact ⟨rfl, rfl⟩

/-- Only `setgroups` changes the groups. -/
theorem call_groups {k : CredCall} (hk : ¬k.IsSetgroups) (hcall : c.call k = .ok c') :
    c.SameGroups c' := by
  have hset : ∀ {isGid id}, c.setid isGid id = .ok c' → c.SameGroups c' := by
    intro isGid id hset
    unfold setid at hset
    simp only at hset
    split_ifs at hset
    · cases hset
      exact setIdSet_groups ..
    · cases hset
      exact setIdSet_groups ..
  have hres : ∀ {isGid rid eid sid}, c.setresid isGid rid eid sid = .ok c' → c.SameGroups c' := by
    intro isGid rid eid sid hset
    obtain ⟨-, -, hc'⟩ := bind_ok hset
    cases hc'
    exact setIdSet_groups ..
  cases k with
  | setuid uid => exact hset hcall
  | setgid gid => exact hset hcall
  | setreuid ruid euid => exact hres hcall
  | setregid rgid egid => exact hres hcall
  | setresuid ruid euid suid => exact hres hcall
  | setresgid rgid egid sgid => exact hres hcall
  | setfsuid fsuid => cases hcall
  | setfsgid fsgid => cases hcall
  | setgroups size list => exact absurd trivial hk

end Caller

/-! ## A thread and those forked from it -/

namespace Users

variable {s : Users} {F : List CredTid}

/-- Every thread of `F` exists, and its `Cred` satisfies `P`. -/
def Each (s : Users) (F : List CredTid) (P : Cred → Prop) : Prop :=
  ∀ t ∈ F, ∃ c, s.cred t = some c ∧ P c

/-- A step keeps what every call by a thread of `F` keeps: the calls of other threads do not reach
    it, and a forked thread starts with the `Cred` of the one that forked. -/
theorem each_step {P : Cred → Prop} {o : CredOp} (h : s.Each F P)
    (hcall : ∀ t ∈ F, ∀ k, o = .call t k → ∀ c c' : Caller, s.cred t = some c.cred → P c.cred →
      c.call k = .ok c' → P c'.cred) :
    (s.step o).Each (s.join F o) P := by
  cases o with
  | call t k =>
    intro t' ht'
    obtain ⟨c', hc', hP⟩ := h t' ht'
    show ∃ c, (s.call t k).cred t' = some c ∧ P c
    unfold call
    cases hcred : s.cred t with
    | none => exact ⟨c', hc', hP⟩
    | some cred =>
      simp only
      cases hk : (s.caller cred (s.process t)).call k with
      | error e => exact ⟨c', hc', hP⟩
      | ok caller =>
        by_cases htt : t' = t
        · subst htt
          obtain rfl := Option.some.inj (hc'.symm.trans hcred)
          exact ⟨caller.cred, update_self .., hcall t' ht' k rfl _ _ hcred hP hk⟩
        · exact ⟨c', (update_of_ne htt ..).trans hc', hP⟩
  | clone t child newProcess =>
    show (s.clone t child newProcess).Each (if t ∈ F ∧ (s.cred t).isSome ∧ s.cred child = none then
      child :: F else F) P
    unfold clone
    cases hcred : s.cred t with
    | none =>
      rw [if_neg (by simp)]
      exact h
    | some cred =>
      cases hchild : s.cred child with
      | some other =>
        rw [if_neg (by simp)]
        exact h
      | none =>
        have hold : ∀ t' ∈ F, ∃ c,
            update s.cred child (some cred) t' = some c ∧ P c := by
          intro t' ht'
          obtain ⟨c', hc', hP⟩ := h t' ht'
          have hne : t' ≠ child := by
            rintro rfl
            rw [hchild] at hc'
            cases hc'
          exact ⟨c', (update_of_ne hne ..).trans hc', hP⟩
        by_cases ht : t ∈ F
        · rw [if_pos ⟨ht, rfl, rfl⟩]
          intro t' ht'
          rcases List.mem_cons.mp ht' with rfl | ht'
          · obtain ⟨c, hc, hP⟩ := h t ht
            obtain rfl := Option.some.inj (hcred.symm.trans hc)
            exact ⟨cred, update_self .., hP⟩
          · exact hold t' ht'
        · rw [if_neg (fun hin => ht hin.1)]
          exact hold

/-- The threads of a run without privileges keep to the numbers that the first ones had. -/
theorem lineage_within {d : Cred} {ops : List CredOp} (h : s.Each F (·.Within d))
    (hops : s.Unprivileged F ops) : (s.run ops).Each (s.lineage F ops) (·.Within d) := by
  induction ops generalizing s F with
  | nil => exact h
  | cons o ops ih =>
    obtain ⟨hpriv, hops⟩ := hops
    refine ih (each_step h ?_) hops
    intro t ht k _ c c' hc hwithin hcall
    have heid := hpriv t ht c.cred hc
    exact Caller.call_within (by simpa [Cred.hasCapability] using heid) hwithin hcall

/-- Where 0 is none of the numbers to begin with, no thread of the run ever has privileges. -/
theorem unprivileged_of_within {d : Cred} (hd : d.uids.contains 0#32 = false) {ops : List CredOp}
    (h : s.Each F (·.Within d)) : s.Unprivileged F ops := by
  induction ops generalizing s F with
  | nil => trivial
  | cons o ops ih =>
    have hpriv : ∀ t ∈ F, ∀ c, s.cred t = some c → c.uids.eid ≠ 0#32 := by
      intro t ht c hc hzero
      obtain ⟨c', hc', hwithin⟩ := h t ht
      obtain rfl := Option.some.inj (hc.symm.trans hc')
      obtain ⟨-, heid, -⟩ := IdSet.within_iff.mp hwithin.uids
      rw [hzero, hd] at heid
      cases heid
    refine ⟨hpriv, ih (each_step h ?_)⟩
    intro t ht k _ c c' hc hwithin hcall
    have heid := hpriv t ht c.cred hc
    exact Caller.call_within (by simpa [Cred.hasCapability] using heid) hwithin hcall

/-- Without `setgroups` the vectors stay. -/
theorem lineage_groups {groups : GroupVector} {ops : List CredOp}
    (h : s.Each F (·.groups = groups)) (hops : ∀ o ∈ ops, o.GroupsLeft) :
    (s.run ops).Each (s.lineage F ops) (·.groups = groups) := by
  induction ops generalizing s F with
  | nil => exact h
  | cons o ops ih =>
    obtain ⟨hleft, hops⟩ := List.forall_mem_cons.mp hops
    refine ih (each_step h ?_) hops
    intro t ht k ho c c' _ hgroups hcall
    exact (Caller.call_groups (hleft t k ho) hcall).1.trans hgroups

theorem step_buffers {o : CredOp} (ho : o.GroupsLeft) : (s.step o).buffers = s.buffers := by
  cases o with
  | call t k =>
    show (s.call t k).buffers = s.buffers
    unfold call
    cases s.cred t with
    | none => rfl
    | some cred =>
      simp only
      cases hk : (s.caller cred (s.process t)).call k with
      | error e => rfl
      | ok caller => exact (Caller.call_groups (ho t k rfl) hk).2
  | clone t child newProcess =>
    show (s.clone t child newProcess).buffers = s.buffers
    unfold clone
    split
    · rfl
    · rfl

/-- Without `setgroups`, by any thread, the buffers stay. -/
theorem run_buffers {ops : List CredOp} (hops : ∀ o ∈ ops, o.GroupsLeft) :
    (s.run ops).buffers = s.buffers := by
  induction ops generalizing s with
  | nil => rfl
  | cons o ops ih =>
    obtain ⟨hleft, hops⟩ := List.forall_mem_cons.mp hops
    exact (ih hops).trans (step_buffers hleft)

/-- With or without privileges, a step leaves every `Cred` settled. -/
theorem step_settled (h : ∀ t c, s.cred t = some c → c.Settled) (o : CredOp) :
    ∀ t c, (s.step o).cred t = some c → c.Settled := by
  have hupdate : ∀ {t : CredTid} {d : Cred}, d.Settled →
      ∀ t' c, update s.cred t (some d) t' = some c → c.Settled := by
    intro t d hd t' c hc
    by_cases ht : t' = t
    · subst ht
      rw [update_self] at hc
      cases hc
      exact hd
    · rw [update_of_ne ht] at hc
      exact h t' c hc
  cases o with
  | call t k =>
    show ∀ t' c, (s.call t k).cred t' = some c → c.Settled
    unfold call
    cases hcred : s.cred t with
    | none => exact h
    | some cred =>
      simp only
      cases hk : (s.caller cred (s.process t)).call k with
      | error e => exact h
      | ok caller => exact hupdate (Caller.call_settled (h t cred hcred) hk)
  | clone t child newProcess =>
    show ∀ t' c, (s.clone t child newProcess).cred t' = some c → c.Settled
    unfold clone
    cases hcred : s.cred t with
    | none => exact h
    | some cred =>
      cases hchild : s.cred child with
      | some other => exact h
      | none => exact hupdate (h t cred hcred)

theorem run_settled (h : ∀ t c, s.cred t = some c → c.Settled) (ops : List CredOp) :
    ∀ t c, (s.run ops).cred t = some c → c.Settled := by
  induction ops generalizing s with
  | nil => exact h
  | cons o ops ih => exact ih (step_settled h o)

theorem booted_settled (t : CredTid) (c : Cred) (hc : booted.cred t = some c) : c.Settled := by
  unfold booted at hc
  simp only [Option.ite_none_right_eq_some, Option.some.injEq] at hc
  obtain ⟨-, rfl⟩ := hc
  exact ⟨rfl, rfl⟩

end Users

open Users

/-- **Main theorem.** Take any thread in any state that the kernel gets into, and any sequence of
    calls and forks from there. As long as the thread and all those forked from it keep an effective
    user other than 0, each of their user and group numbers is one that the thread had as its real,
    effective or saved one. If none of its three users is 0, they do keep one. As long as no thread
    of the system calls `setgroups`, the groups of each of them are those that the thread had. -/
theorem no_privilege_gain {before ops : List CredOp} {t : CredTid} {c : Cred}
    (hc : (booted.run before).cred t = some c) :
    ((booted.run before).Unprivileged [t] ops →
      ((booted.run before).run ops).Each ((booted.run before).lineage [t] ops) (·.Within c)) ∧
    (c.uids.contains 0#32 = false → (booted.run before).Unprivileged [t] ops) ∧
    ((∀ o ∈ ops, o.GroupsLeft) →
      ((booted.run before).run ops).Each ((booted.run before).lineage [t] ops) fun c' =>
        ((booted.run before).run ops).groups c' = (booted.run before).groups c) := by
  have hsettled := run_settled booted_settled before t c hc
  have hself : c.Within c :=
    ⟨IdSet.within_self hsettled.uids, IdSet.within_self hsettled.gids⟩
  have hstart : ∀ {P : Cred → Prop}, P c → (booted.run before).Each [t] P := by
    intro P hP t' ht'
    obtain rfl := List.mem_singleton.mp ht'
    exact ⟨c, hc, hP⟩
  refine ⟨?_, ?_, ?_⟩
  · exact lineage_within (hstart hself)
  · intro hzero
    exact unprivileged_of_within hzero (hstart hself)
  · intro hleft t' ht'
    obtain ⟨c', hc', hsame⟩ := lineage_groups (hstart rfl) hleft t' ht'
    refine ⟨c', hc', ?_⟩
    show ((booted.run before).run ops).buffers.list c'.groups = _
    rw [run_buffers hleft, hsame]
    rfl

/-- A daemon: user and group 1000 for good, then a fork and calls of both threads. -/
def daemon : List CredOp :=
  [.clone 1 2 (some 2), .call 2 (.setgroups 2 fun i => if i = 0 then 60#32 else 50#32),
    .call 2 (.setresgid 1000#32 1000#32 1000#32), .call 2 (.setresuid 1000#32 1001#32 1002#32)]

def daemonCalls : List CredOp :=
  [.clone 2 3 (some 3), .call 3 (.setuid 1002#32), .call 2 (.setreuid 1001#32 keepId),
    .call 3 (.setuid 0#32), .clone 3 4 none]

/-- Users 1000, 1001 and 1002, group 1000, two supplementary groups in the first buffer. -/
def daemonCred : Cred where
  uids := { rid := 1000#32, eid := 1001#32, fsid := 1001#32, sid := 1002#32 }
  gids := { rid := 1000#32, eid := 1000#32, fsid := 1000#32, sid := 1000#32 }
  groups := { buffer := some 0, size := 2, capacity := 2 }

theorem no_privilege_gain_daemon :
    ((booted.run daemon).run daemonCalls).Each [4, 3, 2] fun c =>
      c.Within daemonCred ∧
        ((booted.run daemon).run daemonCalls).groups c = [50#32, 60#32] := by
  have hc : (booted.run daemon).cred 2 = some daemonCred := by decide +kernel
  have hlineage : (booted.run daemon).lineage [2] daemonCalls = [4, 3, 2] := by decide +kernel
  obtain ⟨hwithin, hpriv, hgroups⟩ := @no_privilege_gain daemon daemonCalls 2 daemonCred hc
  have hleft : ∀ o ∈ daemonCalls, o.GroupsLeft := by
    simp [daemonCalls, CredOp.GroupsLeft, CredCall.IsSetgroups]
  have hlist : (booted.run daemon).groups daemonCred = [50#32, 60#32] := by decide +kernel
  rw [hlineage] at hwithin hgroups
  intro t ht
  obtain ⟨c, hcred, hids⟩ := hwithin (hpriv (by decide)) t ht
  obtain ⟨c', hcred', hsame⟩ := hgroups hleft t ht
  obtain rfl := Option.some.inj (hcred.symm.trans hcred')
  exact ⟨c, hcred, hids, hsame.trans hlist⟩

-- The first process makes 50 its group and forks. When it makes 0 its group, so does the other one.
example : let s := booted.run [.call 1 (.setgroups 1 fun _ => 50#32), .clone 1 2 (some 2),
      .call 2 (.setresuid 1000#32 1000#32 1000#32), .call 1 (.setgroups 1 fun _ => 0#32)]
    (s.cred 2).map s.groups = some [0#32] := by
  decide +kernel

/-- The first process puts its effective user aside, takes it back and becomes user 1234. -/
theorem privilege_regained :
    ((booted.run [.call 1 (.setresuid keepId 1000#32 keepId)]).cred 1).map (·.uids) =
        some { rid := 0#32, eid := 1000#32, fsid := 1000#32, sid := 0#32 } ∧
      ((booted.run [.call 1 (.setresuid keepId 1000#32 keepId), .call 1 (.setuid 0#32),
        .call 1 (.setuid 1234#32)]).cred 1).map (·.uids) =
        some { rid := 1234#32, eid := 1234#32, fsid := 1234#32, sid := 1234#32 } := by
  decide

end Fishix.Userland
