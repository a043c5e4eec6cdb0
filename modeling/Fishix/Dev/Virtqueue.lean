import Fishix.Common.FreeList
import Mathlib.Data.List.Nodup
import Mathlib.Data.List.Perm.Subperm
import Mathlib.Data.Finset.Card

/-!
# Virtqueues

Model of `virtio::Queue` (dev/virtio.cpp:85-132), of what `read_write_block`, `send_packet` and the
receive queue do with descriptors (lines 213-251, 292-308, 339-366), and of the three interrupt
handlers (lines 176-190, 366-394). The device completes what was submitted in any order, also while
an interrupt is handled.

A handler compares its place in the used ring with the index of the device modulo the length of the
ring. If as many completions as there are descriptors are waiting, the two agree, and the handler
sees none.

* `Descriptors`: the free list, and the descriptors of the requests.
* `step_iff`: when a step of a handler leaves no completion out.
* `handlers_process_iff`: the runs in which every completion is processed once.
* `handlers_process_block`: for block requests these are all runs.
-/

namespace Fishix.Dev

open Function (update update_self update_of_ne)

/-- The queues of a `BlockDevice` and of a `NetDevice`. -/
inductive QueueKind
  | block
  | receive
  | transmit

/-- `Queue::length`. -/
def LENGTH : ℕ := 128

/-- `Queue` (dev/virtio.hpp:40-58), after `init` (dev/virtio.cpp:85-102). The indices of the rings
    are of sixteen bits and never reduced. -/
structure Queue where
  next : ℕ → ℕ := fun i => i + 1
  freeDescIndex : ℕ := 0
  numFreeDescs : ℕ := LENGTH
  availableRing : ℕ → ℕ := fun _ => 0
  availableIndex : BitVec 16 := 0#16
  usedRing : ℕ → ℕ := fun _ => 0
  usedIndex : BitVec 16 := 0#16
  lastSeenUsed : ℕ := 0

namespace Queue

variable (q : Queue)

/-- `Queue::alloc_descriptor`. -/
def allocDescriptor : ℕ × Queue :=
  let index := q.freeDescIndex
  if index = LENGTH then (index, q)
  else (index, { q with freeDescIndex := q.next index, numFreeDescs := q.numFreeDescs - 1 })

/-- `Queue::free_descriptor`. -/
def freeDescriptor (index : ℕ) : Queue :=
  { q with
    next := update q.next index q.freeDescIndex
    freeDescIndex := index
    numFreeDescs := q.numFreeDescs + 1 }

/-- `Queue::submit_descriptor`. -/
def submitDescriptor (index : ℕ) : Queue :=
  { q with
    availableRing := update q.availableRing (q.availableIndex.toNat % LENGTH) index
    availableIndex := q.availableIndex + 1#16 }

/-- `descriptors[index].next = next`. -/
def setNext (index next : ℕ) : Queue := { q with next := update q.next index next }

/-- The descriptors of `read_write_block` (dev/virtio.cpp:219-250). -/
def readWriteBlock : Option ℕ × Queue :=
  let (desc1, q) := q.allocDescriptor
  if desc1 = LENGTH then (none, q)
  else
    let (desc2, q) := q.allocDescriptor
    if desc2 = LENGTH then (none, q.freeDescriptor desc1)
    else
      let (desc3, q) := q.allocDescriptor
      if desc3 = LENGTH then (none, (q.freeDescriptor desc2).freeDescriptor desc1)
      else (some desc1, ((q.setNext desc1 desc2).setNext desc2 desc3).submitDescriptor desc1)

/-- The descriptor of `send_packet` (dev/virtio.cpp:340-361), and of a turn of the loop that fills
    the receive queue (lines 293-306). -/
def submitOne : Option ℕ × Queue :=
  let (desc, q) := q.allocDescriptor
  if desc = LENGTH then (none, q) else (some desc, q.submitDescriptor desc)

def request : QueueKind → Option ℕ × Queue
  | .block => q.readWriteBlock
  | .receive | .transmit => q.submitOne

/-- What a handler does with the descriptors of a completed request (dev/virtio.cpp:185-187, 391). A
    receive descriptor goes to the I/O service. -/
def finish : QueueKind → ℕ → Queue
  | .block, desc =>
    let q := q.freeDescriptor (q.next (q.next desc))
    let q := q.freeDescriptor (q.next desc)
    q.freeDescriptor desc
  | .transmit, desc => q.freeDescriptor desc
  | .receive, _ => q

end Queue

/-- Where the interrupt handler is. -/
inductive HandlerPlace
  | idle
  /-- Before the test of the loop, with its `i`. -/
  | checking (i : ℕ)
  /-- It calls back for a descriptor. -/
  | processing (i desc : ℕ)
  deriving DecidableEq

/-- A queue with its device and its handler. The requests that the device has, those that it has
    completed, and those that were processed; `held` are the receive descriptors with the I/O
    service. -/
structure Virtqueue where
  queue : Queue := {}
  place : HandlerPlace := .idle
  outstanding : List ℕ := []
  completed : List ℕ := []
  processed : List ℕ := []
  held : List ℕ := []

inductive QueueOp
  /-- A request is made. -/
  | request
  /-- The I/O service submits a receive descriptor again (dev/virtio.cpp:378-379). -/
  | resubmit (desc : ℕ)
  /-- The device puts a request into the used ring. -/
  | complete (desc : ℕ)
  /-- An interrupt. -/
  | interrupt
  /-- The handler goes on. -/
  | handle

namespace Virtqueue

variable (kind : QueueKind) (v : Virtqueue)

/-- The device: the used ring holds the completions in order, and its index counts them. -/
def complete (desc : ℕ) : Virtqueue :=
  let q := v.queue
  { v with
    queue := { q with
      usedRing := update q.usedRing (q.usedIndex.toNat % LENGTH) desc
      usedIndex := q.usedIndex + 1#16 }
    outstanding := v.outstanding.erase desc
    completed := v.completed ++ [desc] }

/-- The handler: `irq`, `tx_irq` and `rx_irq`. The last one counts `last_seen_used` itself. -/
def handle : Virtqueue :=
  match v.place with
  | .idle => v
  | .checking i =>
    if i ≠ v.queue.usedIndex.toNat % LENGTH then
      let desc := v.queue.usedRing i
      { v with place := .processing i desc, processed := v.processed ++ [desc] }
    else { v with queue := { v.queue with lastSeenUsed := i }, place := .idle }
  | .processing i desc =>
    let i := (i + 1) % LENGTH
    match kind with
    | .receive =>
      { v with
        queue := { v.queue with lastSeenUsed := i }
        place := .checking i
        held := desc :: v.held }
    | _ => { v with queue := v.queue.finish kind desc, place := .checking i }

def step : QueueOp → Virtqueue
  | .request =>
    match v.queue.request kind with
    | (some desc, q) => { v with queue := q, outstanding := desc :: v.outstanding }
    | (none, q) => { v with queue := q }
  | .resubmit desc =>
    if desc ∈ v.held then
      { v with
        queue := v.queue.submitDescriptor desc
        held := v.held.erase desc
        outstanding := desc :: v.outstanding }
    else v
  | .complete desc => if desc ∈ v.outstanding then v.complete desc else v
  | .interrupt =>
    match v.place with
    | .idle => { v with place := .checking v.queue.lastSeenUsed }
    | _ => v
  | .handle => v.handle kind

/-! ## What handlers are to do -/

/-- What was processed is the beginning of what was completed, and a handler that ends has processed
    everything. -/
structure StepProcesses (v v' : Virtqueue) : Prop where
  inOrder : v'.processed <+: v'.completed
  all : v.place ≠ .idle → v'.place = .idle → v'.processed = v'.completed

/-- So it is throughout the run. -/
def Processes (v : Virtqueue) : List QueueOp → Prop
  | [] => True
  | o :: ops => v.StepProcesses (v.step kind o) ∧ (v.step kind o).Processes ops

/-- No test of the loop comes when as many completions as there are descriptors are waiting. -/
def Allows (v : Virtqueue) (o : QueueOp) : Prop :=
  o = .handle → (∃ i, v.place = .checking i) → v.completed.length ≠ v.processed.length + LENGTH

def AllowsAll (v : Virtqueue) : List QueueOp → Prop
  | [] => True
  | o :: ops => v.Allows o ∧ (v.step kind o).AllowsAll ops

end Virtqueue

/-! ## Descriptors -/

/-- The descriptors of a request. -/
def chain (kind : QueueKind) (next : ℕ → ℕ) (desc : ℕ) : List ℕ :=
  match kind with
  | .block => [desc, next desc, next (next desc)]
  | .receive | .transmit => [desc]

/-- How many they are. -/
def segments : QueueKind → ℕ
  | .block => 3
  | .receive | .transmit => 1

theorem chain_congr {kind : QueueKind} {next next' : ℕ → ℕ} {desc : ℕ}
    (h : ∀ a ∈ chain kind next desc, next' a = next a) :
    chain kind next' desc = chain kind next desc := by
  cases kind with
  | block =>
    unfold chain at h ⊢
    rw [h desc (by simp), h (next desc) (by simp)]
  | _ => rfl

theorem length_chain (kind : QueueKind) (next : ℕ → ℕ) (desc : ℕ) :
    (chain kind next desc).length = segments kind := by
  cases kind <;> rfl

theorem length_chains (kind : QueueKind) (next : ℕ → ℕ) (inUse : List ℕ) :
    (inUse.flatMap (chain kind next)).length = inUse.length * segments kind := by
  rw [List.length_flatMap]
  simp only [length_chain, List.map_const', List.sum_replicate_nat]

namespace Queue

variable {kind : QueueKind} {q q' : Queue} {free used inUse : List ℕ} {desc : ℕ}

/-- The free list is `free`, and the descriptors `used` are others. -/
structure Owned (q : Queue) (free used : List ℕ) : Prop where
  path : Path q.next LENGTH q.freeDescIndex free
  nodup : (free ++ used).Nodup
  bound : ∀ d ∈ free ++ used, d < LENGTH

theorem Owned.perm {used' : List ℕ} (h : q.Owned free used) (hperm : used.Perm used') :
    q.Owned free used' where
  path := h.path
  nodup := ((hperm.append_left free).nodup_iff).mp h.nodup
  bound d hd := h.bound d ((hperm.append_left free).mem_iff.mpr hd)

theorem Owned.same (h : q.Owned free used) (hnext : q'.next = q.next)
    (hhead : q'.freeDescIndex = q.freeDescIndex) : q'.Owned free used :=
  ⟨by rw [hnext, hhead]; exact h.path, h.nodup, h.bound⟩

theorem Owned.ne_length (h : q.Owned (desc :: free) used) : desc ≠ LENGTH :=
  Nat.ne_of_lt (h.bound desc (by simp))

/-- `alloc_descriptor` takes the head of the free list. -/
theorem Owned.alloc (h : q.Owned (desc :: free) used) : ∃ q', q.allocDescriptor = (desc, q') ∧
    q'.next = q.next ∧ q'.freeDescIndex = q.next desc ∧ q'.Owned free (desc :: used) := by
  obtain ⟨hhead, hne, hrest⟩ := h.path
  refine ⟨{ q with freeDescIndex := q.next desc, numFreeDescs := q.numFreeDescs - 1 }, ?_, rfl, rfl,
    hrest, ?_, fun d hd => h.bound d (List.perm_middle.mem_iff.mp hd)⟩
  · unfold allocDescriptor
    rw [hhead]
    simp only [if_neg hne]
  · exact List.perm_middle.nodup_iff.mpr h.nodup

theorem Owned.alloc_none (h : q.Owned [] used) : q.allocDescriptor = (LENGTH, q) := by
  have hempty : q.freeDescIndex = LENGTH := h.path
  unfold allocDescriptor
  simp only [hempty, if_true]

theorem Owned.freeDescriptor (h : q.Owned free (desc :: used)) :
    (q.freeDescriptor desc).Owned (desc :: free) used := by
  have hperm : (free ++ desc :: used).Perm (desc :: free ++ used) := List.perm_middle
  have hnodup := hperm.nodup_iff.mp h.nodup
  refine ⟨?_, hnodup, fun d hd => h.bound d (hperm.mem_iff.mpr hd)⟩
  refine h.path.push (fun hmem => ?_) (Nat.ne_of_lt (h.bound desc (by simp)))
  exact (List.nodup_cons.mp hnodup).1 (List.mem_append_left used hmem)

theorem free_allocated (h : q.freeDescIndex = q.next desc) :
    (q.freeDescriptor desc).next = q.next := by
  unfold freeDescriptor
  rw [h, Function.update_eq_self]

/-- The descriptors of the requests, and the free list. -/
def Descriptors (kind : QueueKind) (q : Queue) (inUse : List ℕ) : Prop :=
  ∃ free, q.Owned free (inUse.flatMap (chain kind q.next))

theorem Descriptors.perm {inUse' : List ℕ} (h : q.Descriptors kind inUse)
    (hperm : inUse.Perm inUse') : q.Descriptors kind inUse' := by
  obtain ⟨free, hfree⟩ := h
  exact ⟨free, hfree.perm (hperm.flatMap_right _)⟩

/-- Only the links and the head of the free list matter. -/
theorem Descriptors.same (h : q.Descriptors kind inUse) (hnext : q'.next = q.next)
    (hhead : q'.freeDescIndex = q.freeDescIndex) : q'.Descriptors kind inUse := by
  obtain ⟨free, hfree⟩ := h
  refine ⟨free, ?_⟩
  rw [hnext]
  exact hfree.same hnext hhead

/-- `init` links all descriptors in order. -/
theorem owned_start : Owned {} (List.range' 0 LENGTH) [] := by
  have hpath : ∀ n a, a + n = LENGTH → Path (fun i => i + 1) LENGTH a (List.range' a n) := by
    intro n
    induction n with
    | zero => exact fun a ha => ha
    | succ n ih => exact fun a ha => ⟨rfl, by omega, ih (a + 1) (by omega)⟩
  refine ⟨hpath LENGTH 0 (Nat.zero_add _), ?_, ?_⟩
  · simp only [List.append_nil]
    exact List.nodup_range'
  · simp only [List.append_nil, List.mem_range'_1]
    omega

theorem descriptors_start : Descriptors kind {} [] := ⟨List.range' 0 LENGTH, owned_start⟩

/-- Requests have descriptors of their own. -/
theorem Descriptors.length_le (h : q.Descriptors kind inUse) :
    inUse.length * segments kind ≤ LENGTH := by
  obtain ⟨free, hfree⟩ := h
  have hnodup := (List.nodup_append.mp hfree.nodup).2.1
  have hsubset : inUse.flatMap (chain kind q.next) ⊆ List.range LENGTH := fun d hd =>
    List.mem_range.mpr (hfree.bound d (List.mem_append_right free hd))
  have hle := (List.subperm_of_subset hnodup hsubset).length_le
  rwa [List.length_range, length_chains] at hle

theorem Descriptors.submitOne (hkind : ∀ next d, chain kind next d = [d])
    (h : q.Descriptors kind inUse) :
    q.submitOne.2.Descriptors kind (q.submitOne.1.toList ++ inUse) := by
  obtain ⟨free, hfree⟩ := h
  unfold Queue.submitOne
  cases free with
  | nil =>
    simp only [hfree.alloc_none, if_true]
    exact ⟨[], hfree⟩
  | cons d free =>
    obtain ⟨q1, halloc, hnext, -, hrest⟩ := hfree.alloc
    simp only [halloc, if_neg hfree.ne_length]
    refine ⟨free, ?_⟩
    rw [Option.toList_some, List.singleton_append, List.flatMap_cons, hkind]
    show (q1.submitDescriptor d).Owned free (d :: inUse.flatMap (chain kind q1.next))
    rw [hnext]
    exact hrest.same rfl rfl

theorem Descriptors.readWriteBlock (h : q.Descriptors .block inUse) :
    q.readWriteBlock.2.Descriptors .block (q.readWriteBlock.1.toList ++ inUse) := by
  obtain ⟨free, hfree⟩ := id h
  have hhead := hfree.path
  unfold Queue.readWriteBlock
  rcases free with _ | ⟨d1, _ | ⟨d2, _ | ⟨d3, free⟩⟩⟩
  · simp only [hfree.alloc_none, if_true]
    exact h
  · obtain ⟨q1, halloc1, hnext1, hhead1, hfree1⟩ := hfree.alloc
    simp only [halloc1, if_neg hfree.ne_length, hfree1.alloc_none, if_true]
    refine h.same ((free_allocated ?_).trans hnext1) hhead.1.symm
    rw [hhead1, hnext1]
  · obtain ⟨q1, halloc1, hnext1, hhead1, hfree1⟩ := hfree.alloc
    obtain ⟨q2, halloc2, hnext2, hhead2, hfree2⟩ := hfree1.alloc
    simp only [halloc1, if_neg hfree.ne_length, halloc2, if_neg hfree1.ne_length,
      hfree2.alloc_none, if_true]
    have hback : (q2.freeDescriptor d2).next = q2.next :=
      free_allocated (by rw [hhead2, hnext2])
    refine h.same ((free_allocated ?_).trans (hback.trans (hnext2.trans hnext1))) hhead.1.symm
    show d2 = (q2.freeDescriptor d2).next d1
    rw [hback, hnext2, hnext1]
    exact hhead.2.2.1.symm
  · obtain ⟨q1, halloc1, hnext1, hhead1, hfree1⟩ := hfree.alloc
    obtain ⟨q2, halloc2, hnext2, hhead2, hfree2⟩ := hfree1.alloc
    obtain ⟨q3, halloc3, hnext3, hhead3, hfree3⟩ := hfree2.alloc
    simp only [halloc1, if_neg hfree.ne_length, halloc2, if_neg hfree1.ne_length, halloc3,
      if_neg hfree2.ne_length]
    have hd2 : q.next d1 = d2 := hhead.2.2.1
    have hd3 : q.next d2 = d3 := hhead.2.2.2.2.1
    have hq3 : q3.next = q.next := hnext3.trans (hnext2.trans hnext1)
    -- the descriptors are linked in this order already
    have hlinked : (((q3.setNext d1 d2).setNext d2 d3).submitDescriptor d1).next = q.next := by
      show update (update q3.next d1 d2) d2 d3 = q.next
      rw [hq3, ← hd2, Function.update_eq_self, hd2, ← hd3, Function.update_eq_self]
    refine ⟨free, ?_⟩
    rw [hlinked, Option.toList_some, List.singleton_append, List.flatMap_cons]
    have hperm : (d3 :: d2 :: d1 :: inUse.flatMap (chain .block q.next)).Perm
        (chain .block q.next d1 ++ inUse.flatMap (chain .block q.next)) := by
      simp only [chain, hd2, hd3, List.cons_append, List.nil_append]
      exact (List.reverse_perm [d1, d2, d3]).append_right _
    exact (hfree3.perm hperm).same (hlinked.trans hq3.symm) rfl

theorem Descriptors.request (h : q.Descriptors kind inUse) :
    (q.request kind).2.Descriptors kind ((q.request kind).1.toList ++ inUse) := by
  cases kind with
  | block => exact h.readWriteBlock
  | receive => exact h.submitOne fun _ _ => rfl
  | transmit => exact h.submitOne fun _ _ => rfl

theorem Owned.others (h : q.Owned free (chain kind q.next desc ++ inUse.flatMap (chain kind q.next)))
    {next' : ℕ → ℕ} (hnext' : ∀ d ∉ chain kind q.next desc, next' d = q.next d) :
    inUse.flatMap (chain kind next') = inUse.flatMap (chain kind q.next) := by
  refine List.flatMap_congr fun d hd => chain_congr fun a ha => hnext' a fun hmem => ?_
  have hdisjoint := (List.nodup_append.mp (List.nodup_append.mp h.nodup).2.1).2.2
  exact hdisjoint a hmem a (List.mem_flatMap.mpr ⟨d, hd, ha⟩) rfl

/-- The links of a chain are read before they are overwritten. -/
theorem finish_block (h : (chain .block q.next desc).Nodup) :
    q.finish .block desc = ((q.freeDescriptor (q.next (q.next desc))).freeDescriptor
      (q.next desc)).freeDescriptor desc := by
  have hlast : (q.freeDescriptor (q.next (q.next desc))).next desc = q.next desc :=
    update_of_ne (fun heq => by simp [chain, ← heq] at h) _ _
  unfold Queue.finish
  simp only [hlast]

theorem Owned.finish_others
    (h : q.Owned free (chain .block q.next desc ++ inUse.flatMap (chain .block q.next))) :
    inUse.flatMap (chain .block (q.finish .block desc).next) =
      inUse.flatMap (chain .block q.next) := by
  refine h.others fun d hd => ?_
  simp only [chain, List.mem_cons, List.not_mem_nil, or_false, not_or] at hd
  rw [finish_block (List.nodup_append.mp (List.nodup_append.mp h.nodup).2.1).1]
  show update (update (update q.next _ _) _ _) _ _ d = q.next d
  rw [update_of_ne hd.1, update_of_ne hd.2.1, update_of_ne hd.2.2]

theorem chain_perm (next : ℕ → ℕ) (desc : ℕ) (rest : List ℕ) :
    (chain .block next desc ++ rest).Perm
      (next (next desc) :: next desc :: desc :: rest) :=
  (List.reverse_perm [next (next desc), next desc, desc]).append_right _

theorem Descriptors.finish (hkind : kind ≠ .receive) (h : q.Descriptors kind (desc :: inUse)) :
    (q.finish kind desc).Descriptors kind inUse := by
  obtain ⟨free, hfree⟩ := h
  rw [List.flatMap_cons] at hfree
  cases kind with
  | receive => exact absurd rfl hkind
  | transmit =>
    refine ⟨desc :: free, ?_⟩
    rw [hfree.others fun d hd => ?_]
    · exact hfree.freeDescriptor
    · exact update_of_ne (List.ne_of_not_mem_cons hd) _ _
  | block =>
    refine ⟨desc :: q.next desc :: q.next (q.next desc) :: free, ?_⟩
    rw [hfree.finish_others,
      finish_block (List.nodup_append.mp (List.nodup_append.mp hfree.nodup).2.1).1]
    exact (hfree.perm (chain_perm _ _ _)).freeDescriptor.freeDescriptor.freeDescriptor

/-- What the handler reads, which the driver does not write otherwise. -/
def handlerView (q : Queue) : BitVec 16 × (ℕ → ℕ) × ℕ := (q.usedIndex, q.usedRing, q.lastSeenUsed)

@[simp] theorem handlerView_allocDescriptor : q.allocDescriptor.2.handlerView = q.handlerView := by
  unfold allocDescriptor
  dsimp only
  split_ifs <;> rfl

@[simp] theorem handlerView_freeDescriptor : (q.freeDescriptor desc).handlerView = q.handlerView :=
  rfl

@[simp] theorem handlerView_setNext {next : ℕ} :
    (q.setNext desc next).handlerView = q.handlerView := rfl

@[simp] theorem handlerView_submitDescriptor :
    (q.submitDescriptor desc).handlerView = q.handlerView := rfl

theorem handlerView_request (kind : QueueKind) (q : Queue) :
    (q.request kind).2.handlerView = q.handlerView := by
  have hone : q.submitOne.2.handlerView = q.handlerView := by
    unfold Queue.submitOne
    dsimp only
    split_ifs <;> simp
  cases kind with
  | block =>
    show q.readWriteBlock.2.handlerView = q.handlerView
    unfold Queue.readWriteBlock
    dsimp only
    split_ifs <;> simp
  | receive => exact hone
  | transmit => exact hone

theorem handlerView_finish (kind : QueueKind) (q : Queue) (desc : ℕ) :
    (q.finish kind desc).handlerView = q.handlerView := by
  cases kind <;> rfl

end Queue

/-! ## One step -/

namespace Virtqueue

variable {kind : QueueKind} {v : Virtqueue} {o : QueueOp} {desc i : ℕ}

/-- The request that the handler calls back for. -/
def current (v : Virtqueue) : List ℕ :=
  match v.place with
  | .processing _ desc => [desc]
  | _ => []

/-- The requests whose descriptors are not free. -/
def inUse (v : Virtqueue) : List ℕ :=
  v.outstanding ++ (v.completed.drop v.processed.length ++ (v.current ++ v.held))

/-- The place of the handler in the used ring. -/
def At (v : Virtqueue) : HandlerPlace → Prop
  | .idle => v.queue.lastSeenUsed = v.processed.length % LENGTH
  | .checking i => i = v.processed.length % LENGTH
  | .processing i _ => (i + 1) % LENGTH = v.processed.length % LENGTH

/-- What holds throughout the runs in which no completion is left out. -/
structure Sound (kind : QueueKind) (v : Virtqueue) : Prop where
  descriptors : v.queue.Descriptors kind v.inUse
  inOrder : v.processed <+: v.completed
  usedIndex : v.queue.usedIndex = BitVec.ofNat 16 v.completed.length
  usedRing : ∀ j, v.processed.length ≤ j → ∀ desc, v.completed[j]? = some desc →
    v.queue.usedRing (j % LENGTH) = desc
  place : v.At v.place

theorem sound_start : Sound kind {} where
  descriptors := Queue.descriptors_start
  inOrder := List.prefix_rfl
  usedIndex := rfl
  usedRing _ _ _ := nofun
  place := rfl

/-- The place that the index of the device is at. -/
theorem Sound.usedIndex_mod (h : v.Sound kind) :
    v.queue.usedIndex.toNat % LENGTH = v.completed.length % LENGTH := by
  rw [h.usedIndex, BitVec.toNat_ofNat, LENGTH]
  omega

/-- No more completions are waiting than there are descriptors. -/
theorem Sound.waiting_le (h : v.Sound kind) :
    v.outstanding.length + v.completed.length ≤ v.processed.length + LENGTH / segments kind := by
  have hle := h.descriptors.length_le
  have hprefix := h.inOrder.length_le
  simp only [inUse, List.length_append, List.length_drop] at hle
  unfold LENGTH at hle ⊢
  cases kind <;> simp only [segments] at hle ⊢ <;> omega

theorem length_segments (kind : QueueKind) : LENGTH / segments kind ≤ LENGTH := Nat.div_le_self _ _

theorem stepProcesses_of {v' : Virtqueue} (h' : v'.Sound kind)
    (hplace : v.place ≠ .idle → v'.place ≠ .idle) : v.StepProcesses v' :=
  ⟨h'.inOrder, fun hne hidle => absurd hidle (hplace hne)⟩

section

variable (h : v.Sound kind)

include h

/-- A step that the completions and the handler are not touched by. -/
theorem Sound.queue {v' : Virtqueue} (hdescriptors : v'.queue.Descriptors kind v'.inUse)
    (hplace : v'.place = v.place) (hcompleted : v'.completed = v.completed)
    (hprocessed : v'.processed = v.processed) (hview : v'.queue.handlerView = v.queue.handlerView) :
    v'.Sound kind := by
  have hindex : v'.queue.usedIndex = v.queue.usedIndex := congrArg Prod.fst hview
  have hring : v'.queue.usedRing = v.queue.usedRing := congrArg (·.2.1) hview
  have hlast : v'.queue.lastSeenUsed = v.queue.lastSeenUsed := congrArg (·.2.2) hview
  refine ⟨hdescriptors, ?_, ?_, ?_, ?_⟩
  · rw [hcompleted, hprocessed]
    exact h.inOrder
  · rw [hindex, hcompleted]
    exact h.usedIndex
  · rw [hring, hcompleted, hprocessed]
    exact h.usedRing
  · have hat := h.place
    rw [hplace]
    cases hp : v.place <;> rw [hp] at hat <;> unfold At at hat ⊢
    · rw [hlast, hprocessed]
      exact hat
    · rw [hprocessed]
      exact hat
    · rw [hprocessed]
      exact hat

theorem Sound.request : (v.step kind .request).Sound kind := by
  have hused := Queue.handlerView_request kind v.queue
  have hdescriptors := h.descriptors.request
  unfold step
  generalize v.queue.request kind = result at hused hdescriptors ⊢
  obtain ⟨r, q⟩ := result
  cases r with
  | none => exact h.queue hdescriptors rfl rfl rfl hused
  | some d => exact h.queue hdescriptors rfl rfl rfl hused

theorem Sound.resubmit : (v.step kind (.resubmit desc)).Sound kind := by
  unfold step
  dsimp only
  split_ifs with hheld
  · have hperm : v.inUse.Perm (desc :: v.outstanding ++ (v.completed.drop v.processed.length ++
        (v.current ++ v.held.erase desc))) := by
      have herase := ((((List.perm_cons_erase hheld).append_left v.current).append_left
        (v.completed.drop v.processed.length)).append_left v.outstanding)
      refine herase.trans ?_
      simp only [← List.append_assoc]
      exact List.perm_middle
    exact h.queue ((h.descriptors.perm hperm).same rfl rfl) rfl rfl rfl rfl
  · exact h

/-- A completed request keeps its descriptors until it is processed. -/
theorem Sound.complete_inUse (hmem : desc ∈ v.outstanding) :
    v.inUse.Perm (v.complete desc).inUse := by
  have hle := h.inOrder.length_le
  have hafter : (v.complete desc).inUse = (v.outstanding.erase desc ++
      v.completed.drop v.processed.length) ++ desc :: (v.current ++ v.held) := by
    show v.outstanding.erase desc ++ ((v.completed ++ [desc]).drop v.processed.length ++
      (v.current ++ v.held)) = _
    rw [List.drop_append_of_le_length hle, List.append_assoc, List.append_assoc,
      List.singleton_append]
  rw [hafter]
  refine ((List.perm_cons_erase hmem).append_right _).trans ?_
  rw [List.cons_append, ← List.append_assoc]
  exact List.perm_middle.symm

theorem Sound.complete (hmem : desc ∈ v.outstanding) : (v.complete desc).Sound kind := by
  have hwaiting := h.waiting_le.trans (Nat.add_le_add_left (length_segments kind) _)
  have hpos := List.length_pos_of_mem hmem
  constructor
  · exact (h.descriptors.perm (h.complete_inUse hmem)).same rfl rfl
  · exact h.inOrder.trans (List.prefix_append _ _)
  · show v.queue.usedIndex + 1#16 = BitVec.ofNat 16 (v.completed ++ [desc]).length
    rw [h.usedIndex, List.length_append, List.length_singleton, BitVec.ofNat_add]
  · intro j hj d hd
    show update v.queue.usedRing (v.queue.usedIndex.toNat % LENGTH) desc (j % LENGTH) = d
    rw [h.usedIndex_mod]
    change (v.completed ++ [desc])[j]? = some d at hd
    change v.processed.length ≤ j at hj
    rcases Nat.lt_trichotomy j v.completed.length with hlt | heq | hgt
    · rw [List.getElem?_append_left hlt] at hd
      rw [update_of_ne]
      · exact h.usedRing j hj d hd
      · unfold LENGTH at hwaiting ⊢
        omega
    · rw [heq, List.getElem?_concat_length] at hd
      rw [heq, update_self]
      exact Option.some.inj hd
    · rw [List.getElem?_eq_none (by rw [List.length_append]; exact hgt)] at hd
      cases hd
  · exact h.place

/-- Where the places differ, there is a completion, and it stands at the place of the handler. -/
theorem Sound.next_completion (hplace : v.place = .checking i)
    (hnew : i ≠ v.queue.usedIndex.toNat % LENGTH) :
    v.completed[v.processed.length]? = some (v.queue.usedRing i) := by
  have hle := h.inOrder.length_le
  have hat := h.place
  rw [hplace] at hat
  have hi : i = v.processed.length % LENGTH := hat
  rw [hi, h.usedIndex_mod] at hnew
  have hlt : v.processed.length < v.completed.length :=
    lt_of_le_of_ne hle fun heq => hnew (by rw [heq])
  have hdesc : v.queue.usedRing i = v.completed[v.processed.length] := by
    rw [hi]
    exact h.usedRing _ le_rfl _ (List.getElem?_eq_getElem hlt)
  rw [hdesc]
  exact List.getElem?_eq_getElem hlt

end

theorem take_inUse (hplace : v.place = .checking i)
    (hnext : v.completed[v.processed.length]? = some desc) :
    v.inUse.Perm (inUse { v with
      place := .processing i desc, processed := v.processed ++ [desc] }) := by
  obtain ⟨hlt, hdesc⟩ := List.getElem?_eq_some_iff.mp hnext
  unfold inUse
  simp only [current, hplace, List.length_append, List.length_singleton, List.nil_append]
  rw [List.drop_eq_getElem_cons hlt, hdesc]
  exact List.perm_middle.symm.append_left _

/-- The handler is done with a request. -/
theorem finish_inUse (hplace : v.place = .processing i desc) (q : Queue) (j : ℕ) :
    v.inUse.Perm (desc :: inUse { v with queue := q, place := .checking j }) := by
  unfold inUse
  simp only [current, hplace]
  rw [← List.append_assoc]
  exact List.perm_middle.trans (List.Perm.cons desc (by rw [List.append_assoc]; rfl))

theorem Sound.handle_iff (h : v.Sound kind) :
    (v.StepProcesses (v.step kind .handle) ↔ v.Allows .handle) ∧
      (v.Allows .handle → (v.step kind .handle).Sound kind) := by
  have hle := h.inOrder.length_le
  have hwaiting := h.waiting_le.trans (Nat.add_le_add_left (length_segments kind) _)
  have hat := h.place
  have hgood : v.Allows .handle → (v.step kind .handle).Sound kind →
      v.StepProcesses (v.step kind .handle) →
      (v.StepProcesses (v.step kind .handle) ↔ v.Allows .handle) ∧
        (v.Allows .handle → (v.step kind .handle).Sound kind) :=
    fun hallows hsound hprocesses => ⟨iff_of_true hprocesses hallows, fun _ => hsound⟩
  cases hplace : v.place with
  | idle =>
    have hstep : v.step kind .handle = v := by simp only [step, handle, hplace]
    have hallows : v.Allows .handle := fun _ ⟨_, hi⟩ => (nomatch hplace.symm.trans hi)
    rw [hstep] at hgood ⊢
    exact hgood hallows h (stepProcesses_of h id)
  | checking i =>
    rw [hplace] at hat
    have hi : i = v.processed.length % LENGTH := hat
    by_cases hnew : i ≠ v.queue.usedIndex.toNat % LENGTH
    · -- there is a completion, and it stands at `i`
      have hstep : v.step kind .handle = { v with
          place := .processing i (v.queue.usedRing i)
          processed := v.processed ++ [v.queue.usedRing i] } := by
        simp only [step, handle, hplace, if_pos hnew]
      have hnext := h.next_completion hplace hnew
      obtain ⟨hlt, hdesc⟩ := List.getElem?_eq_some_iff.mp hnext
      rw [hi, h.usedIndex_mod] at hnew
      have hallows : v.Allows .handle := by
        intro _ _ heq
        rw [heq, Nat.add_mod_right] at hnew
        exact hnew rfl
      have hprefix : v.processed ++ [v.queue.usedRing i] <+: v.completed := by
        have htake := List.take_append_getElem hlt
        rw [← List.prefix_iff_eq_take.mp h.inOrder] at htake
        rw [← hdesc, htake]
        exact List.take_prefix _ _
      have hlength : (v.processed ++ [v.queue.usedRing i]).length = v.processed.length + 1 :=
        List.length_append
      have hsound : (v.step kind .handle).Sound kind := by
        rw [hstep]
        refine ⟨?_, hprefix, h.usedIndex, fun j hj => h.usedRing j ?_, ?_⟩
        · exact (h.descriptors.perm (take_inUse hplace hnext)).same rfl rfl
        · rw [hlength] at hj
          exact Nat.le_of_succ_le hj
        · show (i + 1) % LENGTH = (v.processed ++ [v.queue.usedRing i]).length % LENGTH
          rw [hlength, hi, Nat.mod_add_mod]
      refine hgood hallows hsound ⟨hsound.inOrder, fun _ hidle => ?_⟩
      rw [hstep] at hidle
      cases hidle
    · have hstep : v.step kind .handle = { v with
          queue := { v.queue with lastSeenUsed := i }, place := .idle } := by
        simp only [step, handle, hplace, if_neg hnew]
      rw [not_not, hi, h.usedIndex_mod] at hnew
      have hsound : (v.step kind .handle).Sound kind := by
        rw [hstep]
        refine ⟨?_, h.inOrder, h.usedIndex, h.usedRing, hi⟩
        have hdescriptors := h.descriptors
        unfold inUse at hdescriptors
        simp only [current, hplace] at hdescriptors
        exact hdescriptors.same rfl rfl
      refine ⟨?_, fun _ => hsound⟩
      -- the two places agree if nothing is waiting, or if everything is
      have hcount : v.completed.length ≠ v.processed.length + LENGTH ↔
          v.processed.length = v.completed.length := by
        unfold LENGTH at hnew hwaiting ⊢
        omega
      rw [hstep]
      constructor
      · intro hprocesses _ _
        have hall := hprocesses.all (by rw [hplace]; nofun) rfl
        exact hcount.mpr (congrArg List.length hall)
      · intro hallows
        have hall := h.inOrder.eq_of_length (hcount.mp (hallows rfl ⟨i, hplace⟩))
        exact ⟨h.inOrder, fun _ _ => hall⟩
  | processing i d =>
    rw [hplace] at hat
    have hallows : v.Allows .handle := fun _ ⟨_, hi⟩ => (nomatch hplace.symm.trans hi)
    have hchecking : (v.step kind .handle).place = .checking ((i + 1) % LENGTH) := by
      simp only [step, handle, hplace]
      cases kind <;> rfl
    have hsound : (v.step kind .handle).Sound kind := by
      have hdescriptors := h.descriptors
      have hfinish : kind ≠ .receive → Sound kind { v with
          queue := v.queue.finish kind d, place := .checking ((i + 1) % LENGTH) } := by
        intro hkind
        have hview := Queue.handlerView_finish kind v.queue d
        refine ⟨?_, h.inOrder, (congrArg Prod.fst hview).trans h.usedIndex, ?_, hat⟩
        · exact (hdescriptors.perm (finish_inUse hplace _ _)).finish hkind
        · rw [show (v.queue.finish kind d).usedRing = v.queue.usedRing from congrArg (·.2.1) hview]
          exact h.usedRing
      cases kind with
      | receive =>
        have hstep : v.step .receive .handle = { v with
            queue := { v.queue with lastSeenUsed := (i + 1) % LENGTH }
            place := .checking ((i + 1) % LENGTH)
            held := d :: v.held } := by
          simp only [step, handle, hplace]
        rw [hstep]
        unfold inUse at hdescriptors
        simp only [current, hplace] at hdescriptors
        exact ⟨hdescriptors.same rfl rfl, h.inOrder, h.usedIndex, h.usedRing, hat⟩
      | block =>
        simp only [step, handle, hplace]
        exact hfinish nofun
      | transmit =>
        simp only [step, handle, hplace]
        exact hfinish nofun
    refine hgood hallows hsound ⟨hsound.inOrder, fun _ hidle => ?_⟩
    rw [hchecking] at hidle
    cases hidle

/-- When a step leaves no completion out. -/
theorem Sound.step_iff (h : v.Sound kind) :
    (v.StepProcesses (v.step kind o) ↔ v.Allows o) ∧
      (v.Allows o → (v.step kind o).Sound kind) := by
  have hother : o ≠ .handle → (v.step kind o).Sound kind →
      (v.place ≠ .idle → (v.step kind o).place ≠ .idle) →
      (v.StepProcesses (v.step kind o) ↔ v.Allows o) ∧
        (v.Allows o → (v.step kind o).Sound kind) :=
    fun ho hsound hplace => ⟨iff_of_true (stepProcesses_of hsound hplace) fun heq => absurd heq ho,
      fun _ => hsound⟩
  cases o with
  | request =>
    refine hother nofun h.request fun hne => ?_
    unfold step
    cases v.queue.request kind with
    | mk r q => cases r <;> exact hne
  | resubmit desc =>
    refine hother nofun h.resubmit fun hne => ?_
    unfold step
    dsimp only
    split_ifs <;> exact hne
  | complete desc =>
    by_cases hmem : desc ∈ v.outstanding
    · rw [show v.step kind (.complete desc) = v.complete desc from if_pos hmem] at hother ⊢
      exact hother nofun (h.complete hmem) id
    · rw [show v.step kind (.complete desc) = v from if_neg hmem] at hother ⊢
      exact hother nofun h id
  | interrupt =>
    cases hplace : v.place with
    | idle =>
      have hat := h.place
      rw [hplace] at hat
      have hstep : v.step kind .interrupt = { v with place := .checking v.queue.lastSeenUsed } := by
        simp only [step, hplace]
      rw [hstep] at hother ⊢
      have hcurrent : v.current = [] := by simp only [current, hplace]
      refine hother nofun ⟨?_, h.inOrder, h.usedIndex, h.usedRing, hat⟩ fun _ => nofun
      have hdescriptors := h.descriptors
      rwa [inUse, hcurrent] at hdescriptors
    | _ =>
      have hstep : v.step kind .interrupt = v := by simp only [step, hplace]
      rw [hstep] at hother ⊢
      exact hother nofun h id
  | handle => exact h.handle_iff

theorem Sound.processes_iff (h : v.Sound kind) {ops : List QueueOp} :
    v.Processes kind ops ↔ v.AllowsAll kind ops := by
  induction ops generalizing v with
  | nil => exact Iff.rfl
  | cons o ops ih =>
    obtain ⟨hiff, hsound⟩ := h.step_iff (o := o)
    constructor
    · rintro ⟨hprocesses, hrest⟩
      have hallows := hiff.mp hprocesses
      exact ⟨hallows, (ih (hsound hallows)).mp hrest⟩
    · rintro ⟨hallows, hrest⟩
      exact ⟨hiff.mpr hallows, (ih (hsound hallows)).mpr hrest⟩

/-- The three descriptors of a block request leave no room for as many completions as there are
    descriptors. -/
theorem Sound.block_allows {v : Virtqueue} (h : v.Sound .block) (o : QueueOp) : v.Allows o :=
  fun _ _ heq => by
    have hwaiting := h.waiting_le
    rw [heq] at hwaiting
    simp only [LENGTH, segments] at hwaiting
    omega

theorem Sound.block_step {v : Virtqueue} (h : v.Sound .block) (o : QueueOp) :
    (v.step .block o).Sound .block :=
  h.step_iff.2 (h.block_allows o)

theorem Sound.block_processes {v : Virtqueue} (h : v.Sound .block) (ops : List QueueOp) :
    v.Processes .block ops := by
  induction ops generalizing v with
  | nil => trivial
  | cons o ops ih =>
    exact ⟨h.step_iff.1.mpr (h.block_allows o), ih (h.block_step o)⟩

theorem Processes.append {ops rest : List QueueOp} (h : v.Processes kind (ops ++ rest)) :
    (ops.foldl (step kind) v).Processes kind rest := by
  induction ops generalizing v with
  | nil => exact h
  | cons o ops ih => exact ih h.2

end Virtqueue

/-- **Main theorem.** In a run of a queue the handlers process every completion once and in order,
    exactly if none of them looks for completions when as many as there are descriptors are
    waiting. -/
theorem handlers_process_iff (kind : QueueKind) (ops : List QueueOp) :
    Virtqueue.Processes kind {} ops ↔ Virtqueue.AllowsAll kind {} ops :=
  Virtqueue.sound_start.processes_iff

/-- In every run of a block queue every completion is processed once and in order. -/
theorem handlers_process_block (ops : List QueueOp) : Virtqueue.Processes .block {} ops :=
  Virtqueue.sound_start.block_processes ops

/-- All descriptors of a receive queue are completed before an interrupt. -/
def fullRing : List QueueOp :=
  List.replicate 128 .request ++ (List.range 128).map .complete ++ [.interrupt]

/-- Its handler processes none of them. -/
theorem fullRing_missed :
    (fullRing.foldl (Virtqueue.step .receive) {}).completed = List.range 128 ∧
      ((fullRing.foldl (Virtqueue.step .receive) {}).step .receive .handle).place = .idle ∧
      ((fullRing.foldl (Virtqueue.step .receive) {}).step .receive .handle).processed = [] ∧
      ¬Virtqueue.Processes .receive {} (fullRing ++ [.handle]) := by
  have hrun : (let v := fullRing.foldl (Virtqueue.step .receive) {}
      let v' := v.step .receive .handle
      (v.completed, v.place, v'.place, v'.processed, v'.completed)) =
        (List.range 128, .checking 0, .idle, [], List.range 128) := by decide +kernel
  obtain ⟨hcompleted, hchecking, hplace, hprocessed, hall⟩ := by
    simpa only [Prod.mk.injEq] using hrun
  refine ⟨hcompleted, hplace, hprocessed, fun h => ?_⟩
  have hsame := h.append.1.all (by rw [hchecking]; exact nofun) hplace
  rw [hprocessed, hall] at hsame
  exact absurd (congrArg List.length hsame) (by rw [List.length_range]; exact nofun)

end Fishix.Dev
