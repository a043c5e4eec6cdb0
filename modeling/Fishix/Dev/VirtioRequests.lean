import Fishix.Dev.Block
import Fishix.Dev.Virtqueue

/-!
# Block requests

Model of the request pool of `virtio::BlockDevice` and of `read_write_block`
(dev/virtio.cpp:134-149, 176-251) over its virtqueue. A request structure is taken first and the
three descriptors one by one; without descriptors all of them go back. The handler finds the
structure again by the address in the first descriptor of the chain, calls back, and frees both.

* `readWriteBlock_cases`: what a call does.
* `requests_accounted`: where descriptors and request structures are, in every run.
-/

namespace Fishix.Dev.Virtio

open Block (Direction)
open Function (update update_self update_of_ne)

abbrev U16 := BitVec 16
abbrev U32 := BitVec 32
abbrev U64 := BitVec 64

/-! ## The device -/

/-- What the address of a descriptor is the address of. -/
inductive Address
  | null
  /-- `request_header` of a request structure. -/
  | header (request : ℕ)
  | page (phy : U64)
  /-- `request_status` of a request structure. -/
  | status (request : ℕ)
  deriving DecidableEq

/-- `Queue::Descriptor` (dev/virtio.hpp:13-21), but for the link. -/
structure Descriptor where
  address : Address := .null
  length : U32 := 0#32
  flags : U16 := 0#16

def FLAG_NEXT : U16 := 1#16 <<< 0
def FLAG_DEVICE_WRITE : U16 := 1#16 <<< 1

def TYPE_IN : U32 := 0#32
def TYPE_OUT : U32 := 1#32

/-- `BlockDevice::Request` (dev/virtio.hpp:98-103): the link, and the header. -/
structure Request where
  next : Option ℕ := none
  type : U32 := 0#32
  sector : U64 := 0#64

/-- `PAGE_SIZE / sizeof(Request)`. -/
def NUM_REQUESTS : ℕ := 4096 / 48

/-- `BlockDevice`: the queue with the device behind it, the descriptors but for their links, the
    page of requests, and the request that the handler calls back for. -/
structure BlockDevice where
  virtqueue : Virtqueue := {}
  descriptors : ℕ → Descriptor := fun _ => {}
  requests : ℕ → Request
  firstFreeRequest : Option ℕ
  handled : Option ℕ := none

/-- What a call of `read_write_block` comes to. -/
inductive Outcome
  | submitted (desc : ℕ)
  /-- `-ENOMEM`. -/
  | noMemory
  /-- `free_request` of a null pointer. -/
  | fault
  deriving DecidableEq

namespace BlockDevice

variable (b : BlockDevice)

/-- `BlockDevice::init` (dev/virtio.cpp:134-149). -/
def init : BlockDevice where
  requests i := { next := if i ≠ NUM_REQUESTS - 1 then some (i + 1) else none }
  firstFreeRequest := some 0

/-- `BlockDevice::alloc_request`. -/
def allocRequest : Option ℕ × BlockDevice :=
  match b.firstFreeRequest with
  | none => (none, b)
  | some request => (some request, { b with firstFreeRequest := (b.requests request).next })

/-- `BlockDevice::free_request`. -/
def freeRequest (request : ℕ) : BlockDevice :=
  { b with
    requests := update b.requests request
      { b.requests request with next := b.firstFreeRequest }
    firstFreeRequest := some request }

/-- `request->request_header` (dev/virtio.cpp:208-209). -/
def setHeader (request : ℕ) (block : U64) (direction : Direction) : BlockDevice :=
  { b with
    requests := update b.requests request
      { b.requests request with
        type := match direction with
          | .write => TYPE_OUT
          | .read => TYPE_IN
        sector := block * 8#64 } }

/-- The fields of a descriptor but for the link. -/
def setDescriptor (desc : ℕ) (d : Descriptor) : BlockDevice :=
  { b with descriptors := update b.descriptors desc d }

def setQueue (q : Queue) : BlockDevice :=
  { b with virtqueue := { b.virtqueue with queue := q } }

/-- `BlockDevice::read_write_block` (dev/virtio.cpp:200-251). What has been taken goes back in the
    opposite order. -/
def readWriteBlock (block pagePhy : U64) (direction : Direction) : Outcome × BlockDevice :=
  match b.allocRequest with
  | (none, b) => (.fault, b)
  | (some request, b) =>
    let b := b.setHeader request block direction
    let (desc1, q) := b.virtqueue.queue.allocDescriptor
    let b := b.setQueue q
    if desc1 = LENGTH then (.noMemory, b.freeRequest request)
    else
      let b := b.setDescriptor desc1
        { address := .header request, length := 16#32, flags := FLAG_NEXT }
      let (desc2, q) := b.virtqueue.queue.allocDescriptor
      let b := b.setQueue q
      if desc2 = LENGTH then
        (.noMemory, (b.setQueue (b.virtqueue.queue.freeDescriptor desc1)).freeRequest request)
      else
        let b := b.setDescriptor desc2
          { address := .page pagePhy
            length := 4096#32
            flags := FLAG_NEXT ||| match direction with
              | .write => 0#16
              | .read => FLAG_DEVICE_WRITE }
        let (desc3, q) := b.virtqueue.queue.allocDescriptor
        let b := b.setQueue q
        if desc3 = LENGTH then
          let b := b.setQueue (b.virtqueue.queue.freeDescriptor desc2)
          (.noMemory, (b.setQueue (b.virtqueue.queue.freeDescriptor desc1)).freeRequest request)
        else
          let b := b.setDescriptor desc3
            { address := .status request, length := 1#32, flags := FLAG_DEVICE_WRITE }
          let q := (b.virtqueue.queue.setNext desc1 desc2).setNext desc2 desc3
          (.submitted desc1, { b with
            virtqueue := { b.virtqueue with
              queue := q.submitDescriptor desc1
              outstanding := desc1 :: b.virtqueue.outstanding } })

/-- The handler goes on (dev/virtio.cpp:180-188). It looks up the request structure before it calls
    back, and frees it and the descriptors behind that. -/
def handle : BlockDevice :=
  let virtqueue := b.virtqueue.handle .block
  match b.virtqueue.place with
  | .idle => b
  | .checking _ =>
    match virtqueue.place with
    | .processing _ desc =>
      { b with
        virtqueue
        handled := match (b.descriptors desc).address with
          | .header request => some request
          | _ => none }
    | _ => { b with virtqueue }
  | .processing _ _ =>
    match b.handled with
    | some request => { b.freeRequest request with virtqueue, handled := none }
    | none => { b with virtqueue }

end BlockDevice

/-- A call, or a step of the device or the handler. Calls come while the handler calls back, too. -/
inductive BlockOp
  | readWriteBlock (block pagePhy : U64) (direction : Direction)
  | complete (desc : ℕ)
  | interrupt
  | handle

def BlockDevice.step (b : BlockDevice) : BlockOp → BlockDevice
  | .readWriteBlock block pagePhy direction => (b.readWriteBlock block pagePhy direction).2
  | .complete desc => { b with virtqueue := b.virtqueue.step .block (.complete desc) }
  | .interrupt => { b with virtqueue := b.virtqueue.step .block .interrupt }
  | .handle => b.handle

/-! ## Free lists -/

/-- The free list is `free`, its length is known, and the descriptors `used` are others. -/
structure Counted (q : Queue) (free used : List ℕ) : Prop extends q.Owned free used where
  count : q.numFreeDescs = free.length

namespace Counted

variable {q q' : Queue} {free used used' : List ℕ} {desc : ℕ}

theorem perm (h : Counted q free used) (hperm : used.Perm used') : Counted q free used' :=
  ⟨h.toOwned.perm hperm, h.count⟩

theorem same (h : Counted q free used) (hnext : q'.next = q.next)
    (hhead : q'.freeDescIndex = q.freeDescIndex) (hcount : q'.numFreeDescs = q.numFreeDescs) :
    Counted q' free used :=
  ⟨h.toOwned.same hnext hhead, hcount.trans h.count⟩

theorem alloc (h : Counted q (desc :: free) used) : ∃ q', q.allocDescriptor = (desc, q') ∧
    q'.next = q.next ∧ q'.freeDescIndex = q.next desc ∧ Counted q' free (desc :: used) := by
  obtain ⟨q', halloc, hnext, hhead, howned⟩ := h.toOwned.alloc
  refine ⟨q', halloc, hnext, hhead, howned, ?_⟩
  have hcount : q.allocDescriptor.2.numFreeDescs = q.numFreeDescs - 1 := by
    unfold Queue.allocDescriptor at halloc ⊢
    have hne : q.freeDescIndex ≠ LENGTH := by
      rw [h.path.1]
      exact h.toOwned.ne_length
    simp only [if_neg hne]
  rw [halloc, h.count] at hcount
  exact hcount

theorem freeDescriptor (h : Counted q free (desc :: used)) :
    Counted (q.freeDescriptor desc) (desc :: free) used :=
  ⟨h.toOwned.freeDescriptor, congrArg (· + 1) h.count⟩

end Counted

/-- From `first` the links lead through the request structures `free`. -/
def RequestPath (requests : ℕ → Request) (first : Option ℕ) (free : List ℕ) : Prop :=
  Path (fun r => r.bind fun i => (requests i).next) none first (free.map some)

namespace RequestPath

variable {requests requests' : ℕ → Request} {first : Option ℕ} {free : List ℕ} {request : ℕ}

theorem congr (h : RequestPath requests first free)
    (hnext : ∀ i ∈ free, (requests' i).next = (requests i).next) :
    RequestPath requests' first free := by
  refine Path.congr h fun r hr => ?_
  obtain ⟨i, hi, rfl⟩ := List.mem_map.mp hr
  exact hnext i hi

theorem cons_iff : RequestPath requests first (request :: free) ↔
    first = some request ∧ RequestPath requests (requests request).next free := by
  unfold RequestPath
  rw [List.map_cons, Path]
  exact and_congr_right fun _ => and_iff_right nofun

theorem length_pos_iff (h : RequestPath requests first free) : first ≠ none ↔ free ≠ [] := by
  cases free with
  | nil =>
    have hnone : first = none := h
    simp [hnone]
  | cons request free =>
    rw [(cons_iff.mp h).1]
    simp

end RequestPath

/-! ## What a call does -/

/-- Everything that has been taken went back: the links and the heads of both free lists are as they
    were, and of the descriptors only free ones have been written. -/
structure Undone (b b' : BlockDevice) (free : List ℕ) : Prop where
  next : b'.virtqueue.queue.next = b.virtqueue.queue.next
  head : b'.virtqueue.queue.freeDescIndex = b.virtqueue.queue.freeDescIndex
  count : b'.virtqueue.queue.numFreeDescs = b.virtqueue.queue.numFreeDescs
  virtqueue : b'.virtqueue = { b.virtqueue with queue := b'.virtqueue.queue }
  descriptors : ∀ d ∉ free, b'.descriptors d = b.descriptors d
  requests : ∀ i, (b'.requests i).next = (b.requests i).next
  first : b'.firstFreeRequest = b.firstFreeRequest
  handled : b'.handled = b.handled

/-- The first three free descriptors and the first free request structure have been taken, and the
    first descriptor leads back to the structure. -/
structure Taken (b b' : BlockDevice) (desc1 desc2 desc3 request : ℕ) : Prop where
  next : b'.virtqueue.queue.next = b.virtqueue.queue.next
  links : b.virtqueue.queue.next desc1 = desc2 ∧ b.virtqueue.queue.next desc2 = desc3
  head : b'.virtqueue.queue.freeDescIndex = b.virtqueue.queue.next desc3
  count : b'.virtqueue.queue.numFreeDescs = b.virtqueue.queue.numFreeDescs - 3
  virtqueue : b'.virtqueue = { b.virtqueue with
    queue := b'.virtqueue.queue, outstanding := desc1 :: b.virtqueue.outstanding }
  address : (b'.descriptors desc1).address = .header request
  descriptors : ∀ d ∉ [desc1, desc2, desc3], b'.descriptors d = b.descriptors d
  requests : ∀ i, (b'.requests i).next = (b.requests i).next
  first : b.firstFreeRequest = some request ∧ b'.firstFreeRequest = (b.requests request).next
  handled : b'.handled = b.handled

section Call

variable {b : BlockDevice} {free used requests : List ℕ} {request : ℕ}

/-- A structure that is written keeps its link. -/
theorem update_next {requests : ℕ → Request} {x : Request} (h : x.next = (requests request).next)
    (i : ℕ) : (update requests request x i).next = (requests i).next := by
  by_cases hi : i = request
  · rw [hi, update_self, h]
  · rw [update_of_ne hi]

/-- A structure that goes back to where it was taken from. -/
theorem update_update_next {requests : ℕ → Request} {x y : Request}
    (hx : x.next = (requests request).next) (hy : y.next = (requests request).next) (i : ℕ) :
    (update (update requests request x) request y i).next =
      (requests i).next :=
  (update_next (hy.trans (update_next hx request).symm) i).trans (update_next hx i)

/-- A call takes what it needs, or nothing. -/
theorem readWriteBlock_cases (hq : Counted b.virtqueue.queue free used)
    (hr : RequestPath b.requests b.firstFreeRequest (request :: requests)) (block pagePhy : U64)
    (direction : Direction) :
    (b.readWriteBlock block pagePhy direction).2.virtqueue = b.virtqueue.step .block .request ∧
    ((∃ desc1 desc2 desc3 rest, free = desc1 :: desc2 :: desc3 :: rest ∧
        (b.readWriteBlock block pagePhy direction).1 = .submitted desc1 ∧
        Taken b (b.readWriteBlock block pagePhy direction).2 desc1 desc2 desc3 request) ∨
      (free.length < 3 ∧ (b.readWriteBlock block pagePhy direction).1 = .noMemory ∧
        Undone b (b.readWriteBlock block pagePhy direction).2 free)) := by
  have hfirst := (RequestPath.cons_iff.mp hr).1
  have hhead := hq.path
  unfold BlockDevice.readWriteBlock Virtqueue.step Queue.request Queue.readWriteBlock
  simp only [BlockDevice.allocRequest, hfirst]
  rcases free with _ | ⟨d1, _ | ⟨d2, _ | ⟨d3, free⟩⟩⟩
  · have halloc := hq.toOwned.alloc_none
    simp only [halloc, BlockDevice.setHeader, BlockDevice.setQueue, if_true]
    refine ⟨rfl, .inr ⟨by simp, trivial, rfl, rfl, rfl, rfl, fun _ _ => rfl, ?_, hfirst.symm, rfl⟩⟩
    exact update_update_next rfl rfl
  · obtain ⟨q1, halloc1, hnext1, hhead1, hfree1⟩ := hq.alloc
    simp only [halloc1, BlockDevice.setHeader, BlockDevice.setQueue, BlockDevice.setDescriptor,
      if_neg hq.toOwned.ne_length, hfree1.toOwned.alloc_none, if_true]
    refine ⟨rfl, .inr ⟨by simp, trivial, ?_, ?_, ?_, rfl, ?_, ?_, hfirst.symm, rfl⟩⟩
    · exact (Queue.free_allocated (by rw [hhead1, hnext1])).trans hnext1
    · exact hhead.1.symm
    · rw [hq.count]
      exact congrArg (· + 1) hfree1.count
    · exact fun d hd => update_of_ne (List.ne_of_not_mem_cons hd) _ _
    · exact update_update_next rfl rfl
  · obtain ⟨q1, halloc1, hnext1, hhead1, hfree1⟩ := hq.alloc
    obtain ⟨q2, halloc2, hnext2, hhead2, hfree2⟩ := hfree1.alloc
    simp only [halloc1, BlockDevice.setHeader, BlockDevice.setQueue, BlockDevice.setDescriptor,
      if_neg hq.toOwned.ne_length, halloc2, if_neg hfree1.toOwned.ne_length,
      hfree2.toOwned.alloc_none, if_true]
    have hback : (q2.freeDescriptor d2).next = q2.next :=
      Queue.free_allocated (by rw [hhead2, hnext2])
    refine ⟨rfl, .inr ⟨by simp, trivial, ?_, ?_, ?_, rfl, ?_, ?_, hfirst.symm, rfl⟩⟩
    · refine (Queue.free_allocated ?_).trans (hback.trans (hnext2.trans hnext1))
      show d2 = (q2.freeDescriptor d2).next d1
      rw [hback, hnext2, hnext1]
      exact hhead.2.2.1.symm
    · exact hhead.1.symm
    · rw [hq.count]
      exact congrArg (· + 2) hfree2.count
    · intro d hd
      have hne := List.ne_of_not_mem_cons hd
      have hne2 := List.ne_of_not_mem_cons (List.not_mem_of_not_mem_cons hd)
      show update (update b.descriptors d1 _) d2 _ d = _
      rw [update_of_ne hne2, update_of_ne hne]
    · exact update_update_next rfl rfl
  · obtain ⟨q1, halloc1, hnext1, hhead1, hfree1⟩ := hq.alloc
    obtain ⟨q2, halloc2, hnext2, hhead2, hfree2⟩ := hfree1.alloc
    obtain ⟨q3, halloc3, hnext3, hhead3, hfree3⟩ := hfree2.alloc
    simp only [halloc1, BlockDevice.setHeader, BlockDevice.setQueue, BlockDevice.setDescriptor,
      if_neg hq.toOwned.ne_length, halloc2, if_neg hfree1.toOwned.ne_length, halloc3,
      if_neg hfree2.toOwned.ne_length]
    have hd2 : b.virtqueue.queue.next d1 = d2 := hhead.2.2.1
    have hd3 : b.virtqueue.queue.next d2 = d3 := hhead.2.2.2.2.1
    have hq3 : q3.next = b.virtqueue.queue.next := hnext3.trans (hnext2.trans hnext1)
    have hnodup : [d1, d2, d3].Nodup :=
      ((List.sublist_append_left [d1, d2, d3] free).trans
        (List.sublist_append_left _ used)).nodup hq.nodup
    refine ⟨trivial, .inl ⟨d1, d2, d3, free, rfl, rfl, ?_, ⟨hd2, hd3⟩, ?_, ?_, rfl, ?_, ?_, ?_,
      ⟨hfirst, rfl⟩, rfl⟩⟩
    · show update (update q3.next d1 d2) d2 d3 = b.virtqueue.queue.next
      rw [hq3, ← hd2, Function.update_eq_self, hd2, ← hd3, Function.update_eq_self]
    · show q3.freeDescIndex = b.virtqueue.queue.next d3
      rw [hhead3, hnext2, hnext1]
    · show q3.numFreeDescs = b.virtqueue.queue.numFreeDescs - 3
      rw [hfree3.count, hq.count]
      rfl
    · simp only [List.nodup_cons, List.mem_cons, List.not_mem_nil, or_false, not_or] at hnodup
      show (update (update (update b.descriptors d1 _) d2 _) d3 _
        d1).address = _
      rw [update_of_ne hnodup.1.2, update_of_ne hnodup.1.1, update_self]
    · intro d hd
      simp only [List.mem_cons, List.not_mem_nil, or_false, not_or] at hd
      show update (update (update b.descriptors d1 _) d2 _) d3 _ d = _
      rw [update_of_ne hd.2.2, update_of_ne hd.2.1, update_of_ne hd.1]
    · exact update_next rfl

end Call

/-! ## Runs -/

/-- The addresses in the first descriptors of the requests in flight. -/
def BlockDevice.addresses (b : BlockDevice) : List Address :=
  b.virtqueue.inUse.map fun desc => (b.descriptors desc).address

/-- `free` and `requests` are the free lists. Every descriptor is free or in the chain of one
    request in flight, and every request structure is free or belongs to one request in flight. -/
structure Accounted (b : BlockDevice) (free requests : List ℕ) : Prop where
  descriptors : Counted b.virtqueue.queue free
    (b.virtqueue.inUse.flatMap (chain .block b.virtqueue.queue.next))
  total : free.length + 3 * b.virtqueue.inUse.length = LENGTH
  path : RequestPath b.requests b.firstFreeRequest requests
  pool : (requests.map Address.header ++ b.addresses).Perm
    ((List.range NUM_REQUESTS).map Address.header)

/-- The handler has the request structure of the chain that it frees. -/
def Handles (b : BlockDevice) : Prop :=
  ∀ i desc, b.virtqueue.place = .processing i desc →
    ∃ request, b.handled = some request ∧ (b.descriptors desc).address = .header request

/-- What holds throughout a run. -/
structure Invariant (b : BlockDevice) : Prop where
  sound : b.virtqueue.Sound .block
  accounted : ∃ free requests, Accounted b free requests
  handles : Handles b

namespace Accounted

variable {b b' : BlockDevice} {free requests : List ℕ}

theorem init : Accounted .init (List.range' 0 LENGTH) (List.range' 0 NUM_REQUESTS) := by
  have hpath : ∀ n a, a + n = NUM_REQUESTS → RequestPath BlockDevice.init.requests
      (if n ≠ 0 then some a else none) (List.range' a n) := by
    intro n
    induction n with
    | zero => exact fun a _ => rfl
    | succ n ih =>
      intro a ha
      refine RequestPath.cons_iff.mpr ⟨rfl, ?_⟩
      have hnext : (BlockDevice.init.requests a).next = if n ≠ 0 then some (a + 1) else none := by
        have hlast : a ≠ NUM_REQUESTS - 1 ↔ n ≠ 0 := by omega
        show (if a ≠ NUM_REQUESTS - 1 then some (a + 1) else none) = _
        simp only [hlast]
      rw [hnext]
      exact ih (a + 1) (by omega)
  refine ⟨⟨Queue.owned_start, List.length_range'.symm⟩, ?_,
    hpath NUM_REQUESTS 0 (Nat.zero_add _), ?_⟩
  · rw [List.length_range']
    rfl
  · rw [List.range_eq_range']
    exact List.Perm.of_eq (List.append_nil _)

section

variable (h : Accounted b free requests)

include h

/-- The three descriptors of a request leave request structures over. -/
theorem requests_ne_nil : requests ≠ [] := by
  rintro rfl
  have hlength := h.pool.length_eq
  have htotal := h.total
  simp only [BlockDevice.addresses, List.map_nil, List.nil_append, List.length_map,
    List.length_range, NUM_REQUESTS] at hlength
  unfold LENGTH at htotal
  omega

/-- The requests in flight may come in another order, and the links and addresses stay. -/
theorem same (hinUse : b.virtqueue.inUse.Perm b'.virtqueue.inUse)
    (hnext : b'.virtqueue.queue.next = b.virtqueue.queue.next)
    (hhead : b'.virtqueue.queue.freeDescIndex = b.virtqueue.queue.freeDescIndex)
    (hcount : b'.virtqueue.queue.numFreeDescs = b.virtqueue.queue.numFreeDescs)
    (hdescriptors : ∀ d ∈ b.virtqueue.inUse, b'.descriptors d = b.descriptors d)
    (hrequests : ∀ i, (b'.requests i).next = (b.requests i).next)
    (hfirst : b'.firstFreeRequest = b.firstFreeRequest) : Accounted b' free requests := by
  refine ⟨?_, ?_, ?_, ?_⟩
  · rw [hnext]
    exact (h.descriptors.perm (hinUse.flatMap_right _)).same hnext hhead hcount
  · rw [← hinUse.length_eq]
    exact h.total
  · rw [hfirst]
    exact h.path.congr fun i _ => hrequests i
  · have haddresses : b.addresses.Perm b'.addresses := by
      unfold BlockDevice.addresses
      refine (List.Perm.of_eq ?_).trans (hinUse.map _)
      exact List.map_congr_left fun d hd => by rw [hdescriptors d hd]
    exact (haddresses.symm.append_left _).trans h.pool

theorem notMem_free {d : ℕ} (hd : d ∈ b.virtqueue.inUse) : d ∉ free := by
  intro hfree
  have hchain : d ∈ b.virtqueue.inUse.flatMap (chain .block b.virtqueue.queue.next) :=
    List.mem_flatMap.mpr ⟨d, hd, by simp [chain]⟩
  exact (List.nodup_append.mp h.descriptors.nodup).2.2 d hfree d hchain rfl

theorem address {d : ℕ} (hd : d ∈ b.virtqueue.inUse) :
    ∃ request, (b.descriptors d).address = .header request := by
  have hmem : (b.descriptors d).address ∈ (List.range NUM_REQUESTS).map Address.header :=
    h.pool.mem_iff.mp (List.mem_append_right _ (List.mem_map_of_mem hd))
  obtain ⟨request, -, hrequest⟩ := List.mem_map.mp hmem
  exact ⟨request, hrequest.symm⟩

/-- A call without an effect. -/
theorem undone (hundone : Undone b b' free) : Accounted b' free requests := by
  refine h.same ?_ hundone.next hundone.head hundone.count
    (fun d hd => hundone.descriptors d (h.notMem_free hd)) hundone.requests hundone.first
  rw [hundone.virtqueue]
  rfl

end

/-- A call that takes three descriptors and a request structure. -/
theorem taken {desc1 desc2 desc3 request : ℕ}
    (h : Accounted b (desc1 :: desc2 :: desc3 :: free) (request :: requests))
    (htaken : Taken b b' desc1 desc2 desc3 request) : Accounted b' free requests := by
  have hchain : chain .block b.virtqueue.queue.next desc1 = [desc1, desc2, desc3] := by
    simp only [chain, htaken.links.1, htaken.links.2]
  have hinUse : b'.virtqueue.inUse = desc1 :: b.virtqueue.inUse := by
    rw [htaken.virtqueue]
    rfl
  have hused : ∀ d ∈ b.virtqueue.inUse, d ∉ [desc1, desc2, desc3] := fun d hd hmem =>
    h.notMem_free hd (List.mem_append_left free hmem)
  have hperm : (free ++ b'.virtqueue.inUse.flatMap (chain .block b'.virtqueue.queue.next)).Perm
      (desc1 :: desc2 :: desc3 :: free ++
        b.virtqueue.inUse.flatMap (chain .block b.virtqueue.queue.next)) := by
    rw [hinUse, htaken.next, List.flatMap_cons, hchain]
    exact List.perm_append_comm_assoc free [desc1, desc2, desc3] _
  refine ⟨⟨⟨?_, ?_, ?_⟩, ?_⟩, ?_, ?_, ?_⟩
  · rw [htaken.next, htaken.head]
    exact h.descriptors.path.2.2.2.2.2.2
  · exact hperm.nodup_iff.mpr h.descriptors.nodup
  · exact fun d hd => h.descriptors.bound d (hperm.mem_iff.mp hd)
  · rw [htaken.count, h.descriptors.count]
    rfl
  · have htotal := h.total
    rw [hinUse]
    simp only [List.length_cons] at htotal ⊢
    omega
  · rw [htaken.first.2]
    exact (RequestPath.cons_iff.mp h.path).2.congr fun i _ => htaken.requests i
  · have haddresses : b'.addresses = .header request :: b.addresses := by
      unfold BlockDevice.addresses
      rw [hinUse, List.map_cons, htaken.address]
      congr 1
      exact List.map_congr_left fun d hd => by rw [htaken.descriptors d (hused d hd)]
    rw [haddresses]
    exact List.perm_middle.trans h.pool

theorem freed {i desc request : ℕ} (h : Accounted b free requests)
    (hplace : b.virtqueue.place = .processing i desc)
    (haddress : (b.descriptors desc).address = .header request) (j : ℕ) :
    Accounted { b.freeRequest request with
      virtqueue := { b.virtqueue with
        queue := b.virtqueue.queue.finish .block desc, place := .checking j }
      handled := none } (chain .block b.virtqueue.queue.next desc ++ free)
      (request :: requests) := by
  have hinUse := Virtqueue.finish_inUse hplace (b.virtqueue.queue.finish .block desc) j
  have hcounted := h.descriptors.perm (hinUse.flatMap_right _)
  rw [List.flatMap_cons] at hcounted
  have hfinish := Queue.finish_block
    (List.nodup_append.mp (List.nodup_append.mp hcounted.nodup).2.1).1
  have htotal := h.total
  rw [hinUse.length_eq] at htotal
  have haddresses := hinUse.map fun desc => (b.descriptors desc).address
  rw [List.map_cons, haddress] at haddresses
  have hpool := (haddresses.symm.append_left _).trans h.pool
  have hnodup := hpool.nodup_iff.mpr (List.nodup_range.map fun _ _ => Address.header.inj)
  refine ⟨?_, ?_, ?_, ?_⟩
  · show Counted (b.virtqueue.queue.finish .block desc) _ (List.flatMap _ _)
    rw [hcounted.toOwned.finish_others, hfinish]
    exact (hcounted.perm (Queue.chain_perm _ _ _)).freeDescriptor.freeDescriptor.freeDescriptor
  · rw [List.length_append, length_chain]
    simp only [segments, List.length_cons] at htotal ⊢
    omega
  · have hother : request ∉ requests := fun hmem =>
      (List.nodup_append.mp hnodup).2.2 _ (List.mem_map_of_mem hmem) _ List.mem_cons_self rfl
    refine RequestPath.cons_iff.mpr ⟨rfl, ?_⟩
    show RequestPath (update b.requests request _)
      (update b.requests request _ request).next requests
    rw [update_self]
    refine h.path.congr fun i hi => ?_
    rw [update_of_ne]
    rintro rfl
    exact hother hi
  · exact List.perm_middle.symm.trans hpool

end Accounted

/-- The request that the handler calls back for is in flight. -/
theorem mem_inUse {v : Virtqueue} {i desc : ℕ} (hplace : v.place = .processing i desc) :
    desc ∈ v.inUse :=
  (Virtqueue.finish_inUse hplace v.queue 0).mem_iff.mpr List.mem_cons_self

namespace Invariant

variable {b : BlockDevice}

theorem init : Invariant .init :=
  ⟨Virtqueue.sound_start, ⟨_, _, Accounted.init⟩, nofun⟩

/-- A call, whatever it comes to. -/
theorem readWriteBlock (h : Invariant b) (block pagePhy : U64) (direction : Direction) :
    Invariant (b.readWriteBlock block pagePhy direction).2 ∧
    (b.readWriteBlock block pagePhy direction).1 ≠ .fault ∧
    ((b.readWriteBlock block pagePhy direction).1 = .noMemory → ∃ free,
      Undone b (b.readWriteBlock block pagePhy direction).2 free) := by
  obtain ⟨free, requests, hb⟩ := h.accounted
  obtain ⟨request, requests, rfl⟩ := List.exists_cons_of_ne_nil hb.requests_ne_nil
  obtain ⟨hvirtqueue, hcases⟩ := readWriteBlock_cases hb.descriptors hb.path block pagePhy direction
  have hsound : (b.readWriteBlock block pagePhy direction).2.virtqueue.Sound .block := by
    rw [hvirtqueue]
    exact h.sound.block_step .request
  generalize b.readWriteBlock block pagePhy direction = result at hcases hsound ⊢
  rcases hcases with ⟨d1, d2, d3, rest, rfl, hresult, htaken⟩ | ⟨-, hresult, hundone⟩
  · refine ⟨⟨hsound, ⟨_, _, hb.taken htaken⟩, ?_⟩, by rw [hresult]; nofun, by rw [hresult]; nofun⟩
    intro i desc hplace
    rw [htaken.virtqueue] at hplace
    obtain ⟨handled, hhandled, haddress⟩ := h.handles i desc hplace
    refine ⟨handled, htaken.handled.trans hhandled, ?_⟩
    rw [htaken.descriptors desc fun hmem => hb.notMem_free (mem_inUse hplace)
      (List.mem_append_left rest hmem)]
    exact haddress
  · refine ⟨⟨hsound, ⟨_, _, hb.undone hundone⟩, ?_⟩, by rw [hresult]; nofun, fun _ => ⟨_, hundone⟩⟩
    intro i desc hplace
    rw [hundone.virtqueue] at hplace
    obtain ⟨handled, hhandled, haddress⟩ := h.handles i desc hplace
    refine ⟨handled, hundone.handled.trans hhandled, ?_⟩
    rw [hundone.descriptors desc (hb.notMem_free (mem_inUse hplace))]
    exact haddress

theorem complete (h : Invariant b) (desc : ℕ) : Invariant (b.step (.complete desc)) := by
  have hsound := h.sound.block_step (.complete desc)
  obtain ⟨free, requests, hb⟩ := h.accounted
  unfold BlockDevice.step Virtqueue.step at *
  dsimp only at hsound ⊢
  split_ifs at hsound ⊢ with hmem
  · exact ⟨hsound, ⟨free, requests, hb.same (h.sound.complete_inUse hmem) rfl rfl rfl
      (fun _ _ => rfl) (fun _ => rfl) rfl⟩, h.handles⟩
  · exact h

theorem interrupt (h : Invariant b) : Invariant (b.step .interrupt) := by
  have hsound := h.sound.block_step .interrupt
  obtain ⟨free, requests, hb⟩ := h.accounted
  unfold BlockDevice.step Virtqueue.step at *
  dsimp only at hsound ⊢
  cases hplace : b.virtqueue.place with
  | idle =>
    simp only [hplace] at hsound ⊢
    refine ⟨hsound, ⟨free, requests, hb.same ?_ rfl rfl rfl (fun _ _ => rfl) (fun _ => rfl) rfl⟩,
      nofun⟩
    unfold Virtqueue.inUse
    simp only [Virtqueue.current, hplace]
    exact List.Perm.refl _
  | checking i =>
    simp only [hplace] at hsound ⊢
    exact h
  | processing i desc =>
    simp only [hplace] at hsound ⊢
    exact h

theorem handle (h : Invariant b) : Invariant b.handle := by
  have hsound := h.sound.block_step .handle
  obtain ⟨free, requests, hb⟩ := h.accounted
  change (b.virtqueue.handle .block).Sound .block at hsound
  unfold BlockDevice.handle
  cases hplace : b.virtqueue.place with
  | idle => exact h
  | checking i =>
    by_cases hnew : i ≠ b.virtqueue.queue.usedIndex.toNat % LENGTH
    · have hstep : b.virtqueue.handle .block = { b.virtqueue with
          place := .processing i (b.virtqueue.queue.usedRing i)
          processed := b.virtqueue.processed ++ [b.virtqueue.queue.usedRing i] } := by
        simp only [Virtqueue.handle, hplace, if_pos hnew]
      rw [hstep] at hsound ⊢
      have htake := Virtqueue.take_inUse hplace (h.sound.next_completion hplace hnew)
      have hmem : b.virtqueue.queue.usedRing i ∈ b.virtqueue.inUse :=
        htake.mem_iff.mpr (mem_inUse rfl)
      obtain ⟨request, haddress⟩ := hb.address hmem
      simp only [haddress]
      refine ⟨hsound, ⟨free, requests, hb.same htake rfl rfl rfl (fun _ _ => rfl) (fun _ => rfl)
        rfl⟩, ?_⟩
      intro j desc hprocessing
      cases hprocessing
      exact ⟨request, rfl, haddress⟩
    · have hstep : b.virtqueue.handle .block = { b.virtqueue with
          queue := { b.virtqueue.queue with lastSeenUsed := i }, place := .idle } := by
        simp only [Virtqueue.handle, hplace, if_neg hnew]
      rw [hstep] at hsound ⊢
      refine ⟨hsound, ⟨free, requests, hb.same ?_ rfl rfl rfl (fun _ _ => rfl) (fun _ => rfl) rfl⟩,
        fun _ _ hprocessing => by cases hprocessing⟩
      show b.virtqueue.inUse.Perm (Virtqueue.inUse { b.virtqueue with
        queue := { b.virtqueue.queue with lastSeenUsed := i }, place := .idle })
      unfold Virtqueue.inUse
      simp only [Virtqueue.current, hplace]
      exact List.Perm.refl _
  | processing i desc =>
    obtain ⟨request, hhandled, haddress⟩ := h.handles i desc hplace
    have hstep : b.virtqueue.handle .block = { b.virtqueue with
        queue := b.virtqueue.queue.finish .block desc
        place := .checking ((i + 1) % LENGTH) } := by
      simp only [Virtqueue.handle, hplace]
    rw [hstep] at hsound ⊢
    simp only [hhandled]
    exact ⟨hsound, ⟨_, _, hb.freed hplace haddress _⟩, fun _ _ hprocessing => by cases hprocessing⟩

theorem step (h : Invariant b) (o : BlockOp) : Invariant (b.step o) := by
  cases o with
  | readWriteBlock block pagePhy direction => exact (h.readWriteBlock block pagePhy direction).1
  | complete desc => exact h.complete desc
  | interrupt => exact h.interrupt
  | handle => exact h.handle

theorem run (ops : List BlockOp) : Invariant (ops.foldl BlockDevice.step .init) :=
  List.foldlRecOn ops BlockDevice.step init fun _ h o _ => h.step o

end Invariant

/-- The free lists of the queue and of the pool. -/
structure FreeLists (b : BlockDevice) (free requests : List ℕ) : Prop where
  descriptors : Path b.virtqueue.queue.next LENGTH b.virtqueue.queue.freeDescIndex free
  requests : RequestPath b.requests b.firstFreeRequest requests

/-- **Block requests.** In every run of calls, completions and interrupts, the free list and the
    chains of the requests in flight partition the descriptors, `num_free_descs` is the length of
    the free list, and every request structure is free or belongs to one request in flight. The next
    call finds a request structure, and if it returns `-ENOMEM`, it leaves both free lists as they
    are. -/
theorem requests_accounted (ops : List BlockOp) :
    let b := ops.foldl BlockDevice.step .init
    (∃ free requests, FreeLists b free requests ∧
      (free ++ b.virtqueue.inUse.flatMap (chain .block b.virtqueue.queue.next)).Perm
        (List.range LENGTH) ∧
      b.virtqueue.queue.numFreeDescs = free.length ∧
      (requests.map Address.header ++ b.addresses).Perm
        ((List.range NUM_REQUESTS).map Address.header)) ∧
    b.firstFreeRequest ≠ none ∧
    ∀ block pagePhy direction,
      (b.readWriteBlock block pagePhy direction).1 ≠ .fault ∧
      ((b.readWriteBlock block pagePhy direction).1 = .noMemory → ∀ free requests,
        FreeLists b free requests →
          FreeLists (b.readWriteBlock block pagePhy direction).2 free requests) := by
  intro b
  have h := Invariant.run ops
  change Invariant b at h
  obtain ⟨free, requests, hb⟩ := h.accounted
  refine ⟨⟨free, requests, ⟨hb.descriptors.path, hb.path⟩, ?_, hb.descriptors.count, hb.pool⟩,
    hb.path.length_pos_iff.mpr hb.requests_ne_nil, fun block pagePhy direction => ?_⟩
  · have hsubset : free ++ b.virtqueue.inUse.flatMap (chain .block b.virtqueue.queue.next) ⊆
        List.range LENGTH := fun d hd => List.mem_range.mpr (hb.descriptors.bound d hd)
    refine (List.subperm_of_subset hb.descriptors.nodup hsubset).perm_of_length_le ?_
    rw [List.length_range, List.length_append, length_chains, ← hb.total, Nat.mul_comm]
    rfl
  · obtain ⟨-, hfault, hundone⟩ := h.readWriteBlock block pagePhy direction
    refine ⟨hfault, fun hresult free requests hlists => ?_⟩
    obtain ⟨_, hundone⟩ := hundone hresult
    constructor
    · rw [hundone.next, hundone.head]
      exact hlists.descriptors
    · rw [hundone.first]
      exact hlists.requests.congr fun i _ => hundone.requests i

/-- The device with as many requests in flight as there are descriptors for. -/
def busy : BlockDevice :=
  (List.replicate 42 (.readWriteBlock 0#64 0#64 .read)).foldl BlockDevice.step .init

/-- The next call fails, and both free lists are as they were. -/
theorem requests_accounted_busy :
    (busy.readWriteBlock 0#64 0#64 .read).1 = .noMemory ∧ ∀ free requests,
      FreeLists busy free requests →
        FreeLists (busy.readWriteBlock 0#64 0#64 .read).2 free requests := by
  have hresult : (busy.readWriteBlock 0#64 0#64 .read).1 = .noMemory := by decide +kernel
  exact ⟨hresult, ((requests_accounted (List.replicate 42 (.readWriteBlock 0#64 0#64 .read))).2.2
    0#64 0#64 .read).2 hresult⟩

end Fishix.Dev.Virtio
