import Mathlib.Data.BitVec

/-!
# Virtqueues

The side of a virtqueue that takes buffers from the guest: `virtqueue_get_avail_bytes`, which
adds up what the guest has made available, and `virtqueue_pop`, which takes one element.

What the device reads of guest memory is given by the values its accessors return: a descriptor
for each address (`vring_desc_*` add the index of the descriptor to the address of its table), the
avail index, and the entries of the avail ring.  The one field that `virtqueue_pop` writes, the
avail event, is in the used ring.
-/

namespace QemuAndroid.Virtio

def virtqueueMaxSize : Nat := 1024

structure VRingDesc where
  addr : BitVec 64
  len : BitVec 32
  flags : BitVec 16
  next : BitVec 16
deriving DecidableEq

namespace VRingDesc

def hasNext (d : VRingDesc) : Bool := d.flags &&& 1#16 ≠ 0#16

def isWrite (d : VRingDesc) : Bool := d.flags &&& 2#16 ≠ 0#16

def isIndirect (d : VRingDesc) : Bool := d.flags &&& 4#16 ≠ 0#16

end VRingDesc

def sizeofDesc : Nat := 16

structure GuestMemory where
  descAt : BitVec 64 → VRingDesc
  availIdx : BitVec 16
  availRing : Nat → BitVec 16
  /-- `avail_event`, in the used ring -/
  availEvent : BitVec 16

/-- The descriptor of index `i` in the table at `descPa`. -/
def GuestMemory.desc (mem : GuestMemory) (descPa : BitVec 64) (i : Nat) : VRingDesc :=
  mem.descAt (descPa + BitVec.ofNat 64 (sizeofDesc * i))

structure VirtQueue where
  num : Nat
  descPa : BitVec 64
  lastAvailIdx : BitVec 16
  notification : Bool
  inuse : Nat
  num_le : num ≤ virtqueueMaxSize

variable (vq : VirtQueue) (mem : GuestMemory)

/-- `virtio_queue_set_num`. -/
def VirtQueue.setNum (num : Int) : VirtQueue :=
  if h : (num ≠ 0 ↔ vq.num ≠ 0) ∧ num ≤ virtqueueMaxSize ∧ 0 ≤ num then
    { vq with num := num.toNat, num_le := Int.toNat_le.2 h.2.1 }
  else vq

/-- The device: whether `VIRTIO_RING_F_EVENT_IDX` was negotiated, and which guest addresses
`cpu_physical_memory_map` can map over a whole length, for reading or for writing. -/
structure VirtIODevice where
  eventIdx : Bool
  mappable : BitVec 64 → BitVec 32 → Bool → Bool

/-- The errors after which the functions call `exit`. -/
inductive VirtqueueError
  /-- "Guest moved used index from %u to %u" -/
  | movedUsedIndex (idx : Nat) (availIdx : BitVec 16)
  /-- "Guest says index %u is available" -/
  | headOutOfRange (head : Nat)
  /-- "Desc next is %u" -/
  | nextOutOfRange (next : Nat)
  /-- "Invalid size for indirect buffer table" -/
  | invalidIndirectSize
  /-- "Looped descriptor" -/
  | loopedDescriptor
  /-- "Too many write descriptors in indirect table" -/
  | tooManyWrite
  /-- "Too many read descriptors in indirect table" -/
  | tooManyRead
  /-- "virtio: map attempt out of bounds: %zd > %d" -/
  | mapOutOfBounds (numSg : Nat)
  /-- "virtio: error trying to map MMIO memory" -/
  | mapMmio
deriving DecidableEq

/-! ## The ring and the chains -/

def virtqueueNumHeads (idx : Nat) : Except VirtqueueError Nat :=
  let numHeads := (mem.availIdx - BitVec.ofNat 16 idx).toNat
  if vq.num < numHeads then .error (.movedUsedIndex idx mem.availIdx) else .ok numHeads

def virtqueueGetHead (idx : Nat) : Except VirtqueueError Nat :=
  let head := (mem.availRing (idx % vq.num)).toNat
  if vq.num ≤ head then .error (.headOutOfRange head) else .ok head

def virtqueueNextDesc (descPa : BitVec 64) (i max : Nat) : Except VirtqueueError Nat :=
  let d := mem.desc descPa i
  if !d.hasNext then .ok max
  else if max ≤ d.next.toNat then .error (.nextOutOfRange d.next.toNat)
  else .ok d.next.toNat

/-! ## virtqueue_get_avail_bytes -/

def VRingDesc.addIn (d : VRingDesc) (inTotal : BitVec 32) : BitVec 32 :=
  if d.isWrite then inTotal + d.len else inTotal

def VRingDesc.addOut (d : VRingDesc) (outTotal : BitVec 32) : BitVec 32 :=
  if d.isWrite then outTotal else outTotal + d.len

/-- How the walk of `virtqueue_get_avail_bytes` over a chain ends: at the end of the chain, or at
`done`, because both maxima are reached. -/
inductive ChainEnd
  | complete (numBufs : Nat) (inTotal outTotal : BitVec 32)
  | done (inTotal outTotal : BitVec 32)
deriving DecidableEq

/-- The `do` loop of `virtqueue_get_avail_bytes`; every pass makes `numBufs` larger, up to `max`. -/
def availChain (descPa : BitVec 64) (max : Nat) (maxInBytes maxOutBytes : BitVec 32) :
    Nat → Nat → Nat → BitVec 32 → BitVec 32 → Except VirtqueueError ChainEnd
  | 0, _, _, _, _ => .error .loopedDescriptor
  | fuel + 1, numBufs, i, inTotal, outTotal =>
    let numBufs := numBufs + 1
    if max < numBufs then .error .loopedDescriptor
    else
      let d := mem.desc descPa i
      let inTotal := d.addIn inTotal
      let outTotal := d.addOut outTotal
      if maxInBytes ≤ inTotal ∧ maxOutBytes ≤ outTotal then .ok (.done inTotal outTotal)
      else
        match virtqueueNextDesc mem descPa i max with
        | .error e => .error e
        | .ok next =>
          if next = max then .ok (.complete numBufs inTotal outTotal)
          else availChain descPa max maxInBytes maxOutBytes fuel numBufs next inTotal outTotal

/-- How the walk over the ring ends. -/
inductive AvailEnd
  | empty (inTotal outTotal : BitVec 32)
  | done (inTotal outTotal : BitVec 32)
deriving DecidableEq

/-- The `while` loop of `virtqueue_get_avail_bytes`.  The guest has made at most `num` heads
available. -/
def availWalk (maxInBytes maxOutBytes : BitVec 32) :
    Nat → Nat → Nat → BitVec 32 → BitVec 32 → Except VirtqueueError AvailEnd
  | 0, _, _, inTotal, outTotal => .ok (.empty inTotal outTotal)
  | fuel + 1, idx, totalBufs, inTotal, outTotal =>
    match virtqueueNumHeads vq mem idx with
    | .error e => .error e
    | .ok 0 => .ok (.empty inTotal outTotal)
    | .ok (_ + 1) =>
      match virtqueueGetHead vq mem idx with
      | .error e => .error e
      | .ok i =>
        let d := mem.desc vq.descPa i
        if d.isIndirect then
          if d.len.toNat % sizeofDesc ≠ 0 then .error .invalidIndirectSize
          else if vq.num ≤ totalBufs then .error .loopedDescriptor
          else
            let max := d.len.toNat / sizeofDesc
            match availChain mem d.addr max maxInBytes maxOutBytes (max + 1) 0 0 inTotal
              outTotal with
            | .error e => .error e
            | .ok (.done inTotal outTotal) => .ok (.done inTotal outTotal)
            | .ok (.complete _ inTotal outTotal) =>
              availWalk maxInBytes maxOutBytes fuel (idx + 1) (totalBufs + 1) inTotal outTotal
        else
          match availChain mem vq.descPa vq.num maxInBytes maxOutBytes (vq.num + 1) totalBufs i
            inTotal outTotal with
          | .error e => .error e
          | .ok (.done inTotal outTotal) => .ok (.done inTotal outTotal)
          | .ok (.complete numBufs inTotal outTotal) =>
            availWalk maxInBytes maxOutBytes fuel (idx + 1) numBufs inTotal outTotal

def virtqueueGetAvailBytes (maxInBytes maxOutBytes : BitVec 32) :
    Except VirtqueueError (BitVec 32 × BitVec 32) :=
  match availWalk vq mem maxInBytes maxOutBytes (vq.num + 1) vq.lastAvailIdx.toNat 0 0#32 0#32 with
  | .error e => .error e
  | .ok (.empty inTotal outTotal) => .ok (inTotal, outTotal)
  | .ok (.done inTotal outTotal) => .ok (inTotal, outTotal)

/-! ## virtqueue_pop -/

/-- A segment: an address, and the length of its `iovec`. -/
structure Segment where
  addr : BitVec 64
  len : BitVec 32
deriving DecidableEq

structure VirtQueueElement where
  index : Nat
  outSg : List Segment
  inSg : List Segment
deriving DecidableEq

def VRingDesc.collectIn (d : VRingDesc) (inSg : List Segment) : List Segment :=
  if d.isWrite then inSg ++ [⟨d.addr, d.len⟩] else inSg

def VRingDesc.collectOut (d : VRingDesc) (outSg : List Segment) : List Segment :=
  if d.isWrite then outSg else outSg ++ [⟨d.addr, d.len⟩]

/-- One pass of the loop of `virtqueue_pop`: the next index, and the arrays after it. -/
def popPass (descPa : BitVec 64) (max i : Nat) (inSg outSg : List Segment) :
    Except VirtqueueError (Nat × List Segment × List Segment) :=
  let d := mem.desc descPa i
  if d.isWrite && virtqueueMaxSize ≤ inSg.length then .error .tooManyWrite
  else if !d.isWrite && virtqueueMaxSize ≤ outSg.length then .error .tooManyRead
  else
    let inSg := d.collectIn inSg
    let outSg := d.collectOut outSg
    if max < inSg.length + outSg.length then .error .loopedDescriptor
    else (virtqueueNextDesc mem descPa i max).map (·, inSg, outSg)

/-- The loop over the descriptors: the `in` and the `out` segments.  Every pass adds one of them, up
to `max`. -/
def popChain (descPa : BitVec 64) (max : Nat) : Nat → Nat → List Segment → List Segment →
      Except VirtqueueError (List Segment × List Segment)
  | 0, _, _, _ => .error .loopedDescriptor
  | fuel + 1, i, inSg, outSg =>
    match popPass mem descPa max i inSg outSg with
    | .error e => .error e
    | .ok (next, inSg, outSg) =>
      if next = max then .ok (inSg, outSg) else popChain descPa max fuel next inSg outSg

def virtqueueMapSg (vdev : VirtIODevice) (sg : List Segment) (isWrite : Bool) :
    Except VirtqueueError Unit :=
  if virtqueueMaxSize < sg.length then .error (.mapOutOfBounds sg.length)
  else if sg.all fun s => vdev.mappable s.addr s.len isWrite then .ok () else .error .mapMmio

def vringSetAvailEvent (val : BitVec 16) : GuestMemory :=
  if vq.notification then { mem with availEvent := val } else mem

/-- The table that `virtqueue_pop` collects from, its size, and where it starts. -/
def popTable (head : Nat) : Except VirtqueueError (BitVec 64 × Nat × Nat) :=
  let d := mem.desc vq.descPa head
  if d.isIndirect then
    if d.len.toNat % sizeofDesc ≠ 0 then .error .invalidIndirectSize
    else .ok (d.addr, d.len.toNat / sizeofDesc, 0)
  else .ok (vq.descPa, vq.num, head)

/-- The element of a head: its segments, collected and mapped. -/
def popElement (vdev : VirtIODevice) (vq : VirtQueue) (mem : GuestMemory) (head : Nat) :
    Except VirtqueueError VirtQueueElement :=
  match popTable vq mem head with
  | .error e => .error e
  | .ok (descPa, max, i) =>
    match popChain mem descPa max (max + 1) i [] [] with
    | .error e => .error e
    | .ok (inSg, outSg) =>
      match virtqueueMapSg vdev inSg true with
      | .error e => .error e
      | .ok _ =>
        match virtqueueMapSg vdev outSg false with
        | .error e => .error e
        | .ok _ => .ok ⟨head, outSg, inSg⟩

/-- The guest memory after `virtqueue_pop` has moved `last_avail_idx` on. -/
def popAvailEvent (vdev : VirtIODevice) (vq : VirtQueue) (mem : GuestMemory) : GuestMemory :=
  if vdev.eventIdx then vringSetAvailEvent vq mem vq.lastAvailIdx else mem

/-- `virtqueue_pop`: nothing if the queue is empty, or the element. -/
def virtqueuePop (vdev : VirtIODevice) (vq : VirtQueue) (mem : GuestMemory) :
    Except VirtqueueError (Option (VirtQueueElement × VirtQueue × GuestMemory)) :=
  match virtqueueNumHeads vq mem vq.lastAvailIdx.toNat with
  | .error e => .error e
  | .ok 0 => .ok none
  | .ok (_ + 1) =>
    match virtqueueGetHead vq mem vq.lastAvailIdx.toNat with
    | .error e => .error e
    | .ok head =>
      let vq := { vq with lastAvailIdx := vq.lastAvailIdx + 1 }
      let mem := popAvailEvent vdev vq mem
      match popElement vdev vq mem head with
      | .error e => .error e
      | .ok elem => .ok (some (elem, { vq with inuse := vq.inuse + 1 }, mem))

end QemuAndroid.Virtio
