import QemuAndroid.Lib.Machine

/-!
# Writes that allocate clusters of a qcow2 image

A write looks up or allocates the clusters that it needs (`qcow2_alloc_cluster_offset`), writes its
data, and then enters the new clusters into the L2 tables (`qcow2_alloc_cluster_link_l2`).  Between
the two, its allocations are in `s->cluster_allocs`, where other writes find them.

All of this is done with `s->lock` held, except for the data I/O, the copies of `perform_cow`, and
the time that a write waits for another one's allocation: a write from one of these points to the
next is one step here.  The L2 tables are one table of the clusters of the guest.  Which clusters of
the image file are free is not modelled; what the allocator returns, and whether metadata can be
read, is chosen by the environment (`Choice`).
-/

namespace QemuAndroid.Qcow2

open Lib

/-! ## Clusters -/

/-- The part of a `BDRVQcowState` that does not change. -/
structure Qcow2Config where
  clusterBits : Nat
  encrypted : Bool
  minClusterBits : 9 ≤ clusterBits

namespace Qcow2Config

variable (s : Qcow2Config)

def clusterSize : Nat := 2 ^ s.clusterBits

def l2Size : Nat := 2 ^ (s.clusterBits - 3)

def startOfCluster (offset : Nat) : Nat := offset - offset % s.clusterSize

def offsetIntoCluster (offset : Nat) : Nat := offset % s.clusterSize

def sizeToClusters (size : Nat) : Nat := (size + (s.clusterSize - 1)) / s.clusterSize

def offsetToL2Index (offset : Nat) : Nat := offset / s.clusterSize % s.l2Size

end Qcow2Config

variable (s : Qcow2Config)

theorem clusterSize_pos : 0 < s.clusterSize := Nat.two_pow_pos _

theorem dvd_clusterSize : 512 ∣ s.clusterSize := Nat.pow_dvd_pow 2 s.minClusterBits

structure L2Entry where
  /-- `l2_entry & L2E_OFFSET_MASK` -/
  offset : Nat
  copied : Bool
  compressed : Bool
  zero : Bool
deriving DecidableEq

inductive ClusterType
  | unallocated
  | normal
  | compressed
  | zero
deriving DecidableEq

def getClusterType (e : L2Entry) : ClusterType :=
  if e.compressed then .compressed
  else if e.zero then .zero
  else if e.offset = 0 then .unallocated
  else .normal

structure CowRegion where
  offset : Nat
  nbSectors : Nat

/-- A `QCowL2Meta`, which is known by its address. -/
structure L2Meta where
  id : Nat
  offset : Nat
  allocOffset : Nat
  nbAvailable : Nat
  nbClusters : Nat
  cowStart : CowRegion
  cowEnd : CowRegion

def l2metaCowStart (m : L2Meta) : Nat := m.offset + m.cowStart.offset

def l2metaCowEnd (m : L2Meta) : Nat := m.offset + m.cowEnd.offset + m.cowEnd.nbSectors * 512

/-- What the writes of an image share. -/
structure Image where
  /-- the L2 entry of each cluster of the guest -/
  l2 : Nat → L2Entry
  clusterAllocs : List L2Meta
  /-- the address of the next allocation -/
  nextId : Nat

/-- `QLIST_REMOVE(m, next_in_flight)`. -/
def Image.remove (img : Image) (id : Nat) : Image :=
  { img with clusterAllocs := img.clusterAllocs.filter (·.id ≠ id) }

/-! ## Finding clusters -/

/-- What the environment does in one pass of the search for clusters. -/
structure Choice where
  /-- `handle_copied` can load the L2 table -/
  copiedTable : Bool
  /-- `handle_alloc` can load the L2 table -/
  allocTable : Bool
  /-- what the allocator finds: the first cluster, or the number of clusters at a given one -/
  allocated : Option (Nat × Nat)

/-- How a function fails. -/
inductive Failure
  | error
  | assertion
deriving DecidableEq

/-- What `handle_dependencies` finds. -/
inductive Dependency
  /-- the request may go on with some bytes -/
  | proceed (bytes : Nat)
  | wait (id : Nat)
deriving DecidableEq

def handleDependencies (guestOffset : Nat) (hasMeta : Bool) : List L2Meta → Nat → Dependency
  | [], bytes => .proceed bytes
  | old :: allocs, bytes =>
    if guestOffset + bytes ≤ l2metaCowStart old ∨ l2metaCowEnd old ≤ guestOffset then
      -- no intersection
      handleDependencies guestOffset hasMeta allocs bytes
    else
      let bytes := if guestOffset < l2metaCowStart old then l2metaCowStart old - guestOffset else 0
      if bytes = 0 ∧ hasMeta then .proceed 0
      else if bytes = 0 then .wait old.id
      else handleDependencies guestOffset hasMeta allocs bytes

/-- The loop of `count_contiguous_clusters`, which has counted `i` clusters. -/
def contiguousLoop (l2 : Nat → L2Entry) (first : Nat) : Nat → Nat → Nat
  | 0, i => i
  | left + 1, i =>
    if l2 (first + i) = { l2 first with offset := (l2 first).offset + i * s.clusterSize } then
      contiguousLoop l2 first left (i + 1)
    else i

/-- `count_contiguous_clusters`, of clusters that are not compressed, with both flags to stop at. -/
def countContiguousClusters (nbClusters : Nat) (l2 : Nat → L2Entry) (first : Nat) : Nat :=
  contiguousLoop s l2 first nbClusters 0

/-- The loop of `count_cow_clusters`, which has counted `i` clusters. -/
def cowLoop (l2 : Nat → L2Entry) (first : Nat) : Nat → Nat → Nat
  | 0, i => i
  | left + 1, i =>
    if getClusterType (l2 (first + i)) = .normal ∧ (l2 (first + i)).copied then i
    else cowLoop l2 first left (i + 1)

def countCowClusters (nbClusters : Nat) (l2 : Nat → L2Entry) (first : Nat) : Nat :=
  cowLoop l2 first nbClusters 0

/-- The clusters to look for, which do not leave the L2 table. -/
def clustersToLookFor (guestOffset bytes : Nat) : Nat :=
  min (s.sizeToClusters (s.offsetIntoCluster guestOffset + bytes))
    (s.l2Size - s.offsetToL2Index guestOffset)

/-- What `handle_copied` finds. -/
inductive Copied
  /-- allocated clusters, at a place in the image file -/
  | keep (hostOffset bytes : Nat)
  /-- no clusters that it can use, for as many bytes -/
  | none (bytes : Nat)

def handleCopied (c : Choice) (l2 : Nat → L2Entry)
    (guestOffset hostOffset bytes : Nat) : Except Failure Copied :=
  let e := l2 (guestOffset / s.clusterSize)
  if ¬(hostOffset = 0 ∨ s.offsetIntoCluster guestOffset = s.offsetIntoCluster hostOffset) then
    .error .assertion
  else if !c.copiedTable then .error .error
  else if getClusterType e = .normal ∧ e.copied then
    if s.offsetIntoCluster e.offset ≠ 0 then .error .error
    else if hostOffset ≠ 0 ∧ e.offset ≠ hostOffset then .ok (.none 0)
    else
      -- we keep all QCOW_OFLAG_COPIED clusters
      let keepClusters := countContiguousClusters s (clustersToLookFor s guestOffset bytes) l2
        (guestOffset / s.clusterSize)
      .ok (.keep (e.offset + s.offsetIntoCluster guestOffset)
        (min bytes (keepClusters * s.clusterSize - s.offsetIntoCluster guestOffset)))
  else .ok (.none bytes)

/-- `do_alloc_cluster_offset`: the place of the clusters, and their number. -/
def doAllocClusterOffset (c : Choice) (hostOffset nbClusters : Nat) : Option (Nat × Nat) :=
  match c.allocated with
  | none => none
  | some (cluster, n) =>
    if hostOffset = 0 then some (cluster * s.clusterSize, nbClusters)
    else some (hostOffset, min n nbClusters)

def newMeta (id guestOffset bytes allocClusterOffset nbClusters : Nat) : L2Meta :=
  let requestedSectors := (bytes + s.offsetIntoCluster guestOffset) / 512
  let availSectors := nbClusters * (s.clusterSize / 512)
  let allocNStart := s.offsetIntoCluster guestOffset / 512
  let nbSectors := min requestedSectors availSectors
  { id := id
    offset := s.startOfCluster guestOffset
    allocOffset := allocClusterOffset
    nbAvailable := nbSectors
    nbClusters := nbClusters
    cowStart := ⟨0, allocNStart⟩
    cowEnd := ⟨nbSectors * 512, availSectors - nbSectors⟩ }

inductive Allocated
  /-- a new allocation, its place in the image file, and the bytes it serves -/
  | new (m : L2Meta) (hostOffset bytes : Nat)
  /-- the allocation before cannot be extended -/
  | full

/-- `handle_alloc`.  The error behind `do_alloc_cluster_offset` is told apart: it takes the last
allocation of the request off the list. -/
def handleAlloc (c : Choice) (img : Image) (guestOffset hostOffset bytes : Nat) :
    Except (Failure × Bool) Allocated :=
  let first := guestOffset / s.clusterSize
  if bytes = 0 then .error (.assertion, false)
  else if !c.allocTable then .error (.error, false)
  else
    let nbClusters :=
      -- for the moment, overwrite compressed clusters one by one
      if (img.l2 first).compressed then 1
      else countCowClusters (clustersToLookFor s guestOffset bytes) img.l2 first
    if nbClusters = 0 then .error (.assertion, false)
    else
      match doAllocClusterOffset s c (s.startOfCluster hostOffset) nbClusters with
      | none => .error (.error, true)
      | some (allocClusterOffset, nbClusters) =>
        if nbClusters = 0 then .ok .full
        else if allocClusterOffset = 0 then .error (.error, true)
        else
          let m := newMeta s img.nextId guestOffset bytes allocClusterOffset nbClusters
          let bytes := min bytes (m.nbAvailable * 512 - s.offsetIntoCluster guestOffset)
          if bytes = 0 then .error (.assertion, false)
          else .ok (.new m (allocClusterOffset + s.offsetIntoCluster guestOffset) bytes)

/-- The variables of `qcow2_alloc_cluster_offset`. -/
structure Search where
  start : Nat
  remaining : Nat
  clusterOffset : Nat
  hostOffset : Nat
  curBytes : Nat
  /-- `*m` and those behind it, which were allocated before -/
  metas : List L2Meta

/-- How `qcow2_alloc_cluster_offset` comes out. -/
inductive SearchResult
  /-- clusters were found, all but for the last `remaining` bytes -/
  | found (img : Image) (metas : List L2Meta) (hostOffset remaining : Nat)
  /-- the request waits for an allocation, and starts over -/
  | wait (id : Nat)
  | error (img : Image) (metas : List L2Meta)
  | abort

/-- The loop of `qcow2_alloc_cluster_offset`, with the choices of each pass. -/
def searchLoop (choices : Nat → Choice) : Nat → Image → Search → SearchResult
  | 0, _, _ => .abort
  | fuel + 1, img, v =>
    let c := choices fuel
    let hostOffset := if v.hostOffset = 0 then s.startOfCluster v.clusterOffset else v.hostOffset
    if v.remaining < v.curBytes then .abort
    else
      let start := v.start + v.curBytes
      let remaining := v.remaining - v.curBytes
      let clusterOffset := v.clusterOffset + v.curBytes
      if remaining = 0 then .found img v.metas hostOffset remaining
      else
        match handleDependencies start (!v.metas.isEmpty) img.clusterAllocs remaining with
        | .wait id => if v.metas = [] then .wait id else .abort
        | .proceed curBytes =>
          if curBytes = 0 then .found img v.metas hostOffset remaining
          else
            match handleCopied s c img.l2 start clusterOffset curBytes with
            | .error .error => .error img v.metas
            | .error .assertion => .abort
            | .ok (.keep clusterOffset curBytes) =>
              searchLoop choices fuel img
                ⟨start, remaining, clusterOffset, hostOffset, curBytes, v.metas⟩
            | .ok (.none curBytes) =>
              if curBytes = 0 then .found img v.metas hostOffset remaining
              else
                match handleAlloc s c img start clusterOffset curBytes with
                | .error (.assertion, _) => .abort
                | .error (.error, false) => .error img v.metas
                | .error (.error, true) =>
                  .error ((v.metas.head?.map fun m => img.remove m.id).getD img) v.metas
                | .ok .full => .found img v.metas hostOffset remaining
                | .ok (.new m clusterOffset curBytes) =>
                  searchLoop choices fuel
                    { img with clusterAllocs := m :: img.clusterAllocs, nextId := img.nextId + 1 }
                    ⟨start, remaining, clusterOffset, hostOffset, curBytes, m :: v.metas⟩

/-- `qcow2_alloc_cluster_offset`, from `again` on.  The result is the number of sectors, the place
of the first one, and the new allocations. -/
def qcow2AllocClusterOffset (choices : Nat → Choice) (img : Image)
    (offset num : Nat) : SearchResult :=
  if offset % 512 ≠ 0 then .abort
  else
    match searchLoop s choices (num * 512 + 1) img ⟨offset, num * 512, 0, 0, 0, []⟩ with
    | .found img metas hostOffset remaining =>
      if num - remaining / 512 = 0 ∨ hostOffset = 0 then .abort
      else .found img metas hostOffset remaining
    | r => r

/-! ## Writes -/

/-- What a write waits for. -/
inductive Phase
  /-- an allocation of another write; `woken` when that is done -/
  | waiting (entry : Nat) (woken : Bool)
  | data (num : Nat) (metas : List L2Meta)
  /-- the copy before or behind the data of its first allocation -/
  | cow (atEnd : Bool) (num : Nat) (metas : List L2Meta)

structure WriteReq where
  id : Nat
  sectorNum : Nat
  remainingSectors : Nat
  phase : Phase

/-- What the environment does in one step of a write. -/
structure Choices where
  search : Nat → Choice
  /-- the checks between `qcow2_alloc_cluster_offset` and the data I/O succeed -/
  checks : Bool
  /-- `qcow2_alloc_cluster_link_l2` can load the L2 table of an allocation -/
  linkTable : Nat → Bool

/-- How a step of a write ends. -/
inductive Outcome
  | parked (img : Image) (req : WriteReq)
  | ended (img : Image)
  | abort

/-- The end of a write that failed: its allocations are taken off the list. -/
def failWrite (img : Image) (metas : List L2Meta) : Outcome :=
  .ended (metas.foldl (fun img m => img.remove m.id) img)

/-- The sectors of a part of a write.  `QCOW_MAX_CRYPT_CLUSTERS` is 32. -/
def curNrSectors (req : WriteReq) : Nat :=
  let clusterSectors := s.clusterSize / 512
  if s.encrypted then min req.remainingSectors
    (32 * clusterSectors - req.sectorNum % clusterSectors)
  else req.remainingSectors

/-- A part of a write, up to its data I/O. -/
def writePart (c : Choices) (img : Image) (req : WriteReq) : Outcome :=
  let num := curNrSectors s req
  match qcow2AllocClusterOffset s c.search img (req.sectorNum * 512) num with
  | .found img metas _ remaining =>
    if c.checks then .parked img { req with phase := .data (num - remaining / 512) metas }
    else failWrite img metas
  | .wait entry => .parked img { req with phase := .waiting entry false }
  | .error img metas => failWrite img metas
  | .abort => .abort

/-- `qcow2_alloc_cluster_link_l2` behind its copies, and what the loop of `qcow2_co_writev` does
with an allocation that was linked. -/
def linkTable (c : Choices) (img : Image) (m : L2Meta) (rest : List L2Meta)
    (next : Image → Outcome) : Outcome :=
  if !c.linkTable m.id then failWrite img (m :: rest)
  else if s.l2Size < s.offsetToL2Index m.offset + m.nbClusters then .abort
  else
    let first := m.offset / s.clusterSize
    let l2 k :=
      if first ≤ k ∧ k < first + m.nbClusters then
        ⟨m.allocOffset + (k - first) * s.clusterSize, true, false, false⟩
      else img.l2 k
    next ({ img with l2 := l2 }.remove m.id)

/-- The copy behind the data of an allocation, and what follows. -/
def linkCowEnd (c : Choices) (img : Image) (req : WriteReq) (num : Nat) (m : L2Meta)
    (rest : List L2Meta) (next : Image → Outcome) : Outcome :=
  if m.cowEnd.nbSectors ≠ 0 then .parked img { req with phase := .cow true num (m :: rest) }
  else linkTable s c img m rest next

def endPart (c : Choices) (req : WriteReq) (num : Nat) (img : Image) : Outcome :=
  let req :=
    { req with
      sectorNum := req.sectorNum + num
      remainingSectors := req.remainingSectors - num }
  if req.remainingSectors = 0 then .ended img else writePart s c img req

/-- The loop of `qcow2_co_writev` over its allocations. -/
def linkMetas (c : Choices) (req : WriteReq) (num : Nat) : List L2Meta → Image → Outcome
  | [], img => endPart s c req num img
  | m :: rest, img =>
    if m.cowStart.nbSectors ≠ 0 then .parked img { req with phase := .cow false num (m :: rest) }
    else linkCowEnd s c img req num m rest (linkMetas c req num rest)

structure WriteState where
  img : Image
  reqs : List WriteReq
  aborted : Bool

/-- `qemu_co_queue_restart_all`, of the allocations that are not in the list any more. -/
def WriteReq.wake (img : Image) (r : WriteReq) : WriteReq :=
  match r.phase with
  | .waiting entry _ =>
    if img.clusterAllocs.all (·.id ≠ entry) then { r with phase := .waiting entry true } else r
  | _ => r

def WriteState.after (st : WriteState) (id : Nat) : Outcome → WriteState
  | .parked img req =>
    { st with img := img, reqs := (req :: st.reqs.filter (·.id ≠ id)).map (WriteReq.wake img) }
  | .ended img =>
    { st with img := img, reqs := (st.reqs.filter (·.id ≠ id)).map (WriteReq.wake img) }
  | .abort => { st with aborted := true }

inductive WriteEvent
  | write (id sectorNum nbSectors : Nat) (c : Choices)
  /-- a woken write gets the lock -/
  | resume (id : Nat) (c : Choices)
  /-- the data of a write is written -/
  | dataDone (id : Nat) (ok : Bool) (c : Choices)
  | cowDone (id : Nat) (ok : Bool) (c : Choices)

def writeStep (st : WriteState) (e : WriteEvent) : Option WriteState :=
  if st.aborted then none
  else
    match e with
    | .write id sectorNum nbSectors c =>
      if st.reqs.any (·.id = id) ∨ nbSectors = 0 then none
      else some (st.after id (writePart s c st.img ⟨id, sectorNum, nbSectors, .data 0 []⟩))
    | .resume id c =>
      match st.reqs.find? (·.id = id) with
      | none => none
      | some req =>
        match req.phase with
        | .waiting _ true => some (st.after id (writePart s c st.img req))
        | _ => none
    | .dataDone id ok c =>
      match st.reqs.find? (·.id = id) with
      | none => none
      | some req =>
        match req.phase with
        | .data num metas =>
          if ok then some (st.after id (linkMetas s c req num metas st.img))
          else some (st.after id (failWrite st.img metas))
        | _ => none
    | .cowDone id ok c =>
      match st.reqs.find? (·.id = id) with
      | none => none
      | some req =>
        match req.phase with
        | .cow atEnd num (m :: rest) =>
          if ok then
            some (st.after id
              (if atEnd then linkTable s c st.img m rest (linkMetas s c req num rest)
              else linkCowEnd s c st.img req num m rest (linkMetas s c req num rest)))
          else some (st.after id (failWrite st.img (m :: rest)))
        | _ => none

/-- The writes of an image, from any contents of its L2 tables. -/
def writeMachine : Machine WriteState WriteEvent where
  init st := st.img.clusterAllocs = [] ∧ st.reqs = [] ∧ st.aborted = false
  step := writeStep s

end QemuAndroid.Qcow2
