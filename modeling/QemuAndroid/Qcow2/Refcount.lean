import QemuAndroid.Lib.Prog
import QemuAndroid.Qcow2.Cluster

/-!
# Refcounts and the allocation of clusters of a qcow2 image

Each cluster of the image file has a refcount.  The refcounts are in refcount blocks, the refcount
table says where the blocks are, and blocks and table lie in clusters of the same image file: when a
refcount is to be changed for which there is no block, `alloc_refcount_block` makes one, and it
makes a larger table when the table has no place for it.

A refcount block is seen through `s->refcount_block_cache`, so only its current contents are
modelled, and an access to it either finds them or fails (`RefState.loads`).  Writes to the image
and allocations of memory succeed.
-/

namespace QemuAndroid.Qcow2

open Lib Prog

/-! ## The image -/

inductive DiscardType
  | never
  | always
  | request
  | snapshot
  | other
deriving DecidableEq

/-- The errors of the functions below. -/
inductive Errno
  | eagain
  | einval
  | eio
  | efbig
deriving DecidableEq

/-- The part of a `BDRVQcowState` that does not change. -/
structure RefcountConfig extends Qcow2Config where
  refcountOrder : Nat
  discardPassthrough : DiscardType → Bool
  maxRefcountOrder : refcountOrder ≤ 6
  passthroughNever : discardPassthrough .never = false

namespace RefcountConfig

variable (s : RefcountConfig)

def refcountBlockBits : Nat := s.clusterBits + 3 - s.refcountOrder

def refcountBlockSize : Nat := 2 ^ s.refcountBlockBits

def refcountMax : Nat := 2 ^ 2 ^ s.refcountOrder - 1

def firstCluster (offset : Nat) : Nat := offset / s.clusterSize

/-- The number of clusters that a range of bytes touches. -/
def clusterCount (offset size : Nat) : Nat :=
  if size = 0 then 0 else (offset + size - 1) / s.clusterSize - offset / s.clusterSize + 1

end RefcountConfig

structure RefImage where
  refcountTable : Nat → Nat
  refcountTableSize : Nat
  refcountTableOffset : Nat
  /-- the refcounts in the block at an offset of the image file -/
  refcountBlocks : Nat → Nat → Nat

namespace RefImage

variable (cfg : RefcountConfig) (img : RefImage)

/-- The offset of the refcount block for an index of the table (`& REFT_OFFSET_MASK`), 0 for
none. -/
def blockOffset (index : Nat) : Nat :=
  if index < img.refcountTableSize then img.refcountTable index / 512 * 512 else 0

def refcount (cluster : Nat) : Nat :=
  if img.blockOffset (cluster / cfg.refcountBlockSize) = 0 then 0
  else img.refcountBlocks (img.blockOffset (cluster / cfg.refcountBlockSize))
    (cluster % cfg.refcountBlockSize)

def setRefcount (block index value : Nat) : RefImage :=
  { img with
    refcountBlocks := fun b i =>
      if b = block ∧ i = index then value else img.refcountBlocks b i }

/-- `memset(*refcount_block, 0, s->cluster_size)`. -/
def zeroBlock (block : Nat) : RefImage :=
  { img with refcountBlocks := fun b i => if b = block then 0 else img.refcountBlocks b i }

def setTable (index block : Nat) : RefImage :=
  { img with refcountTable := fun i => if i = index then block else img.refcountTable i }

end RefImage

structure DiscardRegion where
  offset : Nat
  bytes : Nat
deriving DecidableEq

/-- A call of `bdrv_discard`, with the refcounts that the clusters it touches have at this time. -/
structure Discard where
  sectorNum : Nat
  nbSectors : Nat
  refcounts : List Nat
deriving DecidableEq

/-- The part of a `BDRVQcowState` that changes. -/
structure RefState where
  img : RefImage
  freeClusterIndex : Nat
  freeByteOffset : Nat
  cacheDiscards : Bool
  discards : List DiscardRegion
  /-- the calls of `bdrv_discard` so far -/
  issued : List Discard
  /-- the errors of the next accesses to refcount blocks; those that are not listed succeed -/
  loads : List (Option Errno)

/-- Programs that use refcounts. -/
abbrev RefProg (α : Type) := Prog RefState Errno α

def modifyImage (f : RefImage → RefImage) : RefProg Unit :=
  modify fun s => { s with img := f s.img }

/-! ## Refcount blocks -/

def loadRefcountBlock (block : Nat) : RefProg Nat := do
  let s ← get
  modify fun s => { s with loads := s.loads.tail }
  match s.loads.head? with
  | some (some e) => raise e
  | _ => pure block

variable (cfg : RefcountConfig)

def getRefcount (clusterIndex : Nat) : RefProg Nat := do
  let s ← get
  let block := s.img.blockOffset (clusterIndex / cfg.refcountBlockSize)
  if block = 0 then pure 0
  else if cfg.offsetIntoCluster block ≠ 0 then raise .eio
  else do
    let block ← loadRefcountBlock block
    pure (s.img.refcountBlocks block (clusterIndex % cfg.refcountBlockSize))

/-! ## Discards -/

def RefImage.discard (img : RefImage) (d : DiscardRegion) : Discard where
  sectorNum := d.offset / 512
  nbSectors := d.bytes / 512
  refcounts := (List.range' (cfg.firstCluster (d.offset / 512 * 512))
      (cfg.clusterCount (d.offset / 512 * 512) (d.bytes / 512 * 512))).map (img.refcount cfg)

/-- The state after `qcow2_process_discards`. -/
def processed (failed : Bool) (s : RefState) : RefState :=
  { s with
    discards := []
    issued := if failed then s.issued else s.issued ++ s.discards.map (s.img.discard cfg) }

def processDiscards (failed : Bool) : RefProg Unit := modify (processed cfg failed)

/-- The region of the queue that a region extends, with those before and after it: the new region
itself at the tail, if it extends none. -/
def extendDiscard (r : DiscardRegion) :
    List DiscardRegion → Option (List DiscardRegion × DiscardRegion × List DiscardRegion)
  | [] => some ([], r, [])
  | d :: ds =>
    let newStart := min r.offset d.offset
    let newEnd := max (r.offset + r.bytes) (d.offset + d.bytes)
    if newEnd - newStart ≤ r.bytes + d.bytes then
      if d.bytes + r.bytes = newEnd - newStart then some ([], ⟨newStart, newEnd - newStart⟩, ds)
      else none
    else (extendDiscard r ds).map fun (before, d', after) => (d :: before, d', after)

def mergeDiscards (d : DiscardRegion) :
    List DiscardRegion → Option (DiscardRegion × List DiscardRegion)
  | [] => some (d, [])
  | p :: ps =>
    if p.offset > d.offset + d.bytes ∨ d.offset > p.offset + p.bytes then
      (mergeDiscards d ps).map fun (d', ps') => (d', p :: ps')
    else if p.offset = d.offset + d.bytes ∨ d.offset = p.offset + p.bytes then
      mergeDiscards ⟨min d.offset p.offset, d.bytes + p.bytes⟩ ps
    else none

/-- The queue with a new region; `none` when an assertion fails. -/
def queueDiscard (r : DiscardRegion) (queue : List DiscardRegion) : Option (List DiscardRegion) :=
  (extendDiscard r queue).bind fun (before, d, after) =>
    (mergeDiscards d before).bind fun (d, before) =>
      (mergeDiscards d after).map fun (d, after) => before ++ d :: after

def updateRefcountDiscard (offset length : Nat) : RefProg Unit := do
  let s ← get
  match queueDiscard ⟨offset, length⟩ s.discards with
  | none => halt .assertion
  | some queue => modify fun s => { s with discards := queue }

/-! ## The search for free clusters -/

/-- The loop of `alloc_clusters_noref`; `found` clusters before the next one are free. -/
def findFree (nbClusters : Nat) : Nat → Nat → RefProg Unit
  | 0, _ => halt .fuel
  | fuel + 1, found =>
    if found = nbClusters then pure ()
    else do
      let s ← get
      modify fun s => { s with freeClusterIndex := s.freeClusterIndex + 1 }
      let refcount ← getRefcount cfg s.freeClusterIndex
      if refcount ≠ 0 then findFree nbClusters fuel 0
      else findFree nbClusters fuel (found + 1)

/-- All clusters behind those of the table are free. -/
def searchFuel (s : RefState) (nbClusters : Nat) : Nat :=
  s.img.refcountTableSize * cfg.refcountBlockSize + nbClusters + 1

def allocClustersNoref (size : Nat) : RefProg Nat := do
  let s ← get
  when s.cacheDiscards (processDiscards cfg false)
  findFree cfg (cfg.sizeToClusters size) (searchFuel cfg s (cfg.sizeToClusters size)) 0
  let s ← get
  if 0 < s.freeClusterIndex ∧ s.freeClusterIndex - 1 > (2 ^ 63 - 1) / cfg.clusterSize then
    raise .efbig
  else pure ((s.freeClusterIndex - cfg.sizeToClusters size) * cfg.clusterSize)

/-! ## Refcount blocks and the refcount table -/

/-- `update_refcount`, as it is called from the functions that it calls itself. -/
abbrev UpdateFn := Nat → Int → Nat → Bool → DiscardType → RefProg Unit

def inSameRefcountBlock (offsetA offsetB : Nat) : Bool :=
  offsetA / (cfg.clusterSize * cfg.refcountBlockSize) ==
    offsetB / (cfg.clusterSize * cfg.refcountBlockSize)

/-- The loop of `next_refcount_table_size`; each round adds at least one cluster. -/
def nextTableClusters (minClusters : Nat) : Nat → Nat → Nat
  | 0, clusters => clusters
  | fuel + 1, clusters =>
    if minClusters > clusters then nextTableClusters minClusters fuel ((clusters * 3 + 1) / 2)
    else clusters

def nextRefcountTableSize (img : RefImage) (minSize : Nat) : Nat :=
  nextTableClusters (minSize / 2 ^ (cfg.clusterBits - 3) + 1)
    (minSize / 2 ^ (cfg.clusterBits - 3) + 1)
    (max 1 (img.refcountTableSize / 2 ^ (cfg.clusterBits - 3))) * 2 ^ (cfg.clusterBits - 3)

def tableClusters (tableSize : Nat) : Nat := cfg.sizeToClusters (tableSize * 8)

/-- `blocks_clusters`: the blocks for the clusters of the table and of the blocks themselves. -/
def blocksClusters (tableSize : Nat) : Nat :=
  1 + (tableClusters cfg tableSize + cfg.refcountBlockSize - 1) / cfg.refcountBlockSize

/-- A round of the loop that computes `table_size`. -/
def tableSizeRound (img : RefImage) (blocksUsed tableSize : Nat) : Nat :=
  nextRefcountTableSize cfg img (blocksUsed +
    (tableClusters cfg tableSize + blocksClusters cfg tableSize + cfg.refcountBlockSize - 1) /
      cfg.refcountBlockSize)

def newTableSize (img : RefImage) (blocksUsed fuel : Nat) : RefProg Nat :=
  iterate (fun tableSize =>
    if tableSize = tableSizeRound cfg img blocksUsed tableSize then pure (.inr tableSize)
    else pure (.inl (tableSizeRound cfg img blocksUsed tableSize)))
    fuel (nextRefcountTableSize cfg img (blocksUsed + 1))

def maxReftableSize : Nat := 0x800000

/-- `blocks_used`: the number of blocks for the clusters up to those given. -/
def blocksUsed (clusterIndex newBlock : Nat) : Nat :=
  (max (clusterIndex + 1) (newBlock / cfg.clusterSize + 1) + cfg.refcountBlockSize - 1) /
    cfg.refcountBlockSize

def metaOffset (used : Nat) : Nat := used * cfg.refcountBlockSize * cfg.clusterSize

/-- The new table, with the blocks that describe it and themselves. -/
def RefImage.switchTable (img : RefImage) (index newBlock used tableSize : Nat) : RefImage where
  refcountTable := fun i =>
    if used ≤ i ∧ i < used + blocksClusters cfg tableSize then
      metaOffset cfg used + (i - used) * cfg.clusterSize
    else if i = index then newBlock
    else if i < img.refcountTableSize then img.refcountTable i
    else 0
  refcountTableSize := tableSize
  refcountTableOffset := metaOffset cfg used + blocksClusters cfg tableSize * cfg.clusterSize
  refcountBlocks := fun b i =>
    if metaOffset cfg used ≤ b ∧
        b < metaOffset cfg used + blocksClusters cfg tableSize * cfg.clusterSize then
      if (b - metaOffset cfg used) / cfg.clusterSize * cfg.refcountBlockSize + i <
          tableClusters cfg tableSize + blocksClusters cfg tableSize then 1 else 0
    else img.refcountBlocks b i

/-- The last part of `alloc_refcount_block`, with a block for which the table has no place. -/
def growTable (fuel : Nat) (update : UpdateFn) (clusterIndex newBlock : Nat) : RefProg Nat := do
  let s ← get
  let used := blocksUsed cfg clusterIndex newBlock
  if used > maxReftableSize / 8 then raise .efbig
  else do
    let tableSize ← newTableSize cfg s.img used fuel
    -- otherwise `new_blocks` is too small for its refcounts
    if tableClusters cfg tableSize + blocksClusters cfg tableSize >
        blocksClusters cfg tableSize * cfg.refcountBlockSize then halt .undefined
    else do
      modifyImage fun img =>
        img.switchTable cfg (clusterIndex / cfg.refcountBlockSize) newBlock used tableSize
      -- `qcow2_free_clusters` only reports its errors
      let _ ← attempt
        (update s.img.refcountTableOffset (s.img.refcountTableSize * 8) 1 true .other)
      let _ ← loadRefcountBlock newBlock
      raise .eagain

/-- The new block becomes an empty one that is in use. -/
def initBlock (update : UpdateFn) (clusterIndex newBlock : Nat) : RefProg Unit :=
  if inSameRefcountBlock cfg newBlock (clusterIndex * cfg.clusterSize) then
    modifyImage fun img => (img.zeroBlock newBlock).setRefcount newBlock
      (newBlock / cfg.clusterSize % cfg.refcountBlockSize) 1
  else do
    update newBlock cfg.clusterSize 1 false .never
    modifyImage fun img => img.zeroBlock newBlock

def allocRefcountBlock (fuel : Nat) (update : UpdateFn) (clusterIndex : Nat) : RefProg Nat := do
  let s ← get
  let index := clusterIndex / cfg.refcountBlockSize
  -- `refcount_table_index` is an unsigned int
  if 2 ^ 32 ≤ index then halt .undefined
  else if s.img.blockOffset index ≠ 0 then
    if cfg.offsetIntoCluster (s.img.blockOffset index) ≠ 0 then raise .eio
    else loadRefcountBlock (s.img.blockOffset index)
  else do
    let newBlock ← allocClustersNoref cfg cfg.clusterSize
    initBlock cfg update clusterIndex newBlock
    let s ← get
    if index < s.img.refcountTableSize then do
      modifyImage fun img => img.setTable index newBlock
      raise .eagain
    else growTable cfg fuel update clusterIndex newBlock

/-! ## Changing refcounts -/

/-- The refcount after an update, `none` when it is out of range.  Both operands are below `2 ^ 64`:
a sum that wraps around is above `s->refcount_max` too. -/
def newRefcount (refcount addend : Nat) (decrease : Bool) : Option Nat :=
  if decrease then
    if refcount < addend then none else some (refcount - addend)
  else if cfg.refcountMax < refcount + addend then none
  else some (refcount + addend)

def updateEntry (addend : Nat) (decrease : Bool) (type : DiscardType) (block clusterIndex : Nat) :
    RefProg Unit := do
  let s ← get
  let blockIndex := clusterIndex % cfg.refcountBlockSize
  match newRefcount cfg (s.img.refcountBlocks block blockIndex) addend decrease with
  | none => raise .einval
  | some refcount => do
      when (refcount = 0 ∧ clusterIndex < s.freeClusterIndex)
        (modify fun s => { s with freeClusterIndex := clusterIndex })
      assert (refcount ≤ cfg.refcountMax)
      modifyImage fun img => img.setRefcount block blockIndex refcount
      when (refcount = 0 ∧ cfg.discardPassthrough type)
        (updateRefcountDiscard (clusterIndex * cfg.clusterSize) cfg.clusterSize)

/-- The block for a cluster, which is the current one or has to be loaded. -/
def blockFor (alloc : Nat → RefProg Nat) (clusterIndex : Nat) (current : Option (Nat × Nat)) :
    RefProg Nat :=
  match current with
  | some (oldTableIndex, block) =>
    if oldTableIndex = clusterIndex / cfg.refcountBlockSize then pure block
    else alloc clusterIndex
  | none => alloc clusterIndex

/-- The loop of `update_refcount` over a number of clusters: where it ends, and the error. -/
def updateClusters (alloc : Nat → RefProg Nat) (addend : Nat) (decrease : Bool)
    (type : DiscardType) : Nat → Nat → Option (Nat × Nat) → RefProg (Nat × Option Errno)
  | 0, clusterIndex, _ => pure (clusterIndex, none)
  | count + 1, clusterIndex, current => do
      match ← attempt (blockFor cfg alloc clusterIndex current) with
      | .error e => pure (clusterIndex, some e)
      | .ok block => do
          match ← attempt (updateEntry cfg addend decrease type block clusterIndex) with
          | .error e => pure (clusterIndex, some e)
          | .ok _ =>
            updateClusters alloc addend decrease type count (clusterIndex + 1)
              (some (clusterIndex / cfg.refcountBlockSize, block))

/-- `update_refcount`, with a bound on the depth of its recursion. -/
def updateRefcount : Nat → UpdateFn
  | 0, _, _, _, _, _ => halt .fuel
  | fuel + 1, offset, length, addend, decrease, type =>
    if length < 0 then raise .einval
    else if length = 0 then pure ()
    else do
      let (last, error) ← updateClusters cfg
        (allocRefcountBlock cfg fuel (updateRefcount fuel)) addend decrease type
        (cfg.clusterCount offset length.toNat) (cfg.firstCluster offset) none
      let s ← get
      when (s.cacheDiscards = false) (processDiscards cfg error.isSome)
      match error with
      | none => pure ()
      | some e => do
          -- undo what has been done before the error
          let _ ← attempt (updateRefcount fuel offset
            ((last * cfg.clusterSize : Nat) - (offset : Int)) addend (!decrease) .never)
          raise e

/-! ## Allocation -/

def allocClusters (fuel size : Nat) : RefProg Nat := iterate (fun _ : Unit => do
    let offset ← allocClustersNoref cfg size
    match ← attempt (updateRefcount cfg fuel offset size 1 false .never) with
    | .ok _ => pure (.inr offset)
    | .error .eagain => pure (.inl ())
    | .error e => raise e) fuel ()

def countFree : Nat → Nat → RefProg Nat
  | 0, _ => pure 0
  | count + 1, clusterIndex => do
      let refcount ← getRefcount cfg clusterIndex
      if refcount ≠ 0 then pure 0
      else do
        let n ← countFree count (clusterIndex + 1)
        pure (n + 1)

def allocClustersAt (fuel offset nbClusters : Nat) : RefProg Nat :=
  if nbClusters = 0 then pure 0
  else
    iterate (fun _ : Unit => do
      let n ← countFree cfg nbClusters (offset / cfg.clusterSize)
      match ← attempt
        (updateRefcount cfg fuel offset (n * cfg.clusterSize : Nat) 1 false .never) with
      | .ok _ => pure (.inr n)
      | .error .eagain => pure (.inl ())
      | .error e => raise e) fuel ()

/-- Where `qcow2_alloc_bytes` goes on, 0 for a new cluster. -/
def startBytes : RefProg Nat := do
  let s ← get
  if s.freeByteOffset = 0 then pure 0
  else do
    let refcount ← getRefcount cfg (s.freeByteOffset / cfg.clusterSize)
    pure (if refcount = cfg.refcountMax then 0 else s.freeByteOffset)

/-- A new cluster for `qcow2_alloc_bytes`, if the bytes do not fit. -/
def newBytesCluster (size freeInCluster offset : Nat) : RefProg Nat :=
  if offset = 0 ∨ freeInCluster < size then do
    let newCluster ← allocClustersNoref cfg cfg.clusterSize
    -- the first part of `ROUND_UP(offset, s->cluster_size) == new_cluster` goes to the old cluster
    pure (if offset = 0 ∨
        (offset + cfg.clusterSize - 1) / cfg.clusterSize * cfg.clusterSize ≠ newCluster
      then newCluster else offset)
  else pure offset

/-- One update of `qcow2_alloc_bytes`, and whether it is done. -/
def bytesUpdate (fuel size offset : Nat) : RefProg (Nat ⊕ Nat) := do
  match ← attempt (updateRefcount cfg fuel offset size 1 false .never) with
  | .ok _ => pure (.inr offset)
  | .error .eagain => pure (.inl offset)
  | .error e => raise e

/-- The loop of `qcow2_alloc_bytes`, once. -/
def bytesAttempt (fuel size start offset : Nat) : RefProg (Nat ⊕ Nat) := do
  let offset ← newBytesCluster cfg size (cfg.clusterSize - cfg.offsetIntoCluster start) offset
  assert (offset ≠ 0)
  bytesUpdate cfg fuel size offset

/-- The offset where `qcow2_alloc_bytes` goes on next. -/
def nextBytes (offset size : Nat) : Nat :=
  if cfg.offsetIntoCluster (offset + size) = 0 then 0 else offset + size

/-- `qcow2_alloc_bytes`. -/
def allocBytes (fuel size : Nat) : RefProg Nat := do
  assert (0 < size ∧ size ≤ cfg.clusterSize)
  let s ← get
  assert (s.freeByteOffset = 0 ∨ cfg.offsetIntoCluster s.freeByteOffset ≠ 0)
  let start ← startBytes cfg
  let offset ← iterate (bytesAttempt cfg fuel size start) fuel start
  modify fun s => { s with freeByteOffset := nextBytes cfg offset size }
  pure offset

def freeClusters (fuel offset size : Nat) (type : DiscardType) : RefProg Unit := do
  let _ ← attempt (updateRefcount cfg fuel offset size 1 true type)
  pure ()

end QemuAndroid.Qcow2
