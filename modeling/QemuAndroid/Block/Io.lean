import QemuAndroid.Block.Request
import QemuAndroid.Lib.Slice
import QemuAndroid.Util.Iov

/-!
# Reading and writing through the block layer

`bdrv_co_do_preadv` and `bdrv_co_do_pwritev` accept requests for any range of bytes and turn them
into requests for whole blocks of the driver: a read is padded, a write reads the rest of its first
and last block before, and a write of zeroes is cut into a head, a middle and a tail.

The driver stores bytes in blocks of `align` bytes.  It is promised to do its work for whole blocks
only: what it makes of a call for anything else is a part of its own (`oddRead`, `oddWrite`).
Behind its end a driver may return anything.  Requests run one at a time, so none waits for another;
every call of the driver, and the notifiers before a write, succeed.
-/

namespace QemuAndroid.Block

open Lib Util

def requestMaxSectors : Nat := (2 ^ 31 - 1) / 512

/-- `MAX_WRITE_ZEROES_BOUNCE_BUFFER`, in sectors. -/
def maxWriteZeroesBounceBuffer : Nat := 32768

def minNonZero (a b : Nat) : Nat := if a ≠ 0 ∧ a < b then a else b

/-- The `BlockLimits` of zero writes, in sectors. -/
structure BlockLimits where
  maxWriteZeroes : Nat
  writeZeroesAlignment : Nat
  maxTransferLength : Nat

inductive DetectZeroes
  | off
  | on
  | unmap
deriving DecidableEq

structure RequestFlags where
  zeroWrite : Bool
  mayUnmap : Bool

/-- A driver: the bytes it stores, and its length in sectors. -/
structure Driver where
  disk : Buffer
  sectors : Nat

/-- A device: what the block layer knows of it, and what its driver makes of odd calls.  The
alignments that drivers ask for are powers of two below `INT_MAX`. -/
structure BlockConfig where
  requestAlignment : Nat
  limits : BlockLimits
  /-- `drv->bdrv_co_write_zeroes`, if the driver has it: whether a call for some sectors succeeds,
  or returns `-ENOTSUP` -/
  writeZeroes : Option (Nat → Nat → Bool)
  /-- what the driver reads for a call that is not for whole blocks -/
  oddRead : Driver → Nat → Nat → List UInt8
  /-- what the driver does for a write that is not for whole blocks -/
  oddWrite : Driver → Nat → List UInt8 → Driver
  detectZeroes : DetectZeroes
  hasVariableLength : Bool
  zeroBeyondEof : Bool
  readOnly : Bool
  inserted : Bool
  requestAlignment_pow : ∃ k, requestAlignment = 2 ^ k
  requestAlignment_lt : requestAlignment < 2 ^ 31 - 1

variable (cfg : BlockConfig)

def BlockConfig.align : Nat := max 512 cfg.requestAlignment

structure BlockState where
  driver : Driver
  totalSectors : Nat

/-- Errors of a request, and failed assertions. -/
inductive BlockError
  | enomedium
  | eperm
  | eio
  | assertion
deriving DecidableEq

/-- An error unless a condition holds. -/
def check (c : Prop) [Decidable c] (e : BlockError) : Except BlockError Unit :=
  if c then .ok () else .error e

/-- The result of a helper that ends in an assertion. -/
def asserted {α : Type} (x : Option α) : Except BlockError α :=
  match x with
  | some a => .ok a
  | none => .error .assertion

/-! ## The driver -/

def BlockConfig.Aligned (sectorNum nbSectors : Nat) : Prop :=
  cfg.align ∣ 512 * sectorNum ∧ cfg.align ∣ 512 * nbSectors

instance (cfg : BlockConfig) (sectorNum nbSectors : Nat) :
    Decidable (cfg.Aligned sectorNum nbSectors) :=
  inferInstanceAs (Decidable (_ ∧ _))

/-- The driver after data was stored from a sector on.  What lies between its old end and the data
reads as zeroes; storing nothing does not move the end. -/
def Driver.store (d : Driver) (sectorNum : Nat) (data : List UInt8) : Driver where
  disk := overwrite
    (fun p => if data ≠ [] ∧ 512 * d.sectors ≤ p ∧ p < 512 * sectorNum then 0 else d.disk p)
    (512 * sectorNum) data
  sectors := if data = [] then d.sectors else max d.sectors (sectorNum + data.length / 512)

def drvReadv (d : Driver) (sectorNum nbSectors : Nat) (qiov : List IoVec) (mem : Buffer) : Buffer :=
  if cfg.Aligned sectorNum nbSectors then
    scatter (iovAddrs qiov) (slice d.disk (512 * sectorNum) (512 * nbSectors)) mem
  else scatter (iovAddrs qiov) (cfg.oddRead d sectorNum nbSectors) mem

def drvWritev (d : Driver) (sectorNum nbSectors : Nat) (data : List UInt8) : Driver :=
  if cfg.Aligned sectorNum nbSectors then d.store sectorNum data else cfg.oddWrite d sectorNum data

/-- `drv->bdrv_co_write_zeroes`, when it succeeds. -/
def drvWriteZeroes (d : Driver) (sectorNum nbSectors : Nat) : Driver :=
  drvWritev cfg d sectorNum nbSectors (List.replicate (512 * nbSectors) 0)

/-! ## Aligned requests -/

def bdrvCheckByteRequest (size : Nat) : Except BlockError Unit :=
  if 512 * requestMaxSectors < size then .error .eio
  else if !cfg.inserted then .error .enomedium
  else .ok ()

variable (bs : BlockState)

def bdrvNbSectors : Nat := if cfg.hasVariableLength then bs.driver.sectors else bs.totalSectors

/-- The read of `bdrv_aligned_preadv` up to the end of the device, which is `maxNbSectors` away. -/
def readUntilEof (sectorNum nbSectors maxNbSectors : Nat) (qiov : List IoVec) (mem : Buffer) :
    Except BlockError Buffer :=
  if nbSectors < maxNbSectors then .ok (drvReadv cfg bs.driver sectorNum nbSectors qiov mem)
  else if 0 < maxNbSectors then do
    let localQiov ← asserted (qemuIovecConcat [] qiov 0 (maxNbSectors * 512))
    return drvReadv cfg bs.driver sectorNum maxNbSectors localQiov mem
  else .ok mem

/-- Reading beyond the end of the device produces zeroes. -/
def zeroAfterEof (totalSectors sectorNum nbSectors : Nat) (qiov : List IoVec) (mem : Buffer) :
    Except BlockError Buffer :=
  if totalSectors < sectorNum + nbSectors then
    asserted (iovMemset 0 qiov ((totalSectors - sectorNum) * 512)
      ((sectorNum + nbSectors - (totalSectors - sectorNum)) * 512) mem)
  else .ok mem

/-- `bdrv_aligned_preadv`, without copy on read. -/
def bdrvAlignedPreadv (offset bytes : Nat) (qiov : List IoVec) (mem : Buffer) :
    Except BlockError Buffer := do
  let sectorNum := offset / 512
  let nbSectors := bytes / 512
  check (offset % 512 = 0 ∧ bytes % 512 = 0 ∧ bytes = iovSize qiov) .assertion
  if !cfg.zeroBeyondEof then return drvReadv cfg bs.driver sectorNum nbSectors qiov mem
  else
    let totalSectors := bdrvNbSectors cfg bs
    let maxNbSectors := roundUp (totalSectors - sectorNum) (cfg.align / 512)
    let mem ← readUntilEof cfg bs sectorNum nbSectors maxNbSectors qiov mem
    zeroAfterEof totalSectors sectorNum nbSectors qiov mem

/-- How much `bdrv_co_do_write_zeroes` asks the driver to zero at once. -/
def zeroPiece (bl : BlockLimits) (sectorNum nbSectors : Nat) : Nat :=
  let num :=
    if bl.writeZeroesAlignment ≠ 0 ∧ bl.writeZeroesAlignment < nbSectors then
      if sectorNum % bl.writeZeroesAlignment ≠ 0 then
        -- a small request up to the first aligned sector
        bl.writeZeroesAlignment - sectorNum % bl.writeZeroesAlignment
      else if (sectorNum + nbSectors) % bl.writeZeroesAlignment ≠ 0 then
        -- up to the last aligned sector
        nbSectors - (sectorNum + nbSectors) % bl.writeZeroesAlignment
      else nbSectors
    else nbSectors
  min num (minNonZero bl.maxWriteZeroes requestMaxSectors)

/-- `max_xfer_len`, the longest write from the bounce buffer. -/
def maxXferLen (bl : BlockLimits) : Nat :=
  minNonZero bl.maxTransferLength maxWriteZeroesBounceBuffer

/-- Whether the driver zeroes some sectors itself. -/
def BlockConfig.zeroes (sectorNum num : Nat) : Bool :=
  match cfg.writeZeroes with
  | none => false
  | some supports => supports sectorNum num

structure ZeroCall where
  sectorNum : Nat
  num : Nat
  /-- the sectors of the bounce buffer, if the call writes from it -/
  buffer : Option Nat

/-- `bdrv_co_do_write_zeroes`: the driver after it, and the calls that succeeded.  `buf` is the
bounce buffer that is kept from the pass before.  Every pass zeroes at least one sector. -/
def bdrvCoDoWriteZeroes : Nat → Driver → Nat → Nat → Option Nat → Driver × List ZeroCall
  | 0, d, _, _, _ => (d, [])
  | fuel + 1, d, sectorNum, nbSectors, buf =>
    if nbSectors = 0 then (d, [])
    else
      let num := zeroPiece cfg.limits sectorNum nbSectors
      if cfg.zeroes sectorNum num then
        let r := bdrvCoDoWriteZeroes fuel (drvWriteZeroes cfg d sectorNum num) (sectorNum + num)
          (nbSectors - num) buf
        (r.1, ⟨sectorNum, num, none⟩ :: r.2)
      else
        let num := min num (maxXferLen cfg.limits)
        let len := buf.getD num
        let d := drvWritev cfg d sectorNum num (List.replicate (512 * num) 0)
        let r := bdrvCoDoWriteZeroes fuel d (sectorNum + num) (nbSectors - num)
          -- kept if it is big enough for all future requests
          (if num < maxXferLen cfg.limits then none else some len)
        (r.1, ⟨sectorNum, num, some len⟩ :: r.2)

/-- The flags of a write, when its data turns out to be zeroes. -/
def detectZeroes (flags : RequestFlags) (qiov : Option (List IoVec)) (mem : Buffer) :
    RequestFlags :=
  match qiov with
  | some qiov =>
    if cfg.detectZeroes ≠ .off ∧ !flags.zeroWrite ∧ cfg.writeZeroes.isSome ∧
        qemuIovecIsZero qiov mem then
      ⟨true, flags.mayUnmap || cfg.detectZeroes = .unmap⟩
    else flags
  | none => flags

/-- What `bdrv_aligned_pwritev` asks the driver to do. -/
def writeDriver (d : Driver) (sectorNum nbSectors : Nat) (qiov : Option (List IoVec))
    (flags : RequestFlags) (mem : Buffer) : Except BlockError Driver :=
  if flags.zeroWrite then
    .ok (bdrvCoDoWriteZeroes cfg nbSectors d sectorNum nbSectors none).1
  else
    match qiov with
    | some qiov => .ok (drvWritev cfg d sectorNum nbSectors (gather qiov mem))
    | none => .error .assertion

def bdrvAlignedPwritev (req : TrackedRequest) (offset bytes : Nat) (qiov : Option (List IoVec))
    (flags : RequestFlags) (mem : Buffer) : Except BlockError BlockState := do
  let sectorNum := offset / 512
  let nbSectors := bytes / 512
  check (offset % 512 = 0 ∧ bytes % 512 = 0 ∧ ∀ q ∈ qiov, bytes = iovSize q) .assertion
  check (req.overlapOffset ≤ offset ∧ offset + bytes ≤ req.overlapOffset + req.overlapBytes)
    .assertion
  let flags := detectZeroes cfg flags qiov mem
  let driver ← writeDriver cfg bs.driver sectorNum nbSectors qiov flags mem
  return ⟨driver, max bs.totalSectors (sectorNum + nbSectors)⟩

/-! ## Requests for bytes -/

/-- The buffers that `qemu_blockalign` returns, of `align` bytes each. -/
structure PadBuffers where
  head : Nat
  tail : Nat

/-- The vector that a tail is added to: a copy of the caller's, unless there is one already. -/
def localQiov (useLocalQiov : Bool) (qiov : List IoVec) : Except BlockError (List IoVec) :=
  if useLocalQiov then .ok qiov else asserted (qemuIovecConcat [] qiov 0 (iovSize qiov))

/-- The padding of a read before its first byte. -/
def readHead (offset bytes : Nat) (qiov : List IoVec) (bufs : PadBuffers) :
    Except BlockError (List IoVec × Bool × Nat × Nat) :=
  let align := cfg.align
  if offset % align ≠ 0 then do
    let qiov ← asserted (qemuIovecConcat [⟨bufs.head, offset % align⟩] qiov 0 (iovSize qiov))
    .ok (qiov, true, alignDown offset align, (bytes + offset % align) % 2 ^ 32)
  else .ok (qiov, false, offset, bytes)

/-- The padding of a read behind its last byte. -/
def readTail (offset bytes : Nat) (qiov : List IoVec) (useLocalQiov : Bool) (bufs : PadBuffers) :
    Except BlockError (List IoVec × Nat) :=
  let align := cfg.align
  if (offset + bytes) % align ≠ 0 then do
    let qiov ← localQiov useLocalQiov qiov
    .ok (qiov ++ [⟨bufs.tail, align - (offset + bytes) % align⟩], roundUp bytes align % 2 ^ 32)
  else .ok (qiov, bytes)

def bdrvCoDoPreadv (offset bytes : Nat) (qiov : List IoVec) (bufs : PadBuffers) (mem : Buffer) :
    Except BlockError Buffer := do
  bdrvCheckByteRequest cfg bytes
  -- align the read if necessary by padding qiov
  let (qiov, useLocalQiov, offset, bytes) ← readHead cfg offset bytes qiov bufs
  let (qiov, bytes) ← readTail cfg offset bytes qiov useLocalQiov bufs
  bdrvAlignedPreadv cfg bs offset bytes qiov mem

/-- The part of `bdrv_co_do_zero_pwritev` before the first whole block: the state, the request, the
buffer's memory, and what is left of the request. -/
def zeroHead (offset bytes : Nat) (flags : RequestFlags) (req : TrackedRequest) (buf : Nat)
    (mem : Buffer) : Except BlockError (BlockState × TrackedRequest × Buffer × Nat × Nat) :=
  let align := cfg.align
  let headPaddingBytes := offset % align
  if headPaddingBytes ≠ 0 then do
    let zeroBytes := min bytes (align - headPaddingBytes)
    let req := req.markSerialising align
    let mem ← bdrvAlignedPreadv cfg bs (alignDown offset align) align [⟨buf, align⟩] mem
    let mem := memset mem (buf + headPaddingBytes) 0 zeroBytes
    let bs ← bdrvAlignedPwritev cfg bs req (alignDown offset align) align (some [⟨buf, align⟩])
      { flags with zeroWrite := false } mem
    .ok (bs, req, mem, offset + zeroBytes, bytes - zeroBytes)
  else .ok (bs, req, mem, offset, bytes)

/-- The whole blocks of `bdrv_co_do_zero_pwritev`. -/
def zeroMiddle (offset bytes : Nat) (flags : RequestFlags) (req : TrackedRequest) (mem : Buffer) :
    Except BlockError (BlockState × Nat × Nat) :=
  let align := cfg.align
  if align ≤ bytes then do
    let alignedBytes := alignDown bytes align
    let bs ← bdrvAlignedPwritev cfg bs req offset alignedBytes none flags mem
    .ok (bs, offset + alignedBytes, bytes - alignedBytes)
  else .ok (bs, offset, bytes)

/-- The part of `bdrv_co_do_zero_pwritev` behind the last whole block. -/
def zeroTail (offset bytes : Nat) (flags : RequestFlags) (req : TrackedRequest)
    (tailPaddingBytes buf : Nat) (mem : Buffer) : Except BlockError BlockState :=
  let align := cfg.align
  if bytes ≠ 0 then do
    check (align = tailPaddingBytes + bytes) .assertion
    let req := req.markSerialising align
    let mem ← bdrvAlignedPreadv cfg bs offset align [⟨buf, align⟩] mem
    let mem := memset mem buf 0 bytes
    bdrvAlignedPwritev cfg bs req offset align (some [⟨buf, align⟩])
      { flags with zeroWrite := false } mem
  else .ok bs

def bdrvCoDoZeroPwritev (offset bytes : Nat) (flags : RequestFlags) (req : TrackedRequest)
    (buf : Nat) (mem : Buffer) : Except BlockError BlockState := do
  let align := cfg.align
  let tailPaddingBytes := align - (offset + bytes) % align
  check (flags.zeroWrite = true) .assertion
  let (bs, req, mem, offset, bytes) ← zeroHead cfg bs offset bytes flags req buf mem
  check (bytes = 0 ∨ offset % align = 0) .assertion
  let (bs, offset, bytes) ← zeroMiddle cfg bs offset bytes flags req mem
  check (bytes = 0 ∨ offset % align = 0) .assertion
  zeroTail cfg bs offset bytes flags req tailPaddingBytes buf mem

/-- The first block of a write: the request, the memory with the old bytes before the data, and the
padded request. -/
def writeHead (offset bytes : Nat) (qiov : List IoVec) (req : TrackedRequest) (bufs : PadBuffers)
    (mem : Buffer) : Except BlockError (TrackedRequest × Buffer × List IoVec × Bool × Nat × Nat) :=
  let align := cfg.align
  if offset % align ≠ 0 then do
    let req := req.markSerialising align
    let mem ← bdrvAlignedPreadv cfg bs (alignDown offset align) align [⟨bufs.head, align⟩] mem
    let qiov ← asserted (qemuIovecConcat [⟨bufs.head, offset % align⟩] qiov 0 (iovSize qiov))
    .ok (req, mem, qiov, true, alignDown offset align, (bytes + offset % align) % 2 ^ 32)
  else .ok (req, mem, qiov, false, offset, bytes)

/-- The last block of a write, likewise. -/
def writeTail (offset bytes : Nat) (qiov : List IoVec) (useLocalQiov : Bool) (req : TrackedRequest)
    (bufs : PadBuffers) (mem : Buffer) :
    Except BlockError (TrackedRequest × Buffer × List IoVec × Nat) :=
  let align := cfg.align
  if (offset + bytes) % align ≠ 0 then do
    let req := req.markSerialising align
    let mem ← bdrvAlignedPreadv cfg bs (alignDown (offset + bytes) align) align
      [⟨bufs.tail, align⟩] mem
    let qiov ← localQiov useLocalQiov qiov
    let tailBytes := (offset + bytes) % align
    .ok (req, mem, qiov ++ [⟨bufs.tail + tailBytes, align - tailBytes⟩],
      roundUp bytes align % 2 ^ 32)
  else .ok (req, mem, qiov, bytes)

def bdrvCoDoPwritev (offset bytes : Nat) (qiov : Option (List IoVec)) (flags : RequestFlags)
    (bufs : PadBuffers) (mem : Buffer) : Except BlockError BlockState := do
  check (cfg.readOnly = false) .eperm
  bdrvCheckByteRequest cfg bytes
  let req := trackedRequestBegin offset bytes true
  match qiov with
  | none => bdrvCoDoZeroPwritev cfg bs offset bytes flags req bufs.head mem
  | some qiov => do
      let (req, mem, qiov, useLocalQiov, offset, bytes) ←
        writeHead cfg bs offset bytes qiov req bufs mem
      let (req, mem, qiov, bytes) ← writeTail cfg bs offset bytes qiov useLocalQiov req bufs mem
      bdrvAlignedPwritev cfg bs req offset bytes (some qiov) flags mem

/-! ## Sequences of requests -/

/-- A request of a caller, with the host memory at the time of the call. -/
inductive BlockOp
  | read (offset : Nat) (qiov : List IoVec) (bufs : PadBuffers) (mem : Buffer)
  | write (offset : Nat) (qiov : List IoVec) (mayUnmap : Bool) (bufs : PadBuffers) (mem : Buffer)
  | writeZeroes (offset bytes : Nat) (mayUnmap : Bool) (bufs : PadBuffers) (mem : Buffer)

/-- One request: the device after it, and the bytes that the caller finds in its vector. -/
def blockStep : BlockOp → Except BlockError (BlockState × List UInt8)
  | .read offset qiov bufs mem => do
      let mem ← bdrvCoDoPreadv cfg bs offset (iovSize qiov) qiov bufs mem
      return (bs, gather qiov mem)
  | .write offset qiov mayUnmap bufs mem => do
      let bs ← bdrvCoDoPwritev cfg bs offset (iovSize qiov) (some qiov) ⟨false, mayUnmap⟩ bufs mem
      return (bs, [])
  | .writeZeroes offset bytes mayUnmap bufs mem => do
      let bs ← bdrvCoDoPwritev cfg bs offset bytes none ⟨true, mayUnmap⟩ bufs mem
      return (bs, [])

/-- Requests one after the other: the device after them, and what each returned. -/
def blockRun : BlockState → List BlockOp → Except BlockError (BlockState × List (List UInt8))
  | bs, [] => .ok (bs, [])
  | bs, op :: ops => do
      let (bs, bytes) ← blockStep cfg bs op
      let (bs, rest) ← blockRun bs ops
      return (bs, bytes :: rest)

end QemuAndroid.Block
