import QemuAndroid.Lib.Prog

/-!
# The command stream of a render thread

`RenderThread::Main` reads a stream of packets into a `ReadBuffer` and lets the decoders of GLESv1,
GLESv2 and renderControl take turns on it.  A decoder goes on until it finds a packet that is
incomplete or has an opcode that it does not know.

All three decoders have the same loop; they differ in the opcodes that they know, and in the calls
that these stand for.  What a decoder does with a packet is recorded as the packet, with the
decoder.
-/

namespace QemuAndroid.Render

open Lib

abbrev Byte := BitVec 8

/-- The decoders, in the order of their turns. -/
inductive Decoder
  | gl
  | gl2
  | rc
deriving DecidableEq

abbrev Dispatch := Decoder × List Byte

structure RenderEnv where
  /-- the opcodes that have a case in a decoder -/
  known : Decoder → BitVec 32 → Bool
  /-- the sizes for which `realloc` succeeds -/
  canAlloc : Nat → Bool

/-! ## ReadBuffer -/

/-- A `ReadBuffer`; its pointers are offsets from `m_buf`. -/
structure ReadBuffer where
  buf : Nat → Byte
  size : Nat
  readPtr : Nat
  validData : Nat

namespace ReadBuffer

/-- The four bytes from an offset on, as a number. -/
def word (buf : Nat → Byte) (i : Nat) : BitVec 32 :=
  buf (i + 3) ++ buf (i + 2) ++ buf (i + 1) ++ buf i

/-- `*(int *)ptr`. -/
def readInt (rb : ReadBuffer) (ptr : Int) : Except Halt (BitVec 32) :=
  if 0 ≤ ptr ∧ ptr + 4 ≤ rb.size then .ok (word rb.buf ptr.toNat) else .error .undefined

def readBytes (rb : ReadBuffer) (ptr : Int) (n : Nat) : Except Halt (List Byte) :=
  if 0 ≤ ptr ∧ ptr + n ≤ rb.size then .ok ((List.range n).map fun i => rb.buf (ptr.toNat + i))
  else .error .undefined

/-- `memmove(m_buf, m_readPtr, m_validData)`, where there is something to move. -/
def compact (rb : ReadBuffer) : ReadBuffer :=
  if 0 < rb.validData ∧ 0 < rb.readPtr then
    { rb with buf := fun i => if i < rb.validData then rb.buf (rb.readPtr + i) else rb.buf i }
  else rb

def newSize (rb : ReadBuffer) : Nat :=
  let newSize := rb.size * 2 % 2 ^ 64
  -- `INT_MAX` if the size overflows
  if newSize < rb.size then 2 ^ 31 - 1 else newSize

/-- `m_stream->read` and what follows it: `recv` returns as many bytes as there are, at most `want`
and at most what the buffer has room for. -/
def fill (rb : ReadBuffer) (want : Nat) (input : List Byte) : Int × ReadBuffer × List Byte :=
  let len := (2 ^ 64 + rb.size - rb.validData) % 2 ^ 64
  let chunk := input.take (min want len)
  let rb :=
    { rb with
      readPtr := 0
      buf := fun i =>
        if rb.validData ≤ i then chunk.getD (i - rb.validData) (rb.buf i) else rb.buf i }
  -- `SocketStream::recv` returns an `int`
  let n := (BitVec.ofNat 32 chunk.length).toInt
  if 0 < n then
    (n, { rb with validData := rb.validData + n.toNat }, input.drop (min want len))
  else (-1, rb, input.drop (min want len))

def getData (env : RenderEnv) (rb : ReadBuffer) (want : Nat) (input : List Byte) :
    Int × ReadBuffer × List Byte :=
  let rb := rb.compact
  if rb.size - rb.validData = 0 then
    if env.canAlloc rb.newSize then { rb with size := rb.newSize }.fill want input
    else (-1, rb, input)
  else rb.fill want input

def consume (rb : ReadBuffer) (amount : Nat) : Except Halt ReadBuffer :=
  if amount ≤ rb.validData then
    .ok { rb with validData := rb.validData - amount, readPtr := rb.readPtr + amount }
  else .error .assertion

end ReadBuffer

/-! ## Decoders -/

/-- The loop of a decoder, with the packets that it carries out.  A packet is complete if its
length, as an `unsigned int`, is available; the decoder then moves on by its length as an `int`. -/
def decodeLoop (known : BitVec 32 → Bool) (d : Decoder) (rb : ReadBuffer) (len : BitVec 64) :
    Nat → BitVec 64 → Int → Except Halt (BitVec 64 × List Dispatch)
  | 0, _, _ => .error .fuel
  | fuel + 1, pos, ptr =>
    if (len - pos).toNat < 8 then .ok (pos, [])
    else do
      let opcode ← rb.readInt ptr
      let packetLen ← rb.readInt (ptr + 4)
      if (len - pos).toNat < packetLen.toNat then .ok (pos, [])
      else if known opcode then do
        let packet ← rb.readBytes ptr packetLen.toNat
        let (last, packets) ← decodeLoop known d rb len fuel (pos + packetLen.signExtend 64)
          (ptr + packetLen.toInt)
        .ok (last, (d, packet) :: packets)
      -- `unknownOpcode = true`
      else .ok (pos, [])

/-- `GLDecoder::decode`, `GL2Decoder::decode`, `renderControl_decoder_context_t::decode`. -/
def decode (env : RenderEnv) (fuel : Nat) (d : Decoder) (rb : ReadBuffer) :
    Except Halt (BitVec 64 × List Dispatch) :=
  if rb.validData < 8 then .ok (0#64, [])
  else decodeLoop (env.known d) d rb (BitVec.ofNat 64 rb.validData) fuel 0#64 rb.readPtr

/-! ## RenderThread::Main -/

/-- One turn of a decoder: whether there was progress, and what was carried out. -/
def turn (env : RenderEnv) (fuel : Nat) (d : Decoder) (rb : ReadBuffer) :
    Except Halt (Bool × ReadBuffer × List Dispatch) := do
  let (last, packets) ← decode env fuel d rb
  if 0 < last.toNat then do
    let rb ← rb.consume last.toNat
    .ok (true, rb, packets)
  else .ok (false, rb, packets)

/-- `do { … } while (progress)`. -/
def turns (env : RenderEnv) (fuel : Nat) :
    Nat → ReadBuffer → Except Halt (ReadBuffer × List Dispatch)
  | 0, _ => .error .fuel
  | n + 1, rb => do
      let (progress₁, rb, packets₁) ← turn env fuel .gl rb
      let (progress₂, rb, packets₂) ← turn env fuel .gl2 rb
      let (progress₃, rb, packets₃) ← turn env fuel .rc rb
      if progress₁ || progress₂ || progress₃ then do
        let (rb, packets) ← turns env fuel n rb
        .ok (rb, packets₁ ++ packets₂ ++ packets₃ ++ packets)
      else .ok (rb, packets₁ ++ packets₂ ++ packets₃)

/-- A render thread: its buffer, what is still to come from the socket, what it has carried out, and
whether it has left the loop of `RenderThread::Main`. -/
structure RenderState where
  rb : ReadBuffer
  input : List Byte
  out : List Dispatch
  ended : Bool

/-- One round of the loop, with a read of at most `want` bytes. -/
def mainStep (env : RenderEnv) (fuel : Nat) (s : RenderState) (want : Nat) :
    Except Halt RenderState :=
  if s.ended then .ok s
  else
    let (stat, rb, input) := s.rb.getData env want s.input
    if stat ≤ 0 then .ok { s with rb := rb, input := input, ended := true }
    else do
      let (rb, packets) ← turns env fuel fuel rb
      .ok { s with rb := rb, input := input, out := s.out ++ packets }

/-- `RenderThread::Main`, for a number of reads. -/
def mainLoop (env : RenderEnv) (fuel : Nat) (s : RenderState) (reads : List Nat) :
    Except Halt RenderState :=
  reads.foldlM (mainStep env fuel) s

def streamBufferSize : Nat := 2 * 1024 * 1024

/-- A new thread, for a stream; the memory of its buffer is not initialised. -/
def RenderState.start (buf : Nat → Byte) (input : List Byte) : RenderState where
  rb := { buf := buf, size := streamBufferSize, readPtr := 0, validData := 0 }
  input := input
  out := []
  ended := false

end QemuAndroid.Render
