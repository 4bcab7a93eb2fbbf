import QemuAndroid.Lib.Machine
import QemuAndroid.Lib.Intrusive

/-!
# The host side of the pipe device

The emulated pipe device of `hw/android/pipe.c`, function by function.  The
guest talks to it through memory-mapped registers (`pipeDevRead`,
`pipeDevWrite`); the services behind the pipes talk to it through
`qemuPipeWake` and `qemuPipeClose`.

Pipes are heap blocks on two intrusive lists: every open pipe is on `pipes`
(through `next`), and those with an event the guest has not been told about are
also on `signaledPipes` (through `nextWaked`).  A command returns `none` when
the C code would follow a pointer to a freed block or never leave a loop; that
this does not happen is proved in `QemuAndroid.GoldfishPipe.Lists`.

## What is a parameter

* The registered services (`Services`), with their callbacks as functions of
  the service's own state and of an input `ι` that stands for whatever the
  service finds outside the emulator (socket results, clocks).  A callback may
  call `qemu_pipe_wake` and `qemu_pipe_close` on the pipe it is called for: the
  calls it makes are part of its `Reply`.
* What a bus access finds in guest memory, and the block `g_malloc0` returns
  (`BusIn`).
-/

namespace QemuAndroid.GoldfishPipe

open Lib

/-! ## Registers, commands and flags -/

inductive Reg
  | command | status | channel | size | address | wakes | paramsAddrLow | paramsAddrHigh
  | accessParams | version | channelHigh | addressHigh
deriving DecidableEq, Repr

/-- The register at an offset of the device's page. -/
def Reg.ofOffset (offset : BitVec 64) : Option Reg :=
  match offset.toNat with
  | 0x00 => some .command
  | 0x04 => some .status
  | 0x08 => some .channel
  | 0x0c => some .size
  | 0x10 => some .address
  | 0x14 => some .wakes
  | 0x18 => some .paramsAddrLow
  | 0x1c => some .paramsAddrHigh
  | 0x20 => some .accessParams
  | 0x24 => some .version
  | 0x30 => some .channelHigh
  | 0x34 => some .addressHigh
  | _ => none

/-- The commands for the command register. -/
inductive Cmd
  | cmdOpen | cmdClose | cmdPoll | cmdWriteBuffer | cmdWakeOnWrite | cmdReadBuffer | cmdWakeOnRead
deriving DecidableEq, Repr

def Cmd.toBits : Cmd → BitVec 32
  | .cmdOpen => 1
  | .cmdClose => 2
  | .cmdPoll => 3
  | .cmdWriteBuffer => 4
  | .cmdWakeOnWrite => 5
  | .cmdReadBuffer => 6
  | .cmdWakeOnRead => 7

/-- The command a value of the command register asks for. -/
def Cmd.ofBits (v : BitVec 32) : Option Cmd :=
  match v.toNat with
  | 1 => some .cmdOpen
  | 2 => some .cmdClose
  | 3 => some .cmdPoll
  | 4 => some .cmdWriteBuffer
  | 5 => some .cmdWakeOnWrite
  | 6 => some .cmdReadBuffer
  | 7 => some .cmdWakeOnRead
  | _ => none

@[simp] theorem Cmd.ofBits_toBits (c : Cmd) : Cmd.ofBits c.toBits = some c := by
  cases c <;> rfl

def pipeErrorInval : BitVec 32 := -1
def pipeErrorAgain : BitVec 32 := -2
def pipeErrorNomem : BitVec 32 := -3
def pipeErrorIo : BitVec 32 := -4

def pipeWakeClosed : BitVec 8 := 1
def pipeWakeRead : BitVec 8 := 2
def pipeWakeWrite : BitVec 8 := 4

def pipePollOut : BitVec 32 := 2

/-- The block of a batched access: the fields of `struct access_params`, or of
`struct access_params_64` for a 64-bit guest, which has a wider channel and
address. -/
structure AccessParams where
  channel : BitVec 64
  size : BitVec 32
  address : BitVec 64
  cmd : BitVec 32
  result : BitVec 32
  flags : BitVec 32
deriving DecidableEq, Repr

/-! ## Services -/

/-- A call that a service makes on its own pipe. -/
inductive HostCall
  | wake (flags : BitVec 32)
  | close
deriving DecidableEq, Repr

/-- What a service callback hands back: its return value, its new state, and the
calls it made on its pipe while it ran. -/
structure Reply (σ : Type) where
  status : BitVec 32
  peer : σ
  calls : List HostCall

structure GoldfishPipeFuncs (σ ι : Type) where
  /-- Create a client connection; `none` for `NULL`. -/
  init : ι → Option (List UInt8) → Option σ × List HostCall
  sendBuffers : ι → σ → List (List UInt8) → Reply σ
  /-- Also returns the bytes stored in the buffers. -/
  recvBuffers : ι → σ → List Nat → Reply σ × List UInt8
  poll : ι → σ → Reply σ
  wakeOn : ι → σ → BitVec 8 → σ × List HostCall

/-- The registered services: their names in order of registration, and the
callbacks of each. -/
structure Services (σ ι : Type) where
  names : List (List UInt8)
  funcs : Nat → GoldfishPipeFuncs σ ι

def noServices : Services Unit Unit where
  names := []
  funcs _ :=
    { init := fun _ _ => (none, [])
      sendBuffers := fun _ p _ => ⟨0, p, []⟩
      recvBuffers := fun _ p _ => (⟨0, p, []⟩, [])
      poll := fun _ p => ⟨0, p, []⟩
      wakeOn := fun _ p _ => (p, []) }

/-- `qemu_pipe_find_type`: the first service registered under a name. -/
def qemuPipeFindType {σ ι : Type} (S : Services σ ι) (pipeName : List UInt8) : Option Nat :=
  S.names.findIdx? (· == pipeName)

/-! ## Pipes and the device -/

/-- `PipeConnector`: the part of `buffer[128]` filled so far (`buffpos` bytes).
The rest of the buffer is zero. -/
structure PipeConnector where
  buffer : List UInt8
deriving DecidableEq, Repr

/-- What `pipe->opaque` points to. -/
inductive OpaqueData (σ : Type)
  | connector (pcon : PipeConnector)
  | peer (p : σ)
deriving DecidableEq, Repr

/-- What `pipe->funcs` points to: the connector's own callbacks, or those of a
registered service. -/
inductive FuncsRef
  | connector
  | service (svc : Nat)
deriving DecidableEq, Repr

structure Pipe (σ : Type) where
  next : Ptr := none
  nextWaked : Ptr := none
  channel : BitVec 64
  opaqueData : OpaqueData σ
  funcs : FuncsRef
  service : Option Nat := none
  args : Option (List UInt8) := none
  wanted : BitVec 8 := 0
  closed : Bool := false
deriving DecidableEq

structure PipeDevice (σ : Type) where
  /-- The allocated pipes. -/
  heap : Heap (Pipe σ)
  /-- The level last driven by `qemu_set_irq`. -/
  irq : Bool
  pipes : Ptr
  signaledPipes : Ptr
  address : BitVec 64
  size : BitVec 32
  status : BitVec 32
  channel : BitVec 64
  wakes : BitVec 32
  paramsAddr : BitVec 64

def PipeDevice.reset {σ : Type} : PipeDevice σ where
  heap := ∅
  irq := false
  pipes := none
  signaledPipes := none
  address := 0
  size := 0
  status := 0
  channel := 0
  wakes := 0
  paramsAddr := 0

/-- What a bus access finds outside the device. -/
structure BusIn (ι : Type) where
  /-- The block at `params_addr` in guest memory. -/
  params : AccessParams
  /-- Guest memory at an address, for a number of bytes. -/
  ram : BitVec 64 → Nat → List UInt8
  /-- What the service finds outside the emulator. -/
  ext : ι
  /-- The block that `g_malloc0` returns. -/
  fresh : Addr

/-- What a bus access stores in guest memory. -/
inductive GuestWrite
  | bytes (address : BitVec 64) (data : List UInt8)
  | params (address : BitVec 64) (aps : AccessParams)
deriving DecidableEq, Repr

variable {σ ι : Type}

/-- The list of all pipes runs through `next`. -/
def nextLink : Link (Pipe σ) := ⟨Pipe.next, fun p n => { n with next := p }, fun _ _ => rfl⟩

/-- The list of signaled pipes runs through `next_waked`. -/
def nextWakedLink : Link (Pipe σ) :=
  ⟨Pipe.nextWaked, fun p n => { n with nextWaked := p }, fun _ _ => rfl⟩

/-! ## The lists -/

def pipeListFindpChannel (dev : PipeDevice σ) (channel : BitVec 64) : Option (Slot × Ptr) :=
  findp nextLink dev.heap (fun _ node => node.channel == channel) dev.heap.fuel .head dev.pipes

def pipeListFindpWaked (list : Ptr) (heap : Heap (Pipe σ)) (pipe : Addr) : Option (Slot × Ptr) :=
  findp nextWakedLink heap (fun a _ => a == pipe) heap.fuel .head list

def pipeListRemoveWaked (list : Ptr) (heap : Heap (Pipe σ)) (pipe : Addr) :
    Option (Ptr × Heap (Pipe σ)) :=
  (pipeListFindpWaked list heap pipe).bind fun
    | (_, none) => some (list, heap)
    | (lookup, some a) => (heap.lookup a).bind fun node =>
      (lookup.store nextWakedLink node.nextWaked list heap).bind fun (list', heap') =>
        (heap'.modify a fun n => { n with nextWaked := none }).map fun heap'' => (list', heap'')

/-- `pipe_new`: a fresh zeroed block, its connector attached. -/
def pipeNew (channel : BitVec 64) : Pipe σ where
  channel := channel
  opaqueData := .connector ⟨[]⟩
  funcs := .connector

/-! ## Calls from the services -/

def qemuPipeWake (pipe : Addr) (flags : BitVec 32) (dev : PipeDevice σ) : Option (PipeDevice σ) :=
  (pipeListFindpWaked dev.signaledPipes dev.heap pipe).bind fun (_, found) =>
    (dev.heap.lookup pipe).map fun node =>
      -- If not already there, add to the list of signaled pipes.
      if found = none then
        { dev with
          heap := dev.heap.insert pipe
            { node with nextWaked := dev.signaledPipes, wanted := node.wanted ||| flags.setWidth 8 }
          signaledPipes := some pipe
          irq := true }
      else
        { dev with
          heap := dev.heap.insert pipe { node with wanted := node.wanted ||| flags.setWidth 8 }
          irq := true }

def qemuPipeClose (pipe : Addr) (dev : PipeDevice σ) : Option (PipeDevice σ) :=
  (dev.heap.lookup pipe).bind fun node =>
    if node.closed then some dev
    else qemuPipeWake pipe (pipeWakeClosed.setWidth 32)
      { dev with heap := dev.heap.insert pipe { node with closed := true } }

def HostCall.apply (pipe : Addr) (dev : PipeDevice σ) : HostCall → Option (PipeDevice σ)
  | .wake flags => qemuPipeWake pipe flags dev
  | .close => qemuPipeClose pipe dev

/-- The calls that a callback made, in order. -/
def applyCalls (pipe : Addr) (calls : List HostCall) (dev : PipeDevice σ) : Option (PipeDevice σ) :=
  calls.foldlM (HostCall.apply pipe) dev

/-! ## The connector

A new pipe talks to the connector until the guest has written the name of a
service, as `pipe:<name>[:<args>]` and a zero byte. -/

/-- The copy loop of `pipeConnector_sendBuffers`: what fits in the 128 bytes. -/
def PipeConnector.fill (buffer : List UInt8) : List (List UInt8) → List UInt8
  | [] => buffer
  | b :: bs => PipeConnector.fill (buffer ++ b.take (128 - buffer.length)) bs

def pipeNamePrefix : List UInt8 := [0x70, 0x69, 0x70, 0x65, 0x3a]

def cString (buffer : List UInt8) : List UInt8 := buffer.takeWhile (· != 0)

/-- Split `<name>[:<args>]` at the first colon; empty arguments are none. -/
def splitPipeName (text : List UInt8) : List UInt8 × Option (List UInt8) :=
  let pipeName := text.takeWhile (· != 0x3a)
  match text.drop pipeName.length with
  | [] => (pipeName, none)
  | _ :: [] => (pipeName, none)
  | _ :: pipeArgs => (pipeName, some pipeArgs)

/-- `*pipeArgs++ = '\0'`: the first colon of the name is overwritten in place. -/
def zapColon (buffer : List UInt8) : List UInt8 :=
  let text := cString (buffer.drop 5)
  let pipeName := text.takeWhile (· != 0x3a)
  if pipeName.length < text.length then buffer.set (5 + pipeName.length) 0 else buffer

variable (S : Services σ ι)

def pipeConnectorSendBuffers (ext : ι) (pcon : PipeConnector) (pipe : Pipe σ)
    (buffers : List (List UInt8)) : Pipe σ × BitVec 32 × List HostCall :=
  let buffer := PipeConnector.fill pcon.buffer buffers
  let ret := BitVec.ofNat 32 (buffer.length - pcon.buffer.length)
  if (0 : UInt8) ∈ buffer then
    if buffer.take 5 = pipeNamePrefix then
      let (pipeName, pipeArgs) := splitPipeName (cString (buffer.drop 5))
      let failed := { pipe with opaqueData := .connector ⟨zapColon buffer⟩ }
      match qemuPipeFindType S pipeName with
      | none => (failed, pipeErrorInval, [])
      | some svc =>
        match (S.funcs svc).init ext pipeArgs with
        | (none, calls) => (failed, pipeErrorInval, calls)
        | (some peer, calls) =>
          ({ pipe with opaqueData := .peer peer, service := some svc, funcs := .service svc,
                       args := pipeArgs }, ret, calls)
    else ({ pipe with opaqueData := .connector ⟨buffer⟩ }, pipeErrorInval, [])
  else ({ pipe with opaqueData := .connector ⟨buffer⟩ }, ret, [])

/-! ## Dispatch through `pipe->funcs`

Each returns the pipe with its endpoint updated, the return value and the calls
that the callback made on the pipe; `none` when the endpoint is not one the
callbacks understand. -/

def Pipe.sendBuffers (ext : ι) (pipe : Pipe σ) (buffers : List (List UInt8)) :
    Option (Pipe σ × BitVec 32 × List HostCall) :=
  match pipe.funcs, pipe.opaqueData with
  | .connector, .connector pcon => some (pipeConnectorSendBuffers S ext pcon pipe buffers)
  | .service svc, .peer p =>
    let r := (S.funcs svc).sendBuffers ext p buffers
    some ({ pipe with opaqueData := .peer r.peer }, r.status, r.calls)
  | _, _ => none

def Pipe.recvBuffers (ext : ι) (pipe : Pipe σ) (sizes : List Nat) :
    Option (Pipe σ × BitVec 32 × List HostCall × List UInt8) :=
  match pipe.funcs, pipe.opaqueData with
  | .connector, .connector _ => some (pipe, pipeErrorIo, [], [])
  | .service svc, .peer p =>
    let r := (S.funcs svc).recvBuffers ext p sizes
    some ({ pipe with opaqueData := .peer r.1.peer }, r.1.status, r.1.calls, r.2)
  | _, _ => none

def Pipe.poll (ext : ι) (pipe : Pipe σ) : Option (Pipe σ × BitVec 32 × List HostCall) :=
  match pipe.funcs, pipe.opaqueData with
  | .connector, .connector _ => some (pipe, pipePollOut, [])
  | .service svc, .peer p =>
    let r := (S.funcs svc).poll ext p
    some ({ pipe with opaqueData := .peer r.peer }, r.status, r.calls)
  | _, _ => none

def Pipe.wakeOn (ext : ι) (pipe : Pipe σ) (flags : BitVec 8) : Option (Pipe σ × List HostCall) :=
  match pipe.funcs, pipe.opaqueData with
  | .connector, .connector _ => some (pipe, [])
  | .service svc, .peer p =>
    let r := (S.funcs svc).wakeOn ext p flags
    some ({ pipe with opaqueData := .peer r.1 }, r.2)
  | _, _ => none

/-! ## Commands -/

variable (b : BusIn ι)

/-- `PIPE_CMD_OPEN` on a channel that has no pipe. -/
def doOpen (dev : PipeDevice σ) : PipeDevice σ :=
  { dev with
    heap := dev.heap.insert b.fresh { (pipeNew dev.channel : Pipe σ) with next := dev.pipes }
    pipes := some b.fresh
    status := 0 }

def doClose (lookup : Slot) (a : Addr) (pipe : Pipe σ) (dev : PipeDevice σ) :
    Option (PipeDevice σ) :=
  (lookup.store nextLink pipe.next dev.pipes dev.heap).bind fun (pipes, heap₁) =>
    (heap₁.modify a fun n => { n with next := none }).bind fun heap₂ =>
      (pipeListRemoveWaked dev.signaledPipes heap₂ a).map fun (signaled, heap₃) =>
        { dev with heap := heap₃.erase a, pipes := pipes, signaledPipes := signaled }

/-- Store the endpoint that a callback left, then make its calls, then set the
status. -/
def finishCall (a : Addr) (pipe : Pipe σ) (calls : List HostCall) (status : BitVec 32)
    (dev : PipeDevice σ) : Option (PipeDevice σ) :=
  (applyCalls a calls { dev with heap := dev.heap.insert a pipe }).map fun dev' =>
    { dev' with status := status }

/-- `PIPE_CMD_WAKE_ON_READ` and `PIPE_CMD_WAKE_ON_WRITE`. -/
def doWakeOn (flag : BitVec 8) (a : Addr) (pipe : Pipe σ)
    (dev : PipeDevice σ) : Option (PipeDevice σ) :=
  if pipe.wanted &&& flag = 0 then
    let pipe' := { pipe with wanted := pipe.wanted ||| flag }
    (pipe'.wakeOn S b.ext pipe'.wanted).bind fun (pipe'', calls) =>
      finishCall a pipe'' calls 0 dev
  else some { dev with status := 0 }

/-- `pipeDevice_doCommand`, with what it stores in guest memory. -/
def pipeDeviceDoCommand (command : BitVec 32)
    (dev : PipeDevice σ) : Option (PipeDevice σ × List GuestWrite) :=
  (pipeListFindpChannel dev dev.channel).bind fun
    | (_, none) =>
      if Cmd.ofBits command = some .cmdOpen then some (doOpen b dev, [])
      else some ({ dev with status := pipeErrorInval }, [])
    | (lookup, some a) => (dev.heap.lookup a).bind fun pipe =>
      if pipe.closed ∧ Cmd.ofBits command ≠ some .cmdClose then
        some ({ dev with status := pipeErrorIo }, [])
      else match Cmd.ofBits command with
        | some .cmdOpen => some ({ dev with status := pipeErrorInval }, [])
        | some .cmdClose => (doClose lookup a pipe dev).map (·, [])
        | some .cmdPoll => (pipe.poll S b.ext).bind fun (pipe', status, calls) =>
          (finishCall a pipe' calls status dev).map (·, [])
        | some .cmdReadBuffer =>
          (pipe.recvBuffers S b.ext [dev.size.toNat]).bind fun (pipe', status, calls, data) =>
            (finishCall a pipe' calls status dev).map (·, [.bytes dev.address data])
        | some .cmdWriteBuffer =>
          (pipe.sendBuffers S b.ext [b.ram dev.address dev.size.toNat]).bind
            fun (pipe', status, calls) => (finishCall a pipe' calls status dev).map (·, [])
        | some .cmdWakeOnRead => (doWakeOn S b pipeWakeRead a pipe dev).map (·, [])
        | some .cmdWakeOnWrite => (doWakeOn S b pipeWakeWrite a pipe dev).map (·, [])
        | none => some (dev, [])

/-! ## Register accesses -/

def uint64SetLow (addr : BitVec 64) (value : BitVec 64) : BitVec 64 :=
  (addr &&& ~~~0xffffffff#64) ||| (value.setWidth 32).setWidth 64

def uint64SetHigh (addr : BitVec 64) (value : BitVec 64) : BitVec 64 :=
  (addr &&& 0xffffffff#64) ||| ((value.setWidth 32).setWidth 64 <<< 32)

/-- `pipe_dev_read`: the value read, and the device after the read. -/
def pipeDevRead (offset : BitVec 64) (dev : PipeDevice σ) : Option (BitVec 64 × PipeDevice σ) :=
  match Reg.ofOffset offset with
  | some .status => some (dev.status.setWidth 64, dev)
  | some .channel =>
    match dev.signaledPipes with
    | none => some (0, dev)
    | some a => (dev.heap.lookup a).map fun pipe =>
      (pipe.channel &&& 0xffffffff#64, { dev with
          wakes := pipe.wanted.setWidth 32
          heap := dev.heap.insert a { pipe with wanted := 0, nextWaked := none }
          signaledPipes := pipe.nextWaked
          irq := if pipe.nextWaked = none then false else dev.irq })
  | some .channelHigh =>
    match dev.signaledPipes with
    | none => some (0, dev)
    | some a => (dev.heap.lookup a).map fun pipe => (pipe.channel.ushiftRight 32, dev)
  | some .wakes => some (dev.wakes.setWidth 64, dev)
  | some .paramsAddrHigh => some (dev.paramsAddr >>> 32, dev)
  | some .paramsAddrLow => some (dev.paramsAddr &&& 0xffffffff#64, dev)
  | some .version => some (1, dev)
  | _ => some (0, dev)

/-- `PIPE_REG_ACCESS_PARAMS`: a command whose operands are in guest memory.  The
result is written back only when the command was carried out. -/
def accessParams (dev : PipeDevice σ) : Option (PipeDevice σ × List GuestWrite) :=
  if dev.paramsAddr = 0 then some (dev, [])
  else
    let aps := b.params
    let dev₁ := { dev with
      channel := aps.channel, size := aps.size, address := aps.address }
    if Cmd.ofBits aps.cmd ≠ some .cmdReadBuffer ∧ Cmd.ofBits aps.cmd ≠ some .cmdWriteBuffer then
      some (dev₁, [])
    else (pipeDeviceDoCommand S b aps.cmd dev₁).map fun (dev₂, ws) =>
      (dev₂, ws ++ [.params dev₂.paramsAddr { aps with result := dev₂.status }])

def pipeDevWrite (offset value : BitVec 64)
    (dev : PipeDevice σ) : Option (PipeDevice σ × List GuestWrite) :=
  match Reg.ofOffset offset with
  | some .command => pipeDeviceDoCommand S b (value.setWidth 32) dev
  | some .size => some ({ dev with size := value.setWidth 32 }, [])
  | some .address => some ({ dev with address := uint64SetLow dev.address value }, [])
  | some .addressHigh => some ({ dev with address := uint64SetHigh dev.address value }, [])
  | some .channel => some ({ dev with channel := uint64SetLow dev.channel value }, [])
  | some .channelHigh => some ({ dev with channel := uint64SetHigh dev.channel value }, [])
  | some .paramsAddrHigh =>
    some ({ dev with
      paramsAddr := (dev.paramsAddr &&& ~~~(0xffffffff#64 <<< 32)) ||| (value <<< 32) }, [])
  | some .paramsAddrLow =>
    some ({ dev with paramsAddr := (dev.paramsAddr &&& ~~~0xffffffff#64) ||| value }, [])
  | some .accessParams => accessParams S b dev
  | _ => some (dev, [])

/-! ## Runs of the device -/

inductive DevEvent (ι : Type)
  | read (offset : BitVec 64)
  | write (offset value : BitVec 64) (b : BusIn ι)
  /-- A service calls `qemu_pipe_wake` or `qemu_pipe_close` on an open pipe. -/
  | host (pipe : Addr) (call : HostCall)

/-- A register write of the guest.  `g_malloc0` never returns a block that is in
use. -/
def guestWrite (offset value : BitVec 64) (dev : PipeDevice σ) :
    Option (PipeDevice σ × List GuestWrite) :=
  if b.fresh ∈ dev.heap then none else pipeDevWrite S b offset value dev

def PipeDevice.step (dev : PipeDevice σ) : DevEvent ι → Option (PipeDevice σ)
  | .read offset => (pipeDevRead offset dev).map (·.2)
  | .write offset value b => (guestWrite S b offset value dev).map (·.1)
  | .host pipe call => call.apply pipe dev

def deviceMachine : Machine (PipeDevice σ) (DevEvent ι) where
  init dev := dev = PipeDevice.reset
  step := PipeDevice.step S

end QemuAndroid.GoldfishPipe
