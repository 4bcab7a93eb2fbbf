import QemuAndroid.GoldfishPipe.Command

/-!
# Network pipes

The service behind network pipes, `android/hw-pipe-net.c`, with the two pieces of
`android/` it runs on: the i/o objects of the main looper (`looper-qemu.c`) and
the asynchronous connector (`async-utils.c`).

A `NetPipe` is driven from two sides.  The guest's commands reach its callbacks
through the device, which refuses every command but `PIPE_CMD_CLOSE` once the
pipe has been closed from the host.  The looper calls `netPipe_io_func` from a
bottom half, with the events that the descriptor handlers have collected since
the last call.  What the socket answers is part of the event.

Every call of `qemu_pipe_wake` and `qemu_pipe_close` is logged with the pointer it
is made on, so that a call on a null `hwpipe` can be seen.
-/

namespace QemuAndroid.HwPipeNet

open Lib GoldfishPipe

/-! ## I/O objects of the looper -/

/-- A mask of `LOOP_IO_READ` and `LOOP_IO_WRITE`. -/
structure IoMask where
  read : Bool := false
  write : Bool := false
deriving DecidableEq, Repr

namespace IoMask

def IsZero (m : IoMask) : Prop := m.read = false ∧ m.write = false
deriving Decidable

def inter (m n : IoMask) : IoMask := ⟨m.read && n.read, m.write && n.write⟩

def union (m n : IoMask) : IoMask := ⟨m.read || n.read, m.write || n.write⟩

end IoMask

/-- `QLoopIo`: the events asked for, and those seen and not yet delivered.  The
object is on the looper's pending list while `ready` is not zero. -/
structure QLoopIo where
  wanted : IoMask := {}
  ready : IoMask := {}
deriving DecidableEq, Repr

def qloopioModify (io : QLoopIo) (wanted : IoMask) : QLoopIo :=
  if wanted = io.wanted then io
  -- pending, but the new mask does not care
  else if ¬ io.ready.IsZero ∧ (io.ready.inter wanted).IsZero then { wanted := wanted, ready := {} }
  else { io with wanted := wanted }

def QLoopIo.wantRead (io : QLoopIo) : QLoopIo := qloopioModify io { io.wanted with read := true }
def QLoopIo.wantWrite (io : QLoopIo) : QLoopIo := qloopioModify io { io.wanted with write := true }
def QLoopIo.dontWantRead (io : QLoopIo) : QLoopIo :=
  qloopioModify io { io.wanted with read := false }
def QLoopIo.dontWantWrite (io : QLoopIo) : QLoopIo :=
  qloopioModify io { io.wanted with write := false }

/-- `qloopio_setReady`, from a descriptor handler. -/
def QLoopIo.setReady (io : QLoopIo) (flag : IoMask) : QLoopIo :=
  { io with ready := io.ready.union flag }

@[simp] theorem qloopioModify_wanted (io : QLoopIo) (wanted : IoMask) :
    (qloopioModify io wanted).wanted = wanted := by
  unfold qloopioModify
  split
  · next h => exact h.symm
  · split <;> rfl

/-- Only a mask that covers none of the events drops them. -/
theorem qloopioModify_ready (io : QLoopIo) (wanted : IoMask) :
    (qloopioModify io wanted).ready = io.ready ∨
      (io.ready.inter wanted).IsZero ∧ (qloopioModify io wanted).ready = {} := by
  unfold qloopioModify
  split
  · exact .inl rfl
  · split
    · next h => exact .inr ⟨h.2, rfl⟩
    · exact .inl rfl

/-! ## The connector -/

inductive ConnectState
  | error | connecting | completed
deriving DecidableEq, Repr

inductive AsyncStatus
  | complete | error | needMore
deriving DecidableEq, Repr

inductive ConnectResult
  | connected | inProgress | failed
deriving DecidableEq, Repr

def asyncConnectorInit (connect : ConnectResult) (io : QLoopIo) :
    ConnectState × QLoopIo × AsyncStatus :=
  match connect with
  | .connected => (.completed, io, .complete)
  | .inProgress => (.connecting, io.wantWrite, .needMore)
  | .failed => (.error, io, .error)

/-- `asyncConnector_run`; `socketError` is what `socket_get_error` returns. -/
def asyncConnectorRun (socketError : Int) (state : ConnectState) (io : QLoopIo) :
    ConnectState × QLoopIo × AsyncStatus :=
  match state with
  | .error => (.error, io, .error)
  | .connecting =>
    if socketError = 0 then (.completed, io.dontWantWrite, .complete)
    else (.error, io.dontWantWrite, .error)
  | .completed => (.completed, io, .complete)

/-! ## The pipe -/

inductive State
  | init | connecting | connected | closingGuest | closingSocket
deriving DecidableEq, Repr

structure NetPipe where
  hwpipe : Ptr
  state : State
  wakeWanted : BitVec 8
  io : QLoopIo
  connector : ConnectState
deriving DecidableEq

/-- A call into the pipe device, with the pointer it is made on. -/
structure PipeCall where
  hwpipe : Ptr
  call : HostCall
deriving DecidableEq

def netPipeResetState (pipe : NetPipe) : NetPipe :=
  let io₁ := if Wants pipe.wakeWanted pipeWakeWrite then pipe.io.wantWrite
    else pipe.io.dontWantWrite
  let io₂ := if pipe.state = .connected ∧ Wants pipe.wakeWanted pipeWakeRead then io₁.wantRead
    else io₁.dontWantRead
  { pipe with io := io₂ }

/-- `netPipe_closeFromSocket`; the pipe is `none` once it has been freed. -/
def netPipeCloseFromSocket (pipe : NetPipe) : Option NetPipe × List PipeCall :=
  if pipe.state = .closingGuest then (none, [])
  else
    let calls := if pipe.hwpipe = none then [] else [⟨pipe.hwpipe, .close⟩]
    (some (netPipeResetState { pipe with hwpipe := none, state := .closingSocket }), calls)

/-- The flags that `netPipe_io_func` wakes the pipe with. -/
def wakeFlags (events : IoMask) (wakeWanted : BitVec 8) : BitVec 8 :=
  (if events.read ∧ Wants wakeWanted pipeWakeRead then pipeWakeRead else 0) |||
    (if events.write ∧ Wants wakeWanted pipeWakeWrite then pipeWakeWrite else 0)

def netPipeIoFunc (socketError : Int) (events : IoMask) (pipe : NetPipe) :
    Option NetPipe × List PipeCall :=
  if pipe.state = .connecting then
    let (connector, io, status) := asyncConnectorRun socketError pipe.connector pipe.io
    let pipe₁ := { pipe with connector := connector, io := io }
    match status with
    | .needMore => (some pipe₁, [])
    | .error => netPipeCloseFromSocket pipe₁
    | .complete => (some (netPipeResetState { pipe₁ with state := .connected }), [])
  else
    let flags := wakeFlags events pipe.wakeWanted
    if flags ≠ 0 then
      (some (netPipeResetState { pipe with wakeWanted := pipe.wakeWanted &&& ~~~flags }),
        [⟨pipe.hwpipe, .wake (flags.setWidth 32)⟩])
    else (some (netPipeResetState pipe), [])

/-- `netPipe_initFromAddress`, with an open socket. -/
def netPipeInitFromAddress (hwpipe : Ptr) (connect : ConnectResult) : Option NetPipe :=
  let (connector, io, status) := asyncConnectorInit connect {}
  let pipe : NetPipe :=
    { hwpipe := hwpipe, state := .connecting, wakeWanted := 0, io := io, connector := connector }
  match status with
  | .error => none
  | .complete => some (netPipeResetState { pipe with state := .connected })
  | .needMore => some pipe

def netPipeWakeOn (flags : BitVec 8) (pipe : NetPipe) : NetPipe :=
  netPipeResetState { pipe with wakeWanted := pipe.wakeWanted ||| flags }

/-! ## Transfers -/

/-- What `socket_send` or `socket_recv` answers. -/
inductive SockResult
  | moved (len : Nat)
  | closed
  | again
  | error
deriving DecidableEq, Repr

def netPipeReadySend (pipe : NetPipe) : BitVec 32 :=
  if pipe.state = .connected then 0
  else if pipe.state = .connecting then pipeErrorAgain
  else if pipe.hwpipe = none then pipeErrorInval
  else pipeErrorIo

/-- The loop of `netPipe_sendBuffers` and `netPipe_recvBuffers`: `count` bytes are
left and `ret` are moved.  `none` when the loop goes on after the answers given. -/
def transferLoop : List SockResult → Nat → Nat → Option (BitVec 32)
  | _, 0, ret => some (BitVec.ofNat 32 ret)
  | [], _ + 1, _ => none
  | .moved len :: rs, count + 1, ret => transferLoop rs (count + 1 - len) (ret + len)
  | .closed :: _, _ + 1, ret => some (if ret = 0 then pipeErrorIo else BitVec.ofNat 32 ret)
  | .again :: _, _ + 1, ret => some (if 0 < ret then BitVec.ofNat 32 ret else pipeErrorAgain)
  | .error :: _, _ + 1, ret => some (if 0 < ret then BitVec.ofNat 32 ret else pipeErrorIo)

/-- `netPipe_sendBuffers` on buffers of the given sizes. -/
def netPipeSendBuffers (pipe : NetPipe) (sizes : List Nat) (results : List SockResult) :
    Option (BitVec 32) :=
  if netPipeReadySend pipe ≠ 0 then some (netPipeReadySend pipe)
  else transferLoop results sizes.sum 0

def netPipeRecvBuffers (sizes : List Nat) (results : List SockResult) : Option (BitVec 32) :=
  transferLoop results sizes.sum 0

def netPipePoll (pipe : NetPipe) : BitVec 32 :=
  (if pipe.io.ready.read then 1 else 0) ||| (if pipe.io.ready.write then pipePollOut else 0)

/-! ## The machine -/

/-- A network pipe and its pipe of the device. -/
structure Net where
  /-- `none` once it has been freed. -/
  pipe : Option NetPipe
  /-- The status register after the last command. -/
  status : BitVec 32
  /-- `pipe->closed` in the device. -/
  closed : Bool
  /-- The calls into the device, the last first. -/
  log : List PipeCall

inductive NetEvent
  /-- The descriptor handlers, run by the main loop. -/
  | fdRead | fdWrite
  /-- The bottom half of the looper. -/
  | ioBh (socketError : Int)
  /-- `PIPE_CMD_WAKE_ON_x`. -/
  | wakeOn (flags : BitVec 8)
  | send (sizes : List Nat) (results : List SockResult)
  | recv (sizes : List Nat) (results : List SockResult)
  | poll
  | guestClose

/-- The device records the calls, and that the pipe is closed. -/
def Net.after (s : Net) (r : Option NetPipe × List PipeCall) : Net :=
  { s with
    pipe := r.1
    closed := s.closed || r.2.any fun c => c.hwpipe.isSome && c.call == .close
    log := r.2.reverse ++ s.log }

/-- A command of the guest: the device refuses it once the pipe is closed. -/
def Net.command (s : Net) (f : NetPipe → Option (NetPipe × BitVec 32)) : Option Net :=
  if s.closed then some { s with status := pipeErrorIo }
  else s.pipe.bind fun pipe => (f pipe).map fun (pipe', status) =>
    { s with pipe := some pipe', status := status }

def Net.step (s : Net) : NetEvent → Option Net
  | .fdRead => s.pipe.bind fun pipe =>
    if pipe.io.wanted.read then
      some { s with pipe := some { pipe with io := pipe.io.setReady { read := true } } }
    else none
  | .fdWrite => s.pipe.bind fun pipe =>
    if pipe.io.wanted.write then
      some { s with pipe := some { pipe with io := pipe.io.setReady { write := true } } }
    else none
  | .ioBh socketError => s.pipe.bind fun pipe =>
    if pipe.io.ready.IsZero then none
    else some (s.after (netPipeIoFunc socketError pipe.io.ready
      { pipe with io := { pipe.io with ready := {} } }))
  | .wakeOn flags => s.command fun pipe => some (netPipeWakeOn flags pipe, 0)
  | .send sizes results =>
    s.command fun pipe => (netPipeSendBuffers pipe sizes results).map fun r => (pipe, r)
  | .recv sizes results =>
    s.command fun pipe => (netPipeRecvBuffers sizes results).map fun r => (pipe, r)
  | .poll => s.command fun pipe => some (pipe, netPipePoll pipe)
  | .guestClose => s.pipe.map fun _ => { s with pipe := none }

/-- A network pipe from its creation on. -/
def netMachine : Machine Net NetEvent where
  init s := ∃ hwpipe connect pipe, netPipeInitFromAddress (some hwpipe) connect = some pipe ∧
    s = { pipe := some pipe, status := 0, closed := false, log := [] }
  step := Net.step

end QemuAndroid.HwPipeNet
