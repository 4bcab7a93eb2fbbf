import QemuAndroid.GoldfishPipe.Lists

/-!
# The guest driver on top of the pipe device

The kernel driver `qemu_pipe.c`, composed with the device model: any number of
tasks inside `qemu_pipe_read_write` and `qemu_pipe_poll`, the interrupt handler,
opens and releases, and the services behind the pipes, in any interleaving.

A task is a program counter (`Pc`) with the locals of the call.  Each section
under `dev->lock` is one step; `set_bit(wakeBit)`, the `CMD_WAKE_ON_x` section,
`mutex_unlock` and the tests of the wait loop are steps of their own, since other
tasks and the interrupt handler can run between them.

The guest is a 32-bit one, as the driver is written for: the channel of a pipe is
the address of its `struct qemu_pipe`, and the radix tree maps it to itself.
What the kernel around the driver decides (allocation results, pinned pages,
signals, `access_ok`) is the `Env` of a step.
-/

namespace QemuAndroid.GoldfishPipe

open Lib Function

variable {σ ι : Type}

/-! ## Driver data -/

def errEio : BitVec 32 := -5
def errEagain : BitVec 32 := -11
def errEnomem : BitVec 32 := -12
def errEfault : BitVec 32 := -14
def errEinval : BitVec 32 := -22
def errErestartsys : BitVec 32 := -512

/-- `struct qemu_pipe`: the holder of the mutex and the bits of `flags`. -/
structure QemuPipe where
  owner : Option Nat := none
  closedOnHost : Bool := false
  wakeOnWrite : Bool := false
  wakeOnRead : Bool := false
deriving DecidableEq, Repr

/-- `test_bit(wakeBit, &pipe->flags)`. -/
def QemuPipe.testWake (g : QemuPipe) (isWrite : Bool) : Bool :=
  if isWrite then g.wakeOnWrite else g.wakeOnRead

/-- `set_bit(wakeBit, &pipe->flags)`. -/
def QemuPipe.setWake (g : QemuPipe) (isWrite : Bool) : QemuPipe :=
  if isWrite then { g with wakeOnWrite := true } else { g with wakeOnRead := true }

inductive Pc
  /-- `qemu_pipe_read_write`: the checks before the lock. -/
  | start
  | lock
  /-- The loop test and the pinning of the page. -/
  | loop
  /-- The transfer of one page, under `dev->lock`. -/
  | transfer (xaddr avail : BitVec 32)
  | setBit
  /-- `CMD_WAKE_ON_x`, under `dev->lock`. -/
  | wakeOn
  /-- `mutex_unlock` before the wait. -/
  | unlockWait
  /-- `while (test_bit(wakeBit))`. -/
  | waitTest
  | waitEvent
  /-- The test of `BIT_CLOSED_ON_HOST` in the wait loop. -/
  | checkClosed
  /-- `mutex_lock_interruptible` after the wait. -/
  | relock
  | unlock
  /-- `qemu_pipe_poll`: `mutex_lock`. -/
  | pollLock
  /-- `CMD_POLL`, under `dev->lock`. -/
  | pollCmd
  /-- `mutex_unlock` and the return of `qemu_pipe_poll`. -/
  | pollUnlock (status : BitVec 32)
  | returned (value : BitVec 32)
deriving DecidableEq, Repr

/-- A call of a task, with its locals. -/
structure Task where
  pipe : BitVec 32
  isWrite : Bool := false
  nonblock : Bool := false
  buffer : BitVec 32 := 0
  bufflen : BitVec 32 := 0
  address : BitVec 32 := 0
  addressEnd : BitVec 32 := 0
  count : BitVec 32 := 0
  ret : BitVec 32 := errEinval
  pc : Pc
deriving DecidableEq, Repr

def Task.Active (task : Task) : Prop := ∀ value, task.pc ≠ .returned value

instance (task : Task) : Decidable task.Active :=
  match h : task.pc with
  | .returned value => isFalse fun ha => ha value h
  | .start | .lock | .loop | .transfer _ _ | .setBit | .wakeOn | .unlockWait | .waitTest
  | .waitEvent | .checkClosed | .relock | .unlock | .pollLock | .pollCmd | .pollUnlock _ =>
    isTrue fun _ e => by rw [h] at e; cases e

structure Driver (σ : Type) where
  dev : PipeDevice σ
  /-- `dev->aps != NULL`. -/
  aps : Bool
  version : BitVec 32
  /-- The keys of the radix tree. -/
  radix : BitVec 32 → Bool
  /-- The allocated `struct qemu_pipe`s. -/
  objs : BitVec 32 → Option QemuPipe
  tasks : AList fun _ : Nat => Task

/-- What the kernel and the services decide in a step. -/
structure Env (ι : Type) where
  signal : Bool
  accessOk : Bool
  /-- The page that `get_user_pages` pins, or its error. -/
  page : Except (BitVec 32) (BitVec 32)
  bus : BusIn ι

/-! ## Device accesses -/

def impossibleBatchResult : BitVec 32 := 0xdeadbeaf

variable (S : Services σ ι) (b : BusIn ι)

/-- Select a channel and issue a command. -/
def command (pipe : BitVec 32) (cmd : Cmd) (dev : PipeDevice σ) : Option (PipeDevice σ) :=
  (guestWrite S b 0x08 (pipe.setWidth 64) dev).bind fun (dev₁, _) =>
    (guestWrite S b 0x00 (cmd.toBits.setWidth 64) dev₁).map (·.1)

/-- `readl(dev->base + PIPE_REG_STATUS)`. -/
def readStatus (dev : PipeDevice σ) : Option (PipeDevice σ × BitVec 32) :=
  (pipeDevRead 0x04 dev).map fun (value, dev') => (dev', value.setWidth 32)

def registerTransfer (pipe : BitVec 32) (cmd : Cmd) (xaddr avail : BitVec 32) (dev : PipeDevice σ) :
    Option (PipeDevice σ × BitVec 32) :=
  (guestWrite S b 0x08 (pipe.setWidth 64) dev).bind fun (dev₁, _) =>
    (guestWrite S b 0x0c (avail.setWidth 64) dev₁).bind fun (dev₂, _) =>
      (guestWrite S b 0x10 (xaddr.setWidth 64) dev₂).bind fun (dev₃, _) =>
        (guestWrite S b 0x00 (cmd.toBits.setWidth 64) dev₃).bind fun (dev₄, _) => readStatus dev₄

/-- The `result` field of the parameter block after a batched access. -/
def batchResult : List GuestWrite → BitVec 32
  | [] => impossibleBatchResult
  | .params _ aps :: _ => aps.result
  | .bytes _ _ :: ws => batchResult ws

/-- `access_with_param`: `none` for the status when the batch was not executed. -/
def accessWithParam (pipe : BitVec 32) (cmd : Cmd) (xaddr avail : BitVec 32) (dev : PipeDevice σ) :
    Option (PipeDevice σ × Option (BitVec 32)) :=
  let block : AccessParams :=
    { channel := pipe.setWidth 64, size := avail, address := xaddr.setWidth 64, cmd := cmd.toBits,
      result := impossibleBatchResult, flags := 0 }
  (guestWrite S { b with params := block } 0x20 (cmd.toBits.setWidth 64) dev).map fun (dev', ws) =>
    (dev', if batchResult ws = impossibleBatchResult then none else some (batchResult ws))

/-- The transfer of one page in `qemu_pipe_read_write`. -/
def transferPage (aps : Bool) (pipe : BitVec 32) (cmd : Cmd) (xaddr avail : BitVec 32)
    (dev : PipeDevice σ) : Option (PipeDevice σ × BitVec 32) :=
  if aps then
    (accessWithParam S b pipe cmd xaddr avail dev).bind fun
      | (dev', some status) => some (dev', status)
      | (dev', none) => registerTransfer S b pipe cmd xaddr avail dev'
  else registerTransfer S b pipe cmd xaddr avail dev

/-! ## Calls -/

def qemuPipeErrorConvert (status : BitVec 32) : BitVec 32 :=
  if status = pipeErrorAgain then errEagain
  else if status = pipeErrorNomem then errEnomem
  else if status = pipeErrorIo then errEio
  else errEinval

/-- The bytes from `address` to the end of its page or of the buffer. -/
def availInPage (address addressEnd : BitVec 32) : BitVec 32 :=
  let pageEnd := (address &&& ~~~0xfff#32) + 0x1000#32
  (if pageEnd < addressEnd then pageEnd else addressEnd) - address

/-- Return from `qemu_pipe_read_write` at the label `out`. -/
def Task.out (task : Task) : Task :=
  { task with pc := .returned (if task.ret.toInt < 0 then task.ret else task.count) }

def bufferCmd (isWrite : Bool) : Cmd := if isWrite then .cmdWriteBuffer else .cmdReadBuffer

def wakeOnCmd (isWrite : Bool) : Cmd := if isWrite then .cmdWakeOnWrite else .cmdWakeOnRead

/-- What `qemu_pipe_read_write` does with the status of a transfer. -/
def Task.afterTransfer (task : Task) (status : BitVec 32) : Task :=
  if 0 < status.toInt then
    { task with count := task.count + status, address := task.address + status, pc := .loop }
  else if status = 0 then { task with ret := 0, pc := .unlock }
  else if 0 < task.count.toInt then { task with ret := 0, pc := .unlock }
  else if status ≠ pipeErrorAgain ∨ task.nonblock then
    { task with ret := qemuPipeErrorConvert status, pc := .unlock }
  else { task with pc := .setBit }

def pollMask (status : BitVec 32) (g : QemuPipe) : BitVec 32 :=
  (if status &&& 1 ≠ 0 then 0x41 else 0) ||| (if status &&& 2 ≠ 0 then 0x104 else 0) |||
    (if status &&& 4 ≠ 0 then 0x10 else 0) ||| (if g.closedOnHost then 0x8 else 0)

/-- One step of a call of the task `t` on the pipe `g`; `none` while it blocks. -/
def Task.step (env : Env ι) (t : Nat) (aps : Bool) (version : BitVec 32) (task : Task)
    (g : QemuPipe) (dev : PipeDevice σ) : Option (Task × QemuPipe × PipeDevice σ) :=
  match task.pc with
  | .start =>
    if g.closedOnHost then some (({ task with ret := errEio } : Task).out, g, dev)
    else if task.bufflen = 0 then some (task.out, g, dev)
    else if ¬ env.accessOk then some (({ task with ret := errEfault } : Task).out, g, dev)
    else some ({ task with pc := .lock }, g, dev)
  | .lock =>
    if env.signal then some ({ task with pc := .returned errErestartsys }, g, dev)
    else if g.owner = none then
      some ({ task with address := task.buffer, addressEnd := task.buffer + task.bufflen,
                        pc := .loop }, { g with owner := some t }, dev)
    else none
  | .loop =>
    if task.address < task.addressEnd then
      match env.page with
      -- the page cannot be pinned: return as it is, with the mutex held
      | .error e => some ({ task with pc := .returned e }, g, dev)
      | .ok page =>
        let xaddr := if version ≠ 0 then page ||| (task.address &&& 0xfff) else task.address
        some ({ task with ret := 1,
                          pc := .transfer xaddr (availInPage task.address task.addressEnd) },
          g, dev)
    else some ({ task with pc := .unlock }, g, dev)
  | .transfer xaddr avail =>
    (transferPage S env.bus aps task.pipe (bufferCmd task.isWrite) xaddr avail dev).map
      fun (dev', status) => (task.afterTransfer status, g, dev')
  | .setBit => some ({ task with pc := .wakeOn }, g.setWake task.isWrite, dev)
  | .wakeOn =>
    (command S env.bus task.pipe (wakeOnCmd task.isWrite) dev).map fun dev' =>
      ({ task with pc := .unlockWait }, g, dev')
  | .unlockWait => some ({ task with pc := .waitTest }, { g with owner := none }, dev)
  | .waitTest =>
    if g.testWake task.isWrite then some ({ task with pc := .waitEvent }, g, dev)
    else some ({ task with pc := .relock }, g, dev)
  | .waitEvent =>
    if ¬ g.testWake task.isWrite then some ({ task with pc := .checkClosed }, g, dev)
    else if env.signal then some (({ task with ret := errErestartsys } : Task).out, g, dev)
    else none
  | .checkClosed =>
    if g.closedOnHost then some (({ task with ret := errEio } : Task).out, g, dev)
    else some ({ task with pc := .waitTest }, g, dev)
  | .relock =>
    -- an interrupted lock leaves the loop and still ends in `mutex_unlock`
    if env.signal then some ({ task with ret := errErestartsys, pc := .unlock }, g, dev)
    else if g.owner = none then some ({ task with pc := .loop }, { g with owner := some t }, dev)
    else none
  | .unlock => some (task.out, { g with owner := none }, dev)
  | .pollLock =>
    if g.owner = none then some ({ task with pc := .pollCmd }, { g with owner := some t }, dev)
    else none
  | .pollCmd =>
    (command S env.bus task.pipe .cmdPoll dev).bind fun dev₁ =>
      (readStatus dev₁).map fun (dev₂, status) => ({ task with pc := .pollUnlock status }, g, dev₂)
  | .pollUnlock status =>
    some ({ task with pc := .returned (pollMask status g) }, { g with owner := none }, dev)
  | .returned _ => none

/-! ## The interrupt handler -/

/-- What the handler does to a pipe for the flags it read. -/
def QemuPipe.wakeUp (g : QemuPipe) (wakes : BitVec 8) : QemuPipe :=
  if Wants wakes pipeWakeClosed then
    -- `wakes |= PIPE_WAKE_READ | PIPE_WAKE_WRITE`
    { g with closedOnHost := true, wakeOnRead := false, wakeOnWrite := false }
  else
    { g with
      wakeOnRead := g.wakeOnRead && !decide (Wants wakes pipeWakeRead)
      wakeOnWrite := g.wakeOnWrite && !decide (Wants wakes pipeWakeWrite) }

/-- `qemu_pipe_interrupt`, with a bound on the turns of its loop. -/
def qemuPipeInterrupt : Nat → Driver σ → Option (Driver σ)
  | 0, _ => none
  | f + 1, s => (pipeDevRead 0x08 s.dev).bind fun (channel, dev₁) =>
    if channel.setWidth 32 = 0#32 then some { s with dev := dev₁ }
    else (pipeDevRead 0x14 dev₁).bind fun (wakes, dev₂) =>
      let pipe : BitVec 32 := channel.setWidth 32
      if s.radix pipe then
        (s.objs pipe).bind fun g =>
          qemuPipeInterrupt f { s with
            dev := dev₂
            objs := update s.objs pipe (some (g.wakeUp (wakes.setWidth 8))) }
      else some { s with dev := dev₂ }

/-! ## Opening and closing -/

/-- `qemu_pipe_open`, when `kzalloc` returned `pipe`. -/
def qemuPipeOpen (pipe : BitVec 32) (s : Driver σ) : Option (Driver σ) :=
  if s.radix pipe then some s
  else
    (command S b pipe .cmdOpen s.dev).bind fun dev₁ => (readStatus dev₁).map fun (dev₂, status) =>
      let s' := { s with dev := dev₂, radix := update s.radix pipe true }
      -- on failure the object is freed, its key stays in the tree
      if status.toInt < 0 then s'
      else { s' with objs := update s.objs pipe (some {}) }

def qemuPipeRelease (pipe : BitVec 32) (s : Driver σ) : Option (Driver σ) :=
  (command S b pipe .cmdClose s.dev).map fun dev' =>
    { s with
      dev := dev'
      radix := update s.radix pipe false
      objs := update s.objs pipe none }

/-! ## The machine -/

inductive DriverEvent (ι : Type)
  /-- `open` on the device file; `kzalloc` returns `pipe`. -/
  | openFile (pipe : BitVec 32) (b : BusIn ι)
  /-- `close` on a file that no call is using. -/
  | release (pipe : BitVec 32) (b : BusIn ι)
  | readWrite (t : Nat) (pipe : BitVec 32) (isWrite nonblock : Bool) (buffer bufflen : BitVec 32)
  | poll (t : Nat) (pipe : BitVec 32)
  | run (t : Nat) (env : Env ι)
  | interrupt
  /-- A service calls `qemu_pipe_wake` or `qemu_pipe_close` on an open pipe. -/
  | host (pipe : Addr) (call : HostCall)

def Driver.Unused (s : Driver σ) (pipe : BitVec 32) : Prop :=
  ∀ t ∈ s.tasks.keys, ∀ task ∈ s.tasks.lookup t, task.pipe = pipe → ¬ task.Active
deriving Decidable

def Driver.Idle (s : Driver σ) (t : Nat) : Prop := ∀ task ∈ s.tasks.lookup t, ¬ task.Active
deriving Decidable

/-- A task enters a call on an open file. -/
def Driver.enter (s : Driver σ) (t : Nat) (task : Task) : Option (Driver σ) :=
  if s.Idle t ∧ (s.objs task.pipe).isSome then some { s with tasks := s.tasks.insert t task }
  else none

def Driver.step (s : Driver σ) : DriverEvent ι → Option (Driver σ)
  | .openFile pipe b =>
    -- the allocator returns a block that is neither null nor in use
    if pipe = 0 ∨ (s.objs pipe).isSome then none else qemuPipeOpen S b pipe s
  | .release pipe b =>
    if (s.objs pipe).isSome ∧ s.Unused pipe then qemuPipeRelease S b pipe s else none
  | .readWrite t pipe isWrite nonblock buffer bufflen =>
    s.enter t { pipe := pipe, isWrite := isWrite, nonblock := nonblock, buffer := buffer,
                bufflen := bufflen, pc := .start }
  | .poll t pipe => s.enter t { pipe := pipe, pc := .pollLock }
  | .run t env =>
    (s.tasks.lookup t).bind fun task => (s.objs task.pipe).bind fun g =>
      (task.step S env t s.aps s.version g s.dev).map fun (task', g', dev') =>
        { s with
          dev := dev'
          objs := update s.objs task.pipe (some g')
          tasks := s.tasks.insert t task' }
  | .interrupt => qemuPipeInterrupt s.dev.heap.fuel s
  | .host pipe call => (call.apply pipe s.dev).map fun dev' => { s with dev := dev' }

/-- The driver once the parameter block is dealt with: the version is read. -/
def Driver.probed (dev : PipeDevice σ) (aps : Bool) : Option (Driver σ) :=
  (pipeDevRead 0x24 dev).map fun (version, dev') =>
    { dev := dev', aps := aps, version := version.setWidth 32, radix := fun _ => false,
      objs := fun _ => none, tasks := ∅ }

/-- `qemu_pipe_probe`: the parameter block, if there is memory for one at `aps`,
is announced to the device and read back. -/
def qemuPipeProbe : Option (BitVec 64) → Option (Driver σ)
  | none => Driver.probed .reset false
  | some paddr =>
    (guestWrite S b 0x1c (paddr >>> 32) .reset).bind fun (dev₁, _) =>
      (guestWrite S b 0x18 ((paddr.setWidth 32).setWidth 64) dev₁).bind fun (dev₂, _) =>
        (pipeDevRead 0x1c dev₂).bind fun (aph, dev₃) =>
          (pipeDevRead 0x18 dev₃).bind fun (apl, dev₄) =>
            Driver.probed dev₄ ((aph <<< 32 ||| apl) == paddr)

/-- The driver and the device, started by `qemu_pipe_probe`. -/
def driverMachine : Machine (Driver σ) (DriverEvent ι) where
  init s := ∃ b aps, qemuPipeProbe S b aps = some s
  step := Driver.step S

end QemuAndroid.GoldfishPipe
