import QemuAndroid.GoldfishPipe.DriverSteps
import QemuAndroid.Lib.Memory

/-!
# Batched accesses

The driver transfers a page in one of two ways.  It can write the parameters to their registers and
read the status; or it can put them into a block in its own memory and write to one register, upon
which the device takes the parameters from the memory at `params_addr` and writes the block back
with the result.  The driver fills the `result` field with a value that the emulator never sets, and
falls back to the registers if it finds it unchanged.

Here guest memory is there byte by byte, so that the device reads what the driver has stored, and an
access is recorded each time the device carries out a buffer command (`Bus`).  The pointer of a pipe
and the address of a buffer are `unsigned long`s of 64 bits; both ways keep the low halves.  The
parameter block is the one of `struct access_params`, since `qemu_guest_is_64bit` is constantly
zero.
-/

namespace QemuAndroid.GoldfishPipe

open Lib Option Memory GuestWrite PipeConnector

variable {σ ι : Type}

/-! ## The parameter block -/

def readParams (m : Memory) (a : BitVec 64) : AccessParams where
  channel := (m.readWord a).setWidth 64
  size := m.readWord (a + 4#64)
  address := (m.readWord (a + 8#64)).setWidth 64
  cmd := m.readWord (a + 12#64)
  result := m.readWord (a + 16#64)
  flags := m.readWord (a + 20#64)

def AccessParams.words (aps : AccessParams) : List (BitVec 32) :=
  [aps.channel.setWidth 32, aps.size, aps.address.setWidth 32, aps.cmd, aps.result, aps.flags]

/-- What a bus access stores in guest memory. -/
def GuestWrite.apply (m : Memory) : GuestWrite → Memory
  | .bytes a data => m.writeBytes a data
  | .params a aps => m.writeWords a aps.words

/-! ## The bus -/

/-- `PIPE_CMD_READ_BUFFER` or `PIPE_CMD_WRITE_BUFFER`. -/
def IsBuffer (cmd : BitVec 32) : Prop :=
  Cmd.ofBits cmd = some .cmdReadBuffer ∨ Cmd.ofBits cmd = some .cmdWriteBuffer
deriving Decidable

structure BufferCommand where
  channel : BitVec 64
  size : BitVec 32
  address : BitVec 64
  cmd : BitVec 32
deriving DecidableEq

/-- The device and guest memory, with the buffer commands that the device has carried out. -/
structure Bus (σ : Type) where
  dev : PipeDevice σ
  mem : Memory
  executed : List BufferCommand

/-- The buffer command that a write to a register makes the device carry out. -/
def executedBy (offset : BitVec 64) (value : BitVec 32) (dev : PipeDevice σ) (mem : Memory) :
    List BufferCommand :=
  match Reg.ofOffset offset with
  | some .command =>
    if IsBuffer value then [⟨dev.channel, dev.size, dev.address, value⟩] else []
  | some .accessParams =>
    let aps := readParams mem dev.paramsAddr
    if dev.paramsAddr ≠ 0 ∧ IsBuffer aps.cmd then [⟨aps.channel, aps.size, aps.address, aps.cmd⟩]
    else []
  | _ => []

namespace Bus

/-- What the device finds outside. -/
def busIn (s : Bus σ) (ext : ι) (fresh : Addr) : BusIn ι where
  params := readParams s.mem s.dev.paramsAddr
  ram := s.mem.readBytes
  ext := ext
  fresh := fresh

def writel (S : Services σ ι) (ext : ι) (fresh : Addr) (offset : BitVec 64) (value : BitVec 32)
    (s : Bus σ) : Option (Bus σ) :=
  (pipeDevWrite S (s.busIn ext fresh) offset (value.setWidth 64) s.dev).map fun (dev, ws) =>
    { dev := dev
      mem := ws.foldl apply s.mem
      executed := s.executed ++ executedBy offset value s.dev s.mem }

/-- `readl(dev->base + PIPE_REG_STATUS)`. -/
def readStatus (s : Bus σ) : Option (Bus σ × BitVec 32) :=
  (pipeDevRead 0x04 s.dev).map fun (value, dev) => ({ s with dev := dev }, value.setWidth 32)

/-- The fallback in `qemu_pipe_read_write`. -/
def registerAccess (S : Services σ ι) (ext : ι) (fresh : Addr) (cmd : Cmd)
    (address avail pipe : BitVec 64) (s : Bus σ) : Option (Bus σ × BitVec 32) := do
  let s ← s.writel S ext fresh 0x08 (pipe.setWidth 32)
  let s ← s.writel S ext fresh 0x0c (avail.setWidth 32)
  let s ← s.writel S ext fresh 0x10 (address.setWidth 32)
  let s ← s.writel S ext fresh 0x00 cmd.toBits
  s.readStatus

/-- The driver fills the block at `aps`, all but the `flags`. -/
def fillParams (cmd : Cmd) (address avail pipe : BitVec 64) (aps : BitVec 64) (s : Bus σ) : Bus σ :=
  { s with
    mem := s.mem.writeWords aps
      [pipe.setWidth 32, avail.setWidth 32, address.setWidth 32, cmd.toBits,
      impossibleBatchResult] }

/-- `access_with_param`, with the physical address of the block; `none` for the status when the
result is unchanged. -/
def accessWithParam (S : Services σ ι) (ext : ι) (fresh : Addr) (cmd : Cmd)
    (address avail pipe : BitVec 64) (aps : BitVec 64) (s : Bus σ) :
    Option (Bus σ × Option (BitVec 32)) := do
  let s ← (s.fillParams cmd address avail pipe aps).writel S ext fresh 0x20 cmd.toBits
  let result := s.mem.readWord (aps + 16#64)
  if result = impossibleBatchResult then some (s, none) else some (s, some result)

/-- One iteration of the loop of `qemu_pipe_read_write`; `aps` is `none` for `NULL`. -/
def transfer (S : Services σ ι) (ext : ι) (fresh : Addr) (cmd : Cmd)
    (address avail pipe : BitVec 64) (aps : Option (BitVec 64)) (s : Bus σ) :
    Option (Bus σ × BitVec 32) :=
  match aps with
  | none => s.registerAccess S ext fresh cmd address avail pipe
  | some aps =>
    (s.accessWithParam S ext fresh cmd address avail pipe aps).bind fun
      | (s, some status) => some (s, status)
      | (s, none) => s.registerAccess S ext fresh cmd address avail pipe

end Bus

/-! ## What a buffer command depends on -/

variable {b : BusIn ι} {dev dev' : PipeDevice σ}

/-- A command finds the same if it finds the same bytes in the buffer. -/
theorem pipeDeviceDoCommand_congr (S : Services σ ι) {b' : BusIn ι} {cmd : BitVec 32}
    (hcmd : IsBuffer cmd) (hext : b.ext = b'.ext) (hram : Cmd.ofBits cmd = some .cmdWriteBuffer →
      b.ram dev.address dev.size.toNat = b'.ram dev.address dev.size.toNat) :
    pipeDeviceDoCommand S b cmd dev = pipeDeviceDoCommand S b' cmd dev := by
  rcases hcmd with hread | hwrite
  · simp only [pipeDeviceDoCommand, hread, hext]
    rfl
  · simp only [pipeDeviceDoCommand, hwrite, hext, hram hwrite]
    rfl

theorem HostCall.apply_paramsAddr {pipe : Addr} {call : HostCall}
    (h : call.apply pipe dev = some dev') : dev'.paramsAddr = dev.paramsAddr := by
  have hwake : ∀ (flags : BitVec 32) (dev dev' : PipeDevice σ),
      qemuPipeWake pipe flags dev = some dev' → dev'.paramsAddr = dev.paramsAddr := by
    intro flags dev dev' h
    obtain ⟨x, -, h⟩ := bind_eq_some_iff.1 h
    obtain ⟨node, -, h⟩ := map_eq_some_iff.1 h
    split at h
    · rw [← h]
    · rw [← h]
  cases call with
  | wake flags => exact hwake flags dev dev' h
  | close =>
    obtain ⟨node, -, h⟩ := bind_eq_some_iff.1 h
    split at h
    · cases h
      rfl
    · exact (hwake _ _ _ h).trans rfl

theorem applyCalls_paramsAddr {pipe : Addr} {calls : List HostCall}
    (h : applyCalls pipe calls dev = some dev') : dev'.paramsAddr = dev.paramsAddr := by
  induction calls generalizing dev with
  | nil =>
    cases h
    rfl
  | cons call calls ih =>
    obtain ⟨dev₁, h₁, h₂⟩ := bind_eq_some_iff.1 h
    exact (ih h₂).trans (HostCall.apply_paramsAddr h₁)

theorem finishCall_eq {a : Addr} {pipe : Pipe σ} {calls : List HostCall} {status : BitVec 32}
    (h : finishCall a pipe calls status dev = some dev') :
    dev'.status = status ∧ dev'.paramsAddr = dev.paramsAddr := by
  obtain ⟨dev₁, h₁, rfl⟩ := map_eq_some_iff.1 h
  have hparams := applyCalls_paramsAddr h₁
  exact ⟨rfl, hparams⟩

/-- What `sendBuffers` and `recvBuffers` are documented to return: the number of bytes transferred,
or an error. -/
def StatusOf (size : Nat) (status : BitVec 32) : Prop :=
  status.toNat ≤ size ∨ status = pipeErrorInval ∨ status = pipeErrorAgain ∨
    status = pipeErrorNomem ∨ status = pipeErrorIo

/-- The services keep to the documentation of their callbacks. -/
structure Services.Documented (S : Services σ ι) : Prop where
  sendBuffers : ∀ svc ext p buffers,
    StatusOf (buffers.map List.length).sum ((S.funcs svc).sendBuffers ext p buffers).status
  recvBuffers :
    ∀ svc ext p sizes, StatusOf sizes.sum ((S.funcs svc).recvBuffers ext p sizes).1.status

/-- The driver's mark is no status. -/
theorem StatusOf.ne_impossible {size : Nat} {status : BitVec 32} (h : StatusOf size status)
    (hsize : size ≤ 4096) : status ≠ impossibleBatchResult := by
  rintro rfl
  rcases h with h | h | h | h | h
  · exact absurd (h.trans hsize) (by decide)
  · exact absurd h (by decide)
  · exact absurd h (by decide)
  · exact absurd h (by decide)
  · exact absurd h (by decide)

theorem PipeConnector.length_fill (buffer : List UInt8) (bufs : List (List UInt8)) :
    (fill buffer bufs).length ≤ max buffer.length 128 := by
  induction bufs generalizing buffer with
  | nil => exact le_max_left ..
  | cons b bs ih =>
    refine (ih _).trans ?_
    rw [List.length_append, List.length_take]
    omega

theorem pipeConnectorSendBuffers_status (S : Services σ ι) (ext : ι) (pcon : PipeConnector)
    (pipe : Pipe σ) (buffers : List (List UInt8)) :
    (pipeConnectorSendBuffers S ext pcon pipe buffers).2.1 ≠ impossibleBatchResult := by
  have hret : BitVec.ofNat 32 ((fill pcon.buffer buffers).length - pcon.buffer.length) ≠
      impossibleBatchResult := by
    have hlen := length_fill pcon.buffer buffers
    have hstatus : StatusOf 128 (BitVec.ofNat 32
        ((fill pcon.buffer buffers).length - pcon.buffer.length)) := by
      left
      exact (Nat.mod_le _ _).trans (by omega)
    exact hstatus.ne_impossible (by decide)
  have hinval : pipeErrorInval ≠ impossibleBatchResult := by decide
  simp only [pipeConnectorSendBuffers]
  split
  · split
    · split
      · exact hinval
      · split
        · exact hinval
        · exact hret
    · exact hinval
  · exact hret

/-- The device after a buffer command, and what the command stores. -/
theorem pipeDeviceDoCommand_buffer {S : Services σ ι} (hS : S.Documented) {cmd : BitVec 32}
    (hcmd : IsBuffer cmd) {ws : List GuestWrite} (hsize : dev.size.toNat ≤ 4096)
    (hram : (b.ram dev.address dev.size.toNat).length = dev.size.toNat)
    (h : pipeDeviceDoCommand S b cmd dev = some (dev', ws)) :
    dev'.status ≠ impossibleBatchResult ∧ dev'.paramsAddr = dev.paramsAddr ∧
      (ws = [] ∨ ∃ data, ws = [.bytes dev.address data]) := by
  have hopen : Cmd.ofBits cmd ≠ some .cmdOpen := by
    rcases hcmd with hc | hc <;> rw [hc] <;> exact fun e => by cases e
  obtain ⟨⟨lookup, found⟩, -, h⟩ := bind_eq_some_iff.1 h
  cases found with
  | none =>
    simp only [if_neg hopen] at h
    cases h
    exact ⟨(by decide : pipeErrorInval ≠ impossibleBatchResult), rfl, .inl rfl⟩
  | some a =>
    obtain ⟨pipe, -, h⟩ := bind_eq_some_iff.1 h
    split at h
    · cases h
      exact ⟨(by decide : pipeErrorIo ≠ impossibleBatchResult), rfl, .inl rfl⟩
    rcases hcmd with hread | hwrite
    · simp only [hread] at h
      obtain ⟨⟨pipe', status, calls, data⟩, hrecv, h⟩ := bind_eq_some_iff.1 h
      obtain ⟨dev₁, hfinish, h⟩ := map_eq_some_iff.1 h
      cases h
      obtain ⟨hstatus, hparams⟩ := finishCall_eq hfinish
      refine ⟨?_, hparams, .inr ⟨data, rfl⟩⟩
      rw [hstatus]
      simp only [Pipe.recvBuffers] at hrecv
      split at hrecv
      · cases hrecv
        exact (by decide : pipeErrorIo ≠ impossibleBatchResult)
      · cases hrecv
        refine (hS.recvBuffers _ _ _ _).ne_impossible ?_
        simpa using hsize
      · cases hrecv
    · simp only [hwrite] at h
      obtain ⟨⟨pipe', status, calls⟩, hsend, h⟩ := bind_eq_some_iff.1 h
      obtain ⟨dev₁, hfinish, h⟩ := map_eq_some_iff.1 h
      cases h
      obtain ⟨hstatus, hparams⟩ := finishCall_eq hfinish
      refine ⟨?_, hparams, .inl rfl⟩
      rw [hstatus]
      simp only [Pipe.sendBuffers] at hsend
      split at hsend
      · have := congrArg (fun r => r.2.1) (some.inj hsend)
        exact this ▸ pipeConnectorSendBuffers_status S _ _ _ _
      · cases hsend
        refine (hS.sendBuffers _ _ _ _).ne_impossible ?_
        simpa [hram] using hsize
      · cases hsend

/-! ## The two ways -/

/-- The device with the registers of an access set. -/
def select (address avail pipe : BitVec 64) (dev : PipeDevice σ) : PipeDevice σ :=
  { dev with
    channel := (pipe.setWidth 32).setWidth 64
    size := avail.setWidth 32
    address := (address.setWidth 32).setWidth 64 }

def request (cmd : Cmd) (address avail pipe : BitVec 64) : BufferCommand where
  channel := (pipe.setWidth 32).setWidth 64
  size := avail.setWidth 32
  address := (address.setWidth 32).setWidth 64
  cmd := cmd.toBits

/-- The high halves of the channel and of the address register are 0. -/
def LowRegisters (dev : PipeDevice σ) : Prop :=
  LowChannel dev ∧ ∃ a : BitVec 32, dev.address = a.setWidth 64

namespace Bus

variable {S : Services σ ι} {ext : ι} {fresh : Addr} {cmd : Cmd}
    {address avail pipe aps : BitVec 64}
  {s : Bus σ}

theorem writel_channel (v : BitVec 32) : s.writel S ext fresh 0x08 v =
    some { s with dev :=
  { s.dev with channel := uint64SetLow s.dev.channel (v.setWidth 64) } } := by
  simp [writel, pipeDevWrite, Reg.ofOffset, executedBy]

theorem writel_size (v : BitVec 32) : s.writel S ext fresh 0x0c v =
    some { s with dev := { s.dev with size := v } } := by
  simp [writel, pipeDevWrite, Reg.ofOffset, executedBy]

theorem writel_address (v : BitVec 32) : s.writel S ext fresh 0x10 v =
    some { s with dev :=
  { s.dev with address := uint64SetLow s.dev.address (v.setWidth 64) } } := by
  simp [writel, pipeDevWrite, Reg.ofOffset, executedBy]

theorem writel_command (hcmd : IsBuffer cmd.toBits) : s.writel S ext fresh 0x00 cmd.toBits =
    (pipeDeviceDoCommand S (s.busIn ext fresh) cmd.toBits s.dev).map fun (dev, ws) =>
      ⟨dev, ws.foldl apply s.mem,
        s.executed ++ [⟨s.dev.channel, s.dev.size, s.dev.address, cmd.toBits⟩]⟩ := by
  simp [writel, pipeDevWrite, Reg.ofOffset, executedBy, hcmd]

theorem writel_accessParams (v : BitVec 32) : s.writel S ext fresh 0x20 v =
    (accessParams S (s.busIn ext fresh) s.dev).map fun (dev, ws) =>
      ⟨dev, ws.foldl apply s.mem, s.executed ++ executedBy 0x20 v s.dev s.mem⟩ := rfl

theorem readStatus_eq : s.readStatus = some (s, s.dev.status) := by
  simp [readStatus, pipeDevRead, Reg.ofOffset]

/-- The registers, one after the other: the device carries out the command once. -/
theorem registerAccess_eq (hlow : LowRegisters s.dev) (hcmd : IsBuffer cmd.toBits) :
    s.registerAccess S ext fresh cmd address avail pipe =
      (pipeDeviceDoCommand S (s.busIn ext fresh) cmd.toBits (select address avail pipe s.dev)).map
        fun (dev, ws) =>
          (⟨dev, ws.foldl apply s.mem, s.executed ++ [request cmd address avail pipe]⟩,
            dev.status) := by
  obtain ⟨⟨q, hq⟩, a, ha⟩ := hlow
  have hchannel : uint64SetLow s.dev.channel ((pipe.setWidth 32).setWidth 64) =
      (pipe.setWidth 32).setWidth 64 := by
    rw [hq]
    exact uint64SetLow_channelOf q _
  have haddress : uint64SetLow s.dev.address ((address.setWidth 32).setWidth 64) =
      (address.setWidth 32).setWidth 64 := by
    rw [ha]
    exact uint64SetLow_channelOf a _
  simp only [registerAccess, writel_channel, writel_size, writel_address, writel_command hcmd,
    readStatus_eq, hchannel, haddress, bind_eq_bind, bind_some]
  rw [bind_map]
  exact map_eq_bind.symm

/-- What the device finds in the block that the driver has filled. -/
theorem readParams_fillParams (cmd : Cmd) (address avail pipe aps : BitVec 64) (s : Bus σ) :
    ∃ flags, readParams (s.fillParams cmd address avail pipe aps).mem aps =
      ⟨(pipe.setWidth 32).setWidth 64, avail.setWidth 32, (address.setWidth 32).setWidth 64,
        cmd.toBits, impossibleBatchResult, flags⟩ := by
  let t := s.fillParams cmd address avail pipe aps
  have h0 : t.mem.readWord (aps + 0#64) = pipe.setWidth 32 :=
    readWord_writeWords (k := 0) rfl (by decide)
  rw [BitVec.add_zero] at h0
  have h1 : t.mem.readWord (aps + 4#64) = avail.setWidth 32 :=
    readWord_writeWords (k := 1) rfl (by decide)
  have h2 : t.mem.readWord (aps + 8#64) = address.setWidth 32 :=
    readWord_writeWords (k := 2) rfl (by decide)
  have h3 : t.mem.readWord (aps + 12#64) = cmd.toBits :=
    readWord_writeWords (k := 3) rfl (by decide)
  have h4 : t.mem.readWord (aps + 16#64) = impossibleBatchResult :=
    readWord_writeWords (k := 4) rfl (by decide)
  exact ⟨_, by rw [readParams, h0, h1, h2, h3, h4]⟩

theorem accessParams_executed (h0 : dev.paramsAddr ≠ 0) (hcmd : IsBuffer b.params.cmd) :
    accessParams S b dev = (pipeDeviceDoCommand S b b.params.cmd { dev with
          channel := b.params.channel, size := b.params.size, address := b.params.address }).map
        fun (dev', ws) =>
          (dev', ws ++ [.params dev'.paramsAddr { b.params with result := dev'.status }]) := by
  have hnot : ¬ (Cmd.ofBits b.params.cmd ≠ some .cmdReadBuffer ∧
      Cmd.ofBits b.params.cmd ≠ some .cmdWriteBuffer) := fun h => hcmd.elim h.1 h.2
  rw [accessParams, if_neg h0]
  exact if_neg hnot

/-- The batch is not carried out, and its parameters are all that is left of it. -/
theorem accessParams_skipped {b : BusIn ι} {dev : PipeDevice σ}
    (h : dev.paramsAddr = 0 ∨ ¬ IsBuffer b.params.cmd) :
    accessParams S b dev = some (dev, []) ∨ accessParams S b dev = some ({ dev with
      channel := b.params.channel, size := b.params.size, address := b.params.address }, []) := by
  by_cases h0 : dev.paramsAddr = 0
  · left
    rw [accessParams, if_pos h0]
  right
  have hnot : Cmd.ofBits b.params.cmd ≠ some .cmdReadBuffer ∧
      Cmd.ofBits b.params.cmd ≠ some .cmdWriteBuffer := not_or.1 (h.resolve_left h0)
  rw [accessParams, if_neg h0]
  exact if_pos hnot

/-- The driver's buffer does not overlap its parameter block. -/
def BufferApart (address avail aps : BitVec 64) : Prop :=
  ∀ i < avail.toNat, ¬ Memory.Within aps 24
    ((address.setWidth 32).setWidth 64 + BitVec.ofNat 64 i)

/-- The same device, the same commands, and the same memory outside the block. -/
structure Agrees (aps : BitVec 64) (s s' : Bus σ) : Prop where
  dev : s.dev = s'.dev
  executed : s.executed = s'.executed
  mem : ∀ x, ¬ Memory.Within aps 24 x → s.mem x = s'.mem x

theorem fillParams_outside (x : BitVec 64) (hx : ¬ Memory.Within aps 24 x) :
    (s.fillParams cmd address avail pipe aps).mem x = s.mem x :=
  writeWords_outside fun h => hx (Nat.lt_trans h (show 4 * 5 < 24 by decide))

theorem toNat_avail (havail : avail.toNat ≤ 4096) : (avail.setWidth 32).toNat = avail.toNat := by
  exact Nat.mod_eq_of_lt (lt_of_le_of_lt havail (by decide))

/-- A command does not see what differs in the block. -/
theorem doCommand_congr {s' : Bus σ} (hmem : ∀ x, ¬ Memory.Within aps 24 x → s.mem x = s'.mem x)
    (hcmd : IsBuffer cmd.toBits) (havail : avail.toNat ≤ 4096)
    (hapart : cmd = .cmdWriteBuffer → BufferApart address avail aps) (dev : PipeDevice σ) :
    pipeDeviceDoCommand S (s.busIn ext fresh) cmd.toBits (select address avail pipe dev) =
      pipeDeviceDoCommand S (s'.busIn ext fresh) cmd.toBits (select address avail pipe dev) := by
  refine pipeDeviceDoCommand_congr S hcmd rfl fun hwrite => ?_
  rw [Cmd.ofBits_toBits] at hwrite
  refine readBytes_congr fun i hi => hmem _ (hapart (some.inj hwrite) i ?_)
  exact lt_of_lt_of_eq hi (toNat_avail havail)

theorem foldl_apply_congr {m m' : Memory} {x : BitVec 64} (hx : m x = m' x) {ws : List GuestWrite}
    {a : BitVec 64} (hws : ws = [] ∨ ∃ data, ws = [.bytes a data]) :
    ws.foldl apply m x = ws.foldl apply m' x := by
  rcases hws with rfl | ⟨data, rfl⟩
  · exact hx
  · change (data[(x - a).toNat]?).getD (m x) = (data[(x - a).toNat]?).getD (m' x)
    rw [hx]

theorem executedBy_accessParams (value : BitVec 32) (dev : PipeDevice σ) (mem : Memory) :
    executedBy 0x20 value dev mem =
      if dev.paramsAddr ≠ 0 ∧ IsBuffer (readParams mem dev.paramsAddr).cmd then
        [⟨(readParams mem dev.paramsAddr).channel, (readParams mem dev.paramsAddr).size,
          (readParams mem dev.paramsAddr).address, (readParams mem dev.paramsAddr).cmd⟩]
      else [] := rfl

/-- The write to the register when the device finds the driver's block. -/
theorem writel_executed (S : Services σ ι) (ext : ι) (fresh : Addr) (address avail pipe : BitVec 64)
    (hcmd : IsBuffer cmd.toBits) (haps : s.dev.paramsAddr = aps) (h0 : aps ≠ 0) :
    ∃ flags, (s.fillParams cmd address avail pipe aps).writel S ext fresh 0x20 cmd.toBits =
      (pipeDeviceDoCommand S ((s.fillParams cmd address avail pipe aps).busIn ext fresh) cmd.toBits
        (select address avail pipe s.dev)).map fun (dev, ws) =>
          ⟨dev, (ws.foldl apply (s.fillParams cmd address avail pipe aps).mem).writeWords
              dev.paramsAddr
              [pipe.setWidth 32, avail.setWidth 32, address.setWidth 32, cmd.toBits, dev.status,
              flags],
            s.executed ++ [request cmd address avail pipe]⟩ := by
  obtain ⟨flags, hflags⟩ := readParams_fillParams cmd address avail pipe aps s
  let t := s.fillParams cmd address avail pipe aps
  have hparams : (t.busIn ext fresh).params =
      ⟨(pipe.setWidth 32).setWidth 64, avail.setWidth 32, (address.setWidth 32).setWidth 64,
        cmd.toBits, impossibleBatchResult, flags⟩ := by
    subst haps
    exact hflags
  have hne : t.dev.paramsAddr ≠ 0 := haps ▸ h0
  have hexecuted : executedBy 0x20 cmd.toBits t.dev t.mem = [request cmd address avail pipe] := by
    rw [executedBy_accessParams, show t.dev.paramsAddr = aps from haps, hflags, if_pos ⟨h0, hcmd⟩]
    rfl
  refine ⟨flags, ?_⟩
  rw [writel_accessParams, hexecuted, accessParams_executed hne (by rw [hparams]; exact hcmd),
    hparams, map_map]
  congr 1
  funext ⟨dev, ws⟩
  simp [List.foldl_append, apply, AccessParams.words, fillParams]

/-- The batch through the block at `params_addr` does what the registers do. -/
theorem accessWithParam_executed (ext : ι) (fresh : Addr) (pipe : BitVec 64) (hS : S.Documented)
    (hlow : LowRegisters s.dev) (hcmd : IsBuffer cmd.toBits) (havail : avail.toNat ≤ 4096)
    (hapart : cmd = .cmdWriteBuffer → BufferApart address avail aps) (haps : s.dev.paramsAddr = aps)
    (h0 : aps ≠ 0) : Option.Rel (fun x y => x.2 = some y.2 ∧ Agrees aps x.1 y.1)
      (s.accessWithParam S ext fresh cmd address avail pipe aps)
      (s.registerAccess S ext fresh cmd address avail pipe) := by
  obtain ⟨flags, hwrite⟩ := writel_executed S ext fresh address avail pipe hcmd haps h0
  rw [registerAccess_eq hlow hcmd, accessWithParam, hwrite,
    doCommand_congr fillParams_outside hcmd havail hapart]
  cases hrun : pipeDeviceDoCommand S (s.busIn ext fresh)
    cmd.toBits (select address avail pipe s.dev) with
  | none => exact .none
  | some r =>
    obtain ⟨dev, ws⟩ := r
    have hsize : (select address avail pipe s.dev).size.toNat ≤ 4096 :=
      (toNat_avail havail).trans_le havail
    obtain ⟨hstatus, hparams, hws⟩ := pipeDeviceDoCommand_buffer hS hcmd hsize
      (by simp [busIn, readBytes]) hrun
    have hparams : dev.paramsAddr = aps := hparams.trans haps
    have hresult : readWord ((ws.foldl apply
        (s.fillParams cmd address avail pipe aps).mem).writeWords dev.paramsAddr
        [pipe.setWidth 32, avail.setWidth 32, address.setWidth 32, cmd.toBits, dev.status, flags])
        (aps + 16#64) = dev.status := by
      rw [hparams]
      exact readWord_writeWords (k := 4) rfl (by decide)
    simp only [map_some, bind_eq_bind, bind_some, hresult, if_neg hstatus]
    refine .some ⟨rfl, rfl, rfl, fun x hx => ?_⟩
    rw [hparams]
    have hblock : ∀ m : Memory, m.writeWords aps [pipe.setWidth 32, avail.setWidth 32,
        address.setWidth 32, cmd.toBits, dev.status, flags] x = m x :=
      fun m => writeWords_outside hx
    exact (hblock _).trans (foldl_apply_congr (fillParams_outside x hx) hws)

/-- The batch is not carried out: the driver finds its mark. -/
theorem accessWithParam_skipped (S : Services σ ι) (ext : ι) (fresh : Addr)
    (address avail pipe : BitVec 64) (h : s.dev.paramsAddr = 0 ∨
      ¬ IsBuffer (readParams (s.fillParams cmd address avail pipe aps).mem s.dev.paramsAddr).cmd) :
    ∃ s', s.accessWithParam S ext fresh cmd address avail pipe aps = some (s', none) ∧
      s'.executed = s.executed ∧ s'.mem = (s.fillParams cmd address avail pipe aps).mem ∧
      select address avail pipe s'.dev = select address avail pipe s.dev ∧
      (LowRegisters s.dev → LowRegisters s'.dev) := by
  let t := s.fillParams cmd address avail pipe aps
  have hexecuted : executedBy 0x20 cmd.toBits t.dev t.mem = [] := by
    exact if_neg fun hboth => h.elim hboth.1 fun hnot => hnot hboth.2
  have hresult : t.mem.readWord (aps + 16#64) = impossibleBatchResult :=
    readWord_writeWords (k := 4) rfl (by decide)
  have hskip := @accessParams_skipped σ ι S (t.busIn ext fresh) t.dev h
  rcases hskip with hskip | hskip
  · refine ⟨t, ?_, rfl, rfl, rfl, id⟩
    rw [accessWithParam, writel_accessParams, hskip, hexecuted]
    simpa [t, fillParams] using hresult
  let params := readParams t.mem s.dev.paramsAddr
  refine ⟨{ t with dev := { s.dev with
      channel := params.channel, size := params.size, address := params.address } },
    ?_, rfl, rfl, rfl, fun _ => ⟨⟨_, rfl⟩, _, rfl⟩⟩
  rw [accessWithParam, writel_accessParams, hskip, hexecuted]
  simpa [t, params, fillParams, busIn] using hresult

/-- What the device finds at `params_addr`: the driver's block, or nothing to carry out. -/
def Settled (cmd : Cmd) (address avail pipe aps : BitVec 64) (s : Bus σ) : Prop :=
  s.dev.paramsAddr = aps ∨ s.dev.paramsAddr = 0 ∨
    ¬ IsBuffer (readParams (s.fillParams cmd address avail pipe aps).mem s.dev.paramsAddr).cmd

theorem Settled.cases (h : Settled cmd address avail pipe aps s) :
    (s.dev.paramsAddr = aps ∧ aps ≠ 0) ∨ s.dev.paramsAddr = 0 ∨
      ¬ IsBuffer (readParams (s.fillParams cmd address avail pipe aps).mem
      s.dev.paramsAddr).cmd := by
  by_cases h0 : s.dev.paramsAddr = 0
  · exact .inr (.inl h0)
  · rcases h with haps | h
    · exact .inl ⟨haps, haps ▸ h0⟩
    · exact .inr h

/-- The registers after a batch that was not carried out do what they do without it. -/
theorem registerAccess_agrees {s' : Bus σ} (ext : ι) (fresh : Addr) (hS : S.Documented)
    (hlow : LowRegisters s.dev) (hlow' : LowRegisters s'.dev) (hcmd : IsBuffer cmd.toBits)
    (havail : avail.toNat ≤ 4096) (hapart : cmd = .cmdWriteBuffer → BufferApart address avail aps)
    (hselect : select address avail pipe s'.dev = select address avail pipe s.dev)
    (hexecuted : s'.executed = s.executed)
    (hmem : ∀ x, ¬ Memory.Within aps 24 x → s'.mem x = s.mem x) :
    Option.Rel (fun x y => x.2 = y.2 ∧ Agrees aps x.1 y.1)
      (s'.registerAccess S ext fresh cmd address avail pipe)
      (s.registerAccess S ext fresh cmd address avail pipe) := by
  rw [registerAccess_eq hlow hcmd, registerAccess_eq hlow' hcmd, hselect,
    doCommand_congr hmem hcmd havail hapart, hexecuted]
  cases hrun : pipeDeviceDoCommand S (s.busIn ext fresh)
    cmd.toBits (select address avail pipe s.dev) with
  | none => exact .none
  | some r =>
    have hsize : (select address avail pipe s.dev).size.toNat ≤ 4096 :=
      (toNat_avail havail).trans_le havail
    obtain ⟨-, -, hws⟩ := pipeDeviceDoCommand_buffer hS hcmd hsize
      (by simp [busIn, readBytes]) hrun
    exact .some ⟨rfl, rfl, rfl, fun x hx => foldl_apply_congr (hmem x hx) hws⟩

theorem registerAccess_executed {r : Bus σ × BitVec 32} (hlow : LowRegisters s.dev)
    (hcmd : IsBuffer cmd.toBits)
    (h : s.registerAccess S ext fresh cmd address avail pipe = some r) :
    r.1.executed = s.executed ++ [request cmd address avail pipe] := by
  rw [registerAccess_eq hlow hcmd] at h
  obtain ⟨x, -, rfl⟩ := map_eq_some_iff.1 h
  rfl

theorem rel_some {α β : Type} {R : α → β → Prop} {x : Option α} {y : Option β}
    (h : Option.Rel R x y) {a : α} (hx : x = some a) : ∃ b, y = some b ∧ R a b := by
  cases h with
  | none => cases hx
  | some hab =>
    cases hx
    exact ⟨_, rfl, hab⟩

/-- With the high registers never written, and services that return what they are documented to: a
batch through `params_addr` is the access through the registers; and in one iteration of the loop of
`qemu_pipe_read_write` the device carries out the command of that iteration, nothing else and only
once, with the driver falling back exactly if the batch was not carried out, as long as the device
finds the driver's block or no buffer command at `params_addr`. -/
theorem batch_refines_registers (hS : S.Documented) (hlow : LowRegisters s.dev)
    (hcmd : IsBuffer cmd.toBits) (havail : avail.toNat ≤ 4096) :
    (∀ aps, s.dev.paramsAddr = aps → aps ≠ 0 →
      (cmd = .cmdWriteBuffer → BufferApart address avail aps) →
      Option.Rel (fun x y => x.2 = some y.2 ∧ Agrees aps x.1 y.1)
        (s.accessWithParam S ext fresh cmd address avail pipe aps)
        (s.registerAccess S ext fresh cmd address avail pipe)) ∧
    (∀ r, s.transfer S ext fresh cmd address avail pipe none = some r →
      r.1.executed = s.executed ++ [request cmd address avail pipe]) ∧
    (∀ aps, Settled cmd address avail pipe aps s →
      (cmd = .cmdWriteBuffer → BufferApart address avail aps) →
      Option.Rel (fun x y => x.2 = y.2 ∧ Agrees aps x.1 y.1)
        (s.transfer S ext fresh cmd address avail pipe (some aps))
        (s.registerAccess S ext fresh cmd address avail pipe) ∧
      (∀ r, s.transfer S ext fresh cmd address avail pipe (some aps) = some r →
        r.1.executed = s.executed ++ [request cmd address avail pipe]) ∧
      ∀ r, s.accessWithParam S ext fresh cmd address avail pipe aps = some r →
        (r.2 = none ↔ r.1.executed = s.executed)) := by
  refine ⟨fun aps haps h0 hapart =>
    accessWithParam_executed ext fresh pipe hS hlow hcmd havail hapart haps h0,
    fun r hr => registerAccess_executed hlow hcmd hr, fun aps hsettled hapart => ?_⟩
  rcases hsettled.cases with ⟨haps, h0⟩ | hskip
  · have hrel := accessWithParam_executed ext fresh pipe hS hlow hcmd havail hapart haps h0
    have htransfer : Option.Rel (fun x y => x.2 = y.2 ∧ Agrees aps x.1 y.1)
        (s.transfer S ext fresh cmd address avail pipe (some aps))
        (s.registerAccess S ext fresh cmd address avail pipe) := by
      simp only [transfer]
      generalize s.accessWithParam S ext fresh cmd address avail pipe aps = batch at hrel
      generalize s.registerAccess S ext fresh cmd address avail pipe = registers at hrel
      cases hrel with
      | none => exact .none
      | @some x y hxy =>
        obtain ⟨x, status⟩ := x
        obtain ⟨rfl, hagrees⟩ := hxy
        exact .some ⟨rfl, hagrees⟩
    refine ⟨htransfer, fun r hr => ?_, fun r hr => ?_⟩
    · obtain ⟨y, hy, -, hagrees⟩ := rel_some htransfer hr
      exact hagrees.executed.trans (registerAccess_executed hlow hcmd hy)
    · obtain ⟨y, hy, hstatus, hagrees⟩ := rel_some hrel hr
      rw [hstatus, hagrees.executed, registerAccess_executed hlow hcmd hy]
      simp
  · obtain ⟨s', hs', hexecuted, hmem, hselect, hlow'⟩ :=
      accessWithParam_skipped S ext fresh address avail pipe hskip
    have htransfer : s.transfer S ext fresh cmd address avail pipe (some aps) =
        s'.registerAccess S ext fresh cmd address avail pipe := by
      rw [transfer, hs']
      rfl
    have hrel := registerAccess_agrees ext fresh hS hlow (hlow' hlow) hcmd havail hapart hselect
      hexecuted fun x hx => by rw [hmem, fillParams_outside x hx]
    rw [htransfer]
    refine ⟨hrel, fun r hr => ?_, fun r hr => ?_⟩
    · obtain ⟨y, hy, -, hagrees⟩ := rel_some hrel hr
      exact hagrees.executed.trans (registerAccess_executed hlow hcmd hy)
    · cases hs'.symm.trans hr
      exact iff_of_true rfl hexecuted

theorem noServices_documented : noServices.Documented :=
  ⟨fun _ _ _ _ => .inl (Nat.zero_le _), fun _ _ _ _ => .inl (Nat.zero_le _)⟩

/-- One open pipe on the channel `0x40`, and parameters at `0x2000` that ask to send it a byte. -/
def openPipe (paramsAddr : BitVec 64) : Bus Unit where
  dev := { (PipeDevice.reset : PipeDevice Unit) with
    heap := (∅ : Heap (Pipe Unit)).insert 1 (pipeNew 0x40)
    pipes := some 1
    paramsAddr := paramsAddr }
  mem := Memory.writeWords (fun _ => 0x70) 0x2000 [0x40, 1, 0x3000, 4, 0, 0]
  executed := []

def received (s : Bus Unit) : Option (OpaqueData Unit) :=
  (s.dev.heap.lookup 1).map Pipe.opaqueData

theorem batch_refines_registers_openPipe :
    Option.Rel (fun x y => x.2 = some y.2 ∧ Agrees 0x1000 x.1 y.1)
      ((openPipe 0x1000).accessWithParam noServices () 2 .cmdWriteBuffer 0x3000 1 0x40 0x1000)
      ((openPipe 0x1000).registerAccess noServices () 2 .cmdWriteBuffer 0x3000 1 0x40) ∧
    (∀ r, (openPipe 0).transfer noServices () 2 .cmdReadBuffer 0x3000 1 0x40 (some 0x1000) =
      some r →
      r.1.executed = [request .cmdReadBuffer 0x3000 1 0x40]) := by
  have hlow : ∀ p, LowRegisters (openPipe p).dev := fun p => ⟨⟨0, rfl⟩, 0, rfl⟩
  have hapart : BufferApart 0x3000 1 0x1000 := by
    intro i hi
    obtain rfl : i = 0 := Nat.lt_one_iff.1 hi
    decide
  refine ⟨?_, ?_⟩
  · exact (batch_refines_registers noServices_documented (hlow _) (.inr rfl) (by decide)).1
      0x1000 rfl (by decide) fun _ => hapart
  · exact ((batch_refines_registers noServices_documented (hlow _) (.inl rfl) (by decide)).2.2
      0x1000 (.inr (.inl rfl)) fun _ => hapart).2.1

/-- With `params_addr` at another block the device sends the byte, the driver finds its mark, and
the byte is sent again.  With the buffer inside the driver's own block the pipe receives the mark
and not what was there. -/
theorem batch_executed_twice :
    ((openPipe 0x2000).accessWithParam noServices () 2 .cmdWriteBuffer 0x3000 1 0x40 0x1000).map
      (fun r => (r.2, r.1.executed)) = some (none, [request .cmdWriteBuffer 0x3000 1 0x40]) ∧
    ((openPipe 0x2000).transfer noServices () 2 .cmdWriteBuffer 0x3000 1 0x40 (some 0x1000)).map
      (fun r => (r.1.executed, received r.1)) =
        some ([request .cmdWriteBuffer 0x3000 1 0x40, request .cmdWriteBuffer 0x3000 1 0x40],
          some (.connector ⟨[0x70, 0x70]⟩)) ∧
    ((openPipe 0x1000).accessWithParam noServices () 2 .cmdWriteBuffer 0x1010 1 0x40 0x1000).map
      (fun r => received r.1) = some (some (.connector ⟨[0xaf]⟩)) ∧
    ((openPipe 0x1000).registerAccess noServices () 2 .cmdWriteBuffer 0x1010 1 0x40).map
      (fun r => received r.1) = some (some (.connector ⟨[0x70]⟩)) := by
  refine ⟨?_, ?_, ?_, ?_⟩
  · decide +kernel
  · decide +kernel
  · decide +kernel
  · decide +kernel

end Bus

end QemuAndroid.GoldfishPipe
