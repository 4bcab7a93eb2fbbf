import QemuAndroid.GoldfishPipe.Driver

/-!
# Steps of the driver on the view

The sections under `dev->lock` are reduced to the commands of
`QemuAndroid.GoldfishPipe.Command`: the driver never writes the high half of the
channel register, so selecting a pipe selects the channel of its address.  From
that follows the inversion of `Task.step` (`Task.step_spec`): what a step of a
call does to the task, to its pipe (`Task.Moves`) and to the view of the device
(`Task.Touches`).
-/

namespace QemuAndroid.GoldfishPipe

open Lib Option BitVec

variable {σ ι : Type}

/-! ## Channels -/

def channelOf (pipe : BitVec 32) : BitVec 64 := pipe.setWidth 64

theorem channelOf_inj {p q : BitVec 32} (h : channelOf p = channelOf q) : p = q := by
  have := congrArg (setWidth 32) h
  simpa [channelOf] using this

theorem lowMask_eq : 0xffffffff#64 = (BitVec.allOnes 32).setWidth 64 := by decide

theorem channelOf_and_lowMask (p : BitVec 32) : channelOf p &&& 0xffffffff#64 = channelOf p := by
  rw [lowMask_eq, channelOf, ← setWidth_and, and_allOnes]

@[simp] theorem setWidth_channelOf (p : BitVec 32) : (channelOf p).setWidth 32 = p := by
  simp [channelOf]

/-- The high half of the channel register is 0. -/
def LowChannel (dev : PipeDevice σ) : Prop := ∃ p, dev.channel = channelOf p

theorem uint64SetLow_channelOf (q p : BitVec 32) :
    uint64SetLow (channelOf q) (p.setWidth 64) = channelOf p := by
  have h : channelOf q &&& ~~~0xffffffff#64 = 0#64 := by
    rw [lowMask_eq, channelOf]
    ext i hi
    simp only [getElem_and, getElem_not, getElem_setWidth, getLsbD_allOnes, getElem_zero]
    by_cases h : i < 32
    · simp [h]
    · simp [getLsbD_of_ge q i (by omega)]
  rw [uint64SetLow, h]
  simp [channelOf]

/-! ## Sections under `dev->lock` -/

variable {S : Services σ ι} {b : BusIn ι} {dev dev' : PipeDevice σ}
  {r : PipeDevice σ × List GuestWrite} {pipe xaddr avail version : BitVec 32} {cmd : Cmd}
  {v : View σ} {aps : Bool} {task task' : Task} {g g' : QemuPipe} {env : Env ι} {t : Nat}

theorem guestWrite_eq_some {offset value : BitVec 64}
    (h : guestWrite S b offset value dev = some r) : b.fresh ∉ dev.heap ∧
    pipeDevWrite S b offset value dev = some r :=
  ite_none_left_eq_some.mp h

theorem guestWrite_channel (hlow : LowChannel dev)
    (h : guestWrite S b 0x08 (pipe.setWidth 64) dev = some r) :
    r.1 = { dev with channel := channelOf pipe } := by
  obtain ⟨q, hq⟩ := hlow
  obtain ⟨-, hw⟩ := guestWrite_eq_some h
  have hr : some ({ dev with channel := uint64SetLow dev.channel (pipe.setWidth 64) }, []) =
    some r := hw
  obtain rfl := some.inj hr
  rw [hq, uint64SetLow_channelOf]

theorem guestWrite_command (hrep : Represents dev v) (hv : v.Wf)
    (h : guestWrite S b 0x00 (cmd.toBits.setWidth 64) dev = some r) :
    ∃ v', Represents r.1 v' ∧ v'.Wf ∧ r.1.channel = dev.channel ∧
      CommandEffect v dev.channel b.fresh dev.irq dev.status (some cmd) v' r.1.irq r.1.status := by
  obtain ⟨hb, hw⟩ := guestWrite_eq_some h
  have hw' : pipeDeviceDoCommand S b ((cmd.toBits.setWidth 64).setWidth 32) dev = some r := hw
  obtain ⟨dev', ws, v', hd, hr, hwf, heff, hdev⟩ := pipeDeviceDoCommand_spec S _ hrep hv hb
  obtain rfl : (dev', ws) = r := some.inj (hd.symm.trans hw')
  have hbits : (cmd.toBits.setWidth 64).setWidth 32 = cmd.toBits := by simp
  rw [hbits, Cmd.ofBits_toBits] at heff
  exact ⟨v', hr, hwf, by rw [hdev], heff⟩

theorem command_spec (hrep : Represents dev v) (hv : v.Wf) (hlow : LowChannel dev)
    (h : command S b pipe cmd dev = some dev') :
    b.fresh ∉ dev.heap ∧ ∃ v', Represents dev' v' ∧ v'.Wf ∧ LowChannel dev' ∧
      CommandEffect v (channelOf pipe) b.fresh dev.irq dev.status (some cmd) v' dev'.irq
        dev'.status := by
  obtain ⟨⟨dev₁, ws₁⟩, h₁, h⟩ := bind_eq_some_iff.mp h
  obtain ⟨⟨dev₂, ws₂⟩, h₂, rfl⟩ := map_eq_some_iff.mp h
  obtain rfl : dev₁ = { dev with channel := channelOf pipe } := guestWrite_channel hlow h₁
  have hrep₁ : Represents { dev with channel := channelOf pipe } v := hrep.congr
  obtain ⟨v', hr, hwf, hch, heff⟩ := guestWrite_command hrep₁ hv h₂
  exact ⟨(guestWrite_eq_some h₁).1, v', hr, hwf, ⟨pipe, hch⟩, heff⟩

/-- What a command other than opening and closing does to the view. -/
def View.Touches (v : View σ) (ch : BitVec 64) (v' : View σ) : Prop :=
  v' = v ∨ ∃ a n, v.node a = some n ∧ n.channel = ch ∧ v.Grows a v'

theorem View.Touches.trans {v' v'' : View σ} {ch : BitVec 64} (hv' : v'.Wf) (h : v.Touches ch v')
    (h' : v'.Touches ch v'') : v.Touches ch v'' := by
  rcases h' with rfl | ⟨a', n', hn', hch', hg'⟩
  · exact h
  rcases h with rfl | ⟨a, n, hn, hch, hg⟩
  · exact .inr ⟨a', n', hn', hch', hg'⟩
  · obtain ⟨m, hm, hmch, -⟩ := hg.node n hn
    obtain rfl := hv'.channel_inj a a' m n' hm hn' (hmch.trans (hch.trans hch'.symm))
    exact .inr ⟨a, n, hn, hch, hg.trans hg'⟩

theorem CommandEffect.touches {v' : View σ} {ch : BitVec 64} {fresh : Addr} {irq irq' : Bool}
    {status status' : BitVec 32}
    (h : CommandEffect v ch fresh irq status (some cmd) v' irq' status') (hopen : cmd ≠ .cmdOpen)
    (hclose : cmd ≠ .cmdClose) : v.Touches ch v' := by
  cases h with
  | noPipe | rejected | inUse | unknown => exact .inl rfl
  | opened _ hc => exact absurd (some.inj hc) hopen
  | closed _ _ hc => exact absurd (some.inj hc) hclose
  | called hn hch _ _ _ _ hg => exact .inr ⟨_, _, hn, hch, hg⟩

variable {r : PipeDevice σ × BitVec 32}

theorem readStatus_spec (h : readStatus dev = some r) :
    r = (dev, dev.status) := by
  have hr : some (dev, (dev.status.setWidth 64).setWidth 32) = some r := h
  obtain rfl := some.inj hr
  simp

section

variable (hrep : Represents dev v) (hv : v.Wf) (hlow : LowChannel dev) (hopen : cmd ≠ .cmdOpen)
  (hclose : cmd ≠ .cmdClose)

include hrep hv hlow hopen hclose

theorem registerTransfer_spec (h : registerTransfer S b pipe cmd xaddr avail dev = some r) :
    ∃ v', Represents r.1 v' ∧ v'.Wf ∧ LowChannel r.1 ∧ v.Touches (channelOf pipe) v' := by
  obtain ⟨⟨dev₁, ws₁⟩, h₁, k₁⟩ := bind_eq_some_iff.mp h
  obtain ⟨⟨dev₂, ws₂⟩, h₂, k₂⟩ := bind_eq_some_iff.mp k₁
  obtain ⟨⟨dev₃, ws₃⟩, h₃, k₃⟩ := bind_eq_some_iff.mp k₂
  obtain ⟨⟨dev₄, ws₄⟩, h₄, k₄⟩ := bind_eq_some_iff.mp k₃
  obtain rfl : dev₁ = { dev with channel := channelOf pipe } := guestWrite_channel hlow h₁
  -- the size and address registers are not part of the view
  obtain ⟨-, hw₂⟩ := guestWrite_eq_some h₂
  obtain ⟨-, hw₃⟩ := guestWrite_eq_some h₃
  have hd₂ : Represents dev₂ v ∧ dev₂.channel = channelOf pipe := by
    cases hw₂
    exact ⟨hrep.congr, rfl⟩
  have hd₃ : Represents dev₃ v ∧ dev₃.channel = channelOf pipe := by
    cases hw₃
    exact ⟨hd₂.1.congr, hd₂.2⟩
  obtain ⟨v', hr, hwf, hch, heff⟩ := guestWrite_command hd₃.1 hv h₄
  obtain rfl := readStatus_spec k₄
  exact ⟨v', hr, hwf, ⟨pipe, hch.trans hd₃.2⟩, hd₃.2 ▸ heff.touches hopen hclose⟩

theorem accessWithParam_spec {r : PipeDevice σ × Option (BitVec 32)}
    (h : accessWithParam S b pipe cmd xaddr avail dev = some r) :
    ∃ v', Represents r.1 v' ∧ v'.Wf ∧ LowChannel r.1 ∧ v.Touches (channelOf pipe) v' := by
  obtain ⟨⟨dev', ws⟩, hw, rfl⟩ := map_eq_some_iff.mp h
  obtain ⟨hb, hw⟩ := guestWrite_eq_some hw
  generalize hblock : ({ b with params := _ } : BusIn ι) = b' at hw hb
  have hacc : accessParams S b' dev = some (dev', ws) := hw
  unfold accessParams at hacc
  split at hacc
  · cases hacc
    exact ⟨v, hrep, hv, hlow, .inl rfl⟩
  dsimp only at hacc
  have hch : b'.params.channel = channelOf pipe := by rw [← hblock]; rfl
  have hcmd : b'.params.cmd = cmd.toBits := by rw [← hblock]
  split at hacc
  · cases hacc
    exact ⟨v, hrep.congr, hv, ⟨pipe, hch⟩, .inl rfl⟩
  obtain ⟨⟨dev₂, ws₂⟩, hd₂, he⟩ := map_eq_some_iff.mp hacc
  cases he
  set dev₁ : PipeDevice σ := { dev with
    channel := b'.params.channel, size := b'.params.size, address := b'.params.address }
  have hrep₁ : Represents dev₁ v := hrep.congr
  obtain ⟨dev'', ws', v', hd, hr, hwf, heff, hdev⟩ :=
    pipeDeviceDoCommand_spec S b'.params.cmd hrep₁ hv hb
  obtain ⟨rfl, rfl⟩ : dev'' = dev₂ ∧ ws' = ws₂ := by
    simpa using hd.symm.trans hd₂
  rw [hcmd, Cmd.ofBits_toBits] at heff
  have hch'' : dev''.channel = channelOf pipe := by rw [hdev]; exact hch
  exact ⟨v', hr, hwf, ⟨pipe, hch''⟩, hch ▸ heff.touches hopen hclose⟩

theorem transferPage_spec (h : transferPage S b aps pipe cmd xaddr avail dev = some r) :
    ∃ v', Represents r.1 v' ∧ v'.Wf ∧ LowChannel r.1 ∧ v.Touches (channelOf pipe) v' := by
  unfold transferPage at h
  split at h
  · obtain ⟨⟨dev₁, res⟩, h₁, h⟩ := bind_eq_some_iff.mp h
    obtain ⟨v₁, hr₁, hv₁, hlow₁, ht₁⟩ := accessWithParam_spec hrep hv hlow hopen hclose h₁
    cases res with
    | some status =>
      cases h
      exact ⟨v₁, hr₁, hv₁, hlow₁, ht₁⟩
    | none =>
      obtain ⟨v₂, hr₂, hv₂, hlow₂, ht₂⟩ := registerTransfer_spec hr₁ hv₁ hlow₁ hopen hclose h
      exact ⟨v₂, hr₂, hv₂, hlow₂, ht₁.trans hv₁ ht₂⟩
  · exact registerTransfer_spec hrep hv hlow hopen hclose h

end

/-! ## Steps of a call -/

/-- The task has asked for a wake-up and has not left the wait loop. -/
def Pc.PastWakeOn : Pc → Prop
  | .unlockWait | .waitTest | .waitEvent | .checkClosed => True
  | _ => False

instance : (pc : Pc) → Decidable pc.PastWakeOn
  | .unlockWait | .waitTest | .waitEvent | .checkClosed => instDecidableTrue
  | .start | .lock | .loop | .transfer _ _ | .setBit | .wakeOn | .relock | .unlock | .pollLock
  | .pollCmd | .pollUnlock _ | .returned _ => instDecidableFalse

structure Task.Moves (task : Task) (g : QemuPipe) (task' : Task) (g' : QemuPipe) : Prop where
  active : task.Active
  pipe : task'.pipe = task.pipe
  isWrite : task'.isWrite = task.isWrite
  closedOnHost : g'.closedOnHost = g.closedOnHost
  /-- A wake bit is only set by `set_bit`. -/
  testWake : ∀ w, g'.testWake w = g.testWake w ∨
    task.pc = .setBit ∧ w = task.isWrite ∧ g'.testWake w = true
  /-- `CMD_WAKE_ON_x` comes right after `set_bit`. -/
  wakeOn : task'.pc = .wakeOn ↔ task.pc = .setBit
  past : task'.pc.PastWakeOn → task.pc.PastWakeOn ∨ task.pc = .wakeOn

/-- What a step of a call does to the device. -/
structure Task.Touches (task : Task) (v v' : View σ) : Prop where
  touches : v.Touches (channelOf task.pipe) v'
  /-- After `CMD_WAKE_ON_x` the flag is recorded, unless the channel is closed. -/
  wakeOn : task.pc = .wakeOn → (∃ a n, v.node a = some n ∧ n.channel = channelOf task.pipe) →
    ∃ a n, v'.node a = some n ∧ n.channel = channelOf task.pipe ∧
      (Wants n.wanted (wakeOnCmd task.isWrite).wakeFlag ∨ n.closed = true)

theorem Task.afterTransfer_pc (task : Task) (status : BitVec 32) :
    (task.afterTransfer status).pc ≠ .wakeOn ∧ ¬ (task.afterTransfer status).pc.PastWakeOn ∧
      (task.afterTransfer status).pipe = task.pipe ∧
      (task.afterTransfer status).isWrite = task.isWrite := by
  unfold Task.afterTransfer
  split
  · simp [Pc.PastWakeOn]
  split
  · simp [Pc.PastWakeOn]
  · split
    · simp [Pc.PastWakeOn]
    · split <;> simp [Pc.PastWakeOn]

theorem QemuPipe.testWake_setWake (g : QemuPipe) (w w' : Bool) :
    (g.setWake w).testWake w' = (g.testWake w' || w == w') := by
  cases w <;> cases w' <;> simp [QemuPipe.setWake, QemuPipe.testWake]

theorem wakeOnCmd_spec {isWrite : Bool} (hrep : Represents dev v) (hv : v.Wf)
    (hlow : LowChannel dev) (h : command S b pipe (wakeOnCmd isWrite) dev = some dev') :
    ∃ v', Represents dev' v' ∧ v'.Wf ∧ LowChannel dev' ∧ v.Touches (channelOf pipe) v' ∧
      ((∃ a n, v.node a = some n ∧ n.channel = channelOf pipe) →
        ∃ a n, v'.node a = some n ∧ n.channel = channelOf pipe ∧
          (Wants n.wanted (wakeOnCmd isWrite).wakeFlag ∨ n.closed = true)) := by
  have hopen : wakeOnCmd isWrite ≠ .cmdOpen := by cases isWrite <;> simp [wakeOnCmd]
  have hclose : wakeOnCmd isWrite ≠ .cmdClose := by cases isWrite <;> simp [wakeOnCmd]
  have hflag : (wakeOnCmd isWrite).wakeFlag ≠ 0 := by cases isWrite <;> decide
  obtain ⟨-, v', hr, hwf, hlow', heff⟩ := command_spec hrep hv hlow h
  refine ⟨v', hr, hwf, hlow', heff.touches hopen hclose, ?_⟩
  rintro ⟨a, n, hn, hch⟩
  generalize dev'.irq = irq' at heff
  generalize dev'.status = status' at heff
  cases heff with
  | noPipe hnone => exact absurd hch (hnone a n hn)
  | opened hnone => exact absurd hch (hnone a n hn)
  | @rejected b m hm hch' hcl => exact ⟨b, m, hm, hch', .inr hcl⟩
  | inUse _ _ _ hc => exact absurd (some.inj hc) hopen
  | closed _ _ hc => exact absurd (some.inj hc) hclose
  | unknown _ _ _ hc => cases hc
  | @called b m c _ _ _ hm hch' _ hc _ _ hg hw =>
    obtain rfl := some.inj hc
    obtain ⟨m', hm', hmch, -⟩ := hg.node m hm
    exact ⟨b, m', hm', hmch.trans hch', .inl (hw m' hm' hflag)⟩

/-- A step that sets no wake bit and does not enter the wait loop. -/
theorem Task.Moves.other (hactive : task.Active) (hset : task.pc ≠ .setBit)
    (hpipe : task'.pipe = task.pipe) (hwrite : task'.isWrite = task.isWrite)
    (hclosed : g'.closedOnHost = g.closedOnHost) (htest : ∀ w, g'.testWake w = g.testWake w)
    (hpc : task'.pc ≠ .wakeOn)
    (hpast : task'.pc.PastWakeOn → task.pc.PastWakeOn ∨ task.pc = .wakeOn) :
    task.Moves g task' g' where
  active := hactive
  pipe := hpipe
  isWrite := hwrite
  closedOnHost := hclosed
  testWake w := .inl (htest w)
  wakeOn := iff_of_false hpc hset
  past := hpast

theorem Task.active_of_step {r : Task × QemuPipe × PipeDevice σ}
    (h : task.step S env t aps version g dev = some r) : task.Active := by
  intro value hpc
  rw [Task.step, hpc] at h
  cases h

theorem Task.step_local (htransfer : ∀ xaddr avail, task.pc ≠ .transfer xaddr avail)
    (hwake : task.pc ≠ .wakeOn) (hpoll : task.pc ≠ .pollCmd)
    (h : task.step S env t aps version g dev = some (task', g', dev')) :
    dev' = dev ∧ task.Moves g task' g' := by
  have hactive := Task.active_of_step h
  unfold Task.step at h
  split at h
  case h_4 hpc => exact absurd hpc (htransfer _ _)
  case h_6 hpc => exact absurd hpc hwake
  case h_14 hpc => exact absurd hpc hpoll
  case h_5 hpc =>
    cases h
    refine ⟨rfl, hactive, rfl, rfl, ?_, fun w => ?_, by simp [hpc], by simp [Pc.PastWakeOn]⟩
    · cases task.isWrite <;> rfl
    rw [QemuPipe.testWake_setWake]
    by_cases hw : w = task.isWrite
    · exact .inr ⟨hpc, hw, by simp [hw]⟩
    · exact .inl (by simp [Ne.symm hw])
  -- what is left sets no bit, and reaches the wait loop from inside it only
  all_goals
    rename_i hpc
    have hset : task.pc ≠ .setBit := by simp [hpc]
    repeat' split at h
    all_goals cases h
    all_goals exact ⟨rfl, .other hactive hset rfl rfl rfl (fun _ => rfl) (by simp [Task.out])
      (by simp [hpc, Task.out, Pc.PastWakeOn])⟩

theorem Task.step_spec (hrep : Represents dev v) (hv : v.Wf) (hlow : LowChannel dev)
    (h : task.step S env t aps version g dev = some (task', g', dev')) : task.Moves g task' g' ∧
      ∃ v', Represents dev' v' ∧ v'.Wf ∧ LowChannel dev' ∧ task.Touches v v' := by
  have hactive := Task.active_of_step h
  by_cases htransfer : ∃ xaddr avail, task.pc = .transfer xaddr avail
  · obtain ⟨xaddr, avail, hpc⟩ := htransfer
    rw [Task.step, hpc] at h
    obtain ⟨⟨dev₁, status⟩, ht, he⟩ := map_eq_some_iff.mp h
    cases he
    have hcmd : bufferCmd task.isWrite ≠ .cmdOpen ∧ bufferCmd task.isWrite ≠ .cmdClose := by
      cases task.isWrite <;> simp [bufferCmd]
    obtain ⟨hpc', hpast, hpipe, hwrite⟩ := task.afterTransfer_pc status
    obtain ⟨v', hr, hwf, hl, htouch⟩ := transferPage_spec hrep hv hlow hcmd.1 hcmd.2 ht
    refine ⟨.other hactive (by simp [hpc]) hpipe hwrite rfl (fun _ => rfl) hpc' fun hp =>
      absurd hp hpast, v', hr, hwf, hl, htouch, by simp [hpc]⟩
  · by_cases hwake : task.pc = .wakeOn
    · rw [Task.step, hwake] at h
      obtain ⟨dev₁, ht, he⟩ := map_eq_some_iff.mp h
      cases he
      obtain ⟨v', hr, hwf, hl, htouch, hrec⟩ := wakeOnCmd_spec hrep hv hlow ht
      exact ⟨.other hactive (by simp [hwake]) rfl rfl rfl (fun _ => rfl) (by simp) fun _ =>
        .inr hwake, v', hr, hwf, hl, htouch, fun _ => hrec⟩
    by_cases hpoll : task.pc = .pollCmd
    · rw [Task.step, hpoll] at h
      obtain ⟨dev₁, hcmd, h'⟩ := bind_eq_some_iff.mp h
      obtain ⟨⟨dev₂, status⟩, hst, he⟩ := map_eq_some_iff.mp h'
      cases he
      cases readStatus_spec hst
      obtain ⟨-, v', hr, hwf, hl, heff⟩ := command_spec hrep hv hlow hcmd
      exact ⟨.other hactive (by simp [hpoll]) rfl rfl rfl (fun _ => rfl) (by simp)
          (by simp [Pc.PastWakeOn]),
        v', hr, hwf, hl, heff.touches (by simp) (by simp), by simp [hpoll]⟩
    · push Not at htransfer
      obtain ⟨rfl, hmoves⟩ := Task.step_local htransfer hwake hpoll h
      exact ⟨hmoves, v, hrep, hv, hlow, .inl rfl, fun hpc => absurd hpc hwake⟩

end QemuAndroid.GoldfishPipe
