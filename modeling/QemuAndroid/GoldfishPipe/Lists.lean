import QemuAndroid.GoldfishPipe.Command

/-!
# The lists of the pipe device along a run

Every register access and every call of a service, on a device that represents a
well-formed view, returns a device that represents a well-formed view again
(`step_spec`), and `StepEffect` lists what happened to the view.  By induction
every device reached from reset represents a well-formed view
(`represents_of_reach`), which is the list invariant of the C code: the chains
are finite and free of duplicates, channels are unique, a signaled pipe is open,
and a pipe that is not signaled has a null `next_waked`.
-/

namespace QemuAndroid.GoldfishPipe

open Lib PipeDevice

variable {σ ι : Type}

/-- An event that can happen: the allocator hands out a block that is not in use,
and a service only calls on its own, open pipe. -/
def DevEvent.Enabled (dev : PipeDevice σ) : DevEvent ι → Prop
  | .read _ => True
  | .write _ _ b => b.fresh ∉ dev.heap
  | .host pipe _ => pipe ∈ dev.heap

inductive StepEffect (v : View σ) (dev dev' : PipeDevice σ) : DevEvent ι → View σ → Prop
  | quiet {e : DevEvent ι} (hi : dev'.irq = dev.irq) : StepEffect v dev dev' e v
  | command {offset value : BitVec 64} {b : BusIn ι} {cmd : Option Cmd} {v' : View σ}
      (hcmd : CommandEffect v dev'.channel b.fresh dev.irq dev.status cmd v' dev'.irq dev'.status)
      (hreg : cmd = some .cmdOpen ∨ cmd = some .cmdClose →
        Reg.ofOffset offset = some .command ∧ Cmd.ofBits (value.setWidth 32) = cmd ∧
          dev'.channel = dev.channel) :
      StepEffect v dev dev' (.write offset value b) v'
  | popped {offset : BitVec 64} {a : Addr} {ws : List Addr} {n : Pipe σ}
      (hreg : Reg.ofOffset offset = some .channel) (hs : v.signaled = a :: ws)
      (hn : v.node a = some n) (hi : dev'.irq = if ws = [] then false else dev.irq) :
      StepEffect v dev dev' (.read offset) (v.pop a n)
  | host {a : Addr} {call : HostCall} {n : Pipe σ} {v' : View σ} (hn : v.node a = some n)
      (hg : v.Grows a v') (hi : IrqFollows a v dev.irq v' dev'.irq) :
      StepEffect v dev dev' (.host a call) v'

/-! ## Register accesses -/

variable {dev dev' : PipeDevice σ} {v : View σ} {b : BusIn ι} {e : DevEvent ι}

theorem pipeDevRead_spec (h : Represents dev v) (hv : v.Wf) (offset : BitVec 64) :
    ∃ value dev' v', pipeDevRead offset dev = some (value, dev') ∧ Represents dev' v' ∧ v'.Wf ∧
      StepEffect (ι := ι) v dev dev' (.read offset) v' := by
  by_cases hreg : Reg.ofOffset offset = some .channel
  · rcases pipeDevRead_channel_spec h hv hreg with ⟨hs, hr⟩ | ⟨a, ws, n, dev', hs, hn, hr, hrep, he⟩
    · exact ⟨0, dev, v, hr, h, hv, .quiet rfl⟩
    · exact ⟨_, dev', _, hr, hrep, hv.pop hn, .popped hreg hs hn (by rw [he])⟩
  have hsame : ∃ value, pipeDevRead offset dev = some (value, dev) := by
    unfold pipeDevRead
    split
    · exact ⟨_, rfl⟩
    · next hch => exact absurd hch hreg
    · split
      · exact ⟨_, rfl⟩
      · next a ha =>
        have hmem : a ∈ dev.heap := by
          have hsig := h.signaled
          rcases hs : v.signaled with _ | ⟨b, ws⟩
          · rw [hs, ha] at hsig
            cases hsig
          · rw [hs] at hsig
            obtain rfl : b = a := Option.some.inj (hsig.1.symm.trans ha)
            exact hsig.mem_heap List.mem_cons_self
        obtain ⟨n, hn⟩ := Heap.exists_lookup hmem
        exact ⟨_, by rw [hn]; rfl⟩
    all_goals exact ⟨_, rfl⟩
  obtain ⟨value, hr⟩ := hsame
  exact ⟨value, dev, v, hr, h, hv, .quiet rfl⟩

theorem accessParams_spec (S : Services σ ι) (h : Represents dev v) (hv : v.Wf)
    (hb : b.fresh ∉ dev.heap) (offset value : BitVec 64) :
    ∃ dev' ws v', accessParams S b dev = some (dev', ws) ∧ Represents dev' v' ∧ v'.Wf ∧
      StepEffect v dev dev' (.write offset value b) v' := by
  unfold accessParams
  split
  · exact ⟨dev, [], v, rfl, h, hv, .quiet rfl⟩
  dsimp only
  split
  · exact ⟨_, _, v, rfl, h.congr, hv, .quiet rfl⟩
  · next hcmd =>
    set dev₁ : PipeDevice σ := { dev with
      channel := b.params.channel, size := b.params.size, address := b.params.address }
    have h₁ : Represents dev₁ v := h.congr
    obtain ⟨dev', ws, v', hd, hr, hw, heff, he⟩ :=
      pipeDeviceDoCommand_spec S b.params.cmd h₁ hv hb
    have hch : dev'.channel = dev₁.channel := by rw [he]
    refine ⟨dev', _, v', by rw [hd]; rfl, hr, hw, .command (hch.symm ▸ heff) ?_⟩
    -- a batched access is a read or a write
    rintro (hc | hc) <;> simp [hc] at hcmd

theorem pipeDevWrite_spec (S : Services σ ι) (h : Represents dev v) (hv : v.Wf)
    (hb : b.fresh ∉ dev.heap) (offset value : BitVec 64) :
    ∃ dev' ws v', pipeDevWrite S b offset value dev = some (dev', ws) ∧ Represents dev' v' ∧
      v'.Wf ∧ StepEffect v dev dev' (.write offset value b) v' := by
  unfold pipeDevWrite
  split
  · next hreg =>
    obtain ⟨dev', ws, v', hd, hr, hw, heff, he⟩ :=
      pipeDeviceDoCommand_spec S (value.setWidth 32) h hv hb
    have hch : dev'.channel = dev.channel := by rw [he]
    exact ⟨dev', ws, v', hd, hr, hw, .command (hch.symm ▸ heff) fun _ => ⟨hreg, rfl, hch⟩⟩
  case h_9 => exact accessParams_spec S h hv hb offset value
  all_goals exact ⟨_, _, v, rfl, h.congr, hv, .quiet rfl⟩

/-! ## Runs -/

section

variable (S : Services σ ι)

/-- Every enabled event has a successor, and keeps the representation. -/
theorem step_spec (h : Represents dev v) (hv : v.Wf) (he : e.Enabled dev) :
    ∃ dev' v', dev.step S e = some dev' ∧ Represents dev' v' ∧ v'.Wf ∧
    StepEffect v dev dev' e v' := by
  cases e with
  | read offset =>
    obtain ⟨value, dev', v', hd, hr, hw, heff⟩ := pipeDevRead_spec h hv offset
    exact ⟨dev', v', by simp [step, hd], hr, hw, heff⟩
  | write offset value b =>
    obtain ⟨dev', ws, v', hd, hr, hw, heff⟩ := pipeDevWrite_spec S h hv he offset value
    exact ⟨dev', v', by simp [step, guestWrite, hd, show b.fresh ∉ dev.heap from he], hr, hw, heff⟩
  | host a call =>
    obtain ⟨m, hm⟩ := Heap.exists_lookup (show a ∈ dev.heap from he)
    have hn := h.node_of_lookup hm
    obtain ⟨dev', v', hd, hr, hw, hg, -, hi, -⟩ := hostCall_spec h hv hn call
    exact ⟨dev', v', hd, hr, hw, .host hn hg hi⟩

theorem enabled_of_step (h : dev.step S e = some dev') : e.Enabled dev := by
  cases e with
  | read offset => trivial
  | write offset value b =>
    intro hb
    simp [step, guestWrite, hb] at h
  | host a call =>
    by_contra ha
    have hnone : dev.heap.lookup a = none := AList.lookup_eq_none.mpr ha
    cases call with
    | wake flags => simp [step, HostCall.apply, qemuPipeWake, hnone] at h
    | close => simp [step, HostCall.apply, qemuPipeClose, hnone] at h

theorem step_effect (h : Represents dev v) (hv : v.Wf) (hs : dev.step S e = some dev') :
    ∃ v', Represents dev' v' ∧ v'.Wf ∧ StepEffect v dev dev' e v' := by
  obtain ⟨dev'', v', hd, hr, hw, heff⟩ := step_spec S h hv (enabled_of_step S hs)
  obtain rfl : dev'' = dev' := Option.some.inj (hd.symm.trans hs)
  exact ⟨v', hr, hw, heff⟩

/-- Every device reached from reset represents a well-formed view. -/
theorem represents_of_reach {ok : PipeDevice σ → DevEvent ι → Prop}
    (h : (deviceMachine S).Reach ok dev) : ∃ v, Represents dev v ∧ v.Wf := by
  refine h.invariant ?_ ?_
  · rintro _ rfl
    exact ⟨_, represents_reset, View.wf_empty⟩
  · rintro s e s' - ⟨v, hr, hv⟩ - hs
    obtain ⟨v', hr', hv', -⟩ := step_effect S hr hv hs
    exact ⟨v', hr', hv'⟩

end

/-! ## The list invariant -/

structure ListInvariant (dev : PipeDevice σ) (ps ws : List Addr) : Prop where
  pipes : IsList nextLink dev.heap dev.pipes ps
  pipes_nodup : ps.Nodup
  mem_heap : ∀ a, a ∈ dev.heap ↔ a ∈ ps
  channel_inj : ∀ a b m n, dev.heap.lookup a = some m → dev.heap.lookup b = some n →
    m.channel = n.channel → a = b
  signaled : IsList nextWakedLink dev.heap dev.signaledPipes ws
  signaled_nodup : ws.Nodup
  signaled_sub : ∀ a ∈ ws, a ∈ ps
  off_list : ∀ a n, dev.heap.lookup a = some n → a ∉ ws → n.nextWaked = none

theorem Represents.listInvariant (h : Represents dev v) (hv : v.Wf) :
    ListInvariant dev v.pipes v.signaled where
  pipes := h.pipes
  pipes_nodup := hv.pipes_nodup
  mem_heap _ := h.mem_heap hv
  channel_inj a b m n hm hn :=
    hv.channel_inj a b m.unlinked n.unlinked (h.node_of_lookup hm) (h.node_of_lookup hn)
  signaled := h.signaled
  signaled_nodup := hv.signaled_nodup
  signaled_sub := hv.signaled_sub
  off_list := h.off_list

/-- A command leaves the pipes of other channels alone. -/
theorem CommandEffect.frame {v' : View σ} {ch : BitVec 64} {fresh : Addr} {irq irq' : Bool}
    {status status' : BitVec 32} {cmd : Option Cmd}
    (h : CommandEffect v ch fresh irq status cmd v' irq' status') (hv : v.Wf)
    (hfresh : fresh ∉ v.pipes) {a : Addr} {n : Pipe σ} (hn : v.node a = some n)
    (hne : n.channel ≠ ch) :
    v'.node a = some n ∧ (a ∈ v'.pipes ↔ a ∈ v.pipes) ∧ (a ∈ v'.signaled ↔ a ∈ v.signaled) := by
  have hother : ∀ b m, v.node b = some m → m.channel = ch → a ≠ b := by
    rintro b m hm hch rfl
    obtain rfl : n = m := Option.some.inj (hn.symm.trans hm)
    exact hne hch
  cases h with
  | noPipe | rejected | inUse | unknown => exact ⟨hn, Iff.rfl, Iff.rfl⟩
  | opened =>
    have hab : a ≠ fresh := fun e => hfresh (e ▸ hv.mem_pipes hn)
    exact ⟨by simpa [View.openPipe, hab] using hn, by simp [View.openPipe, hab], Iff.rfl⟩
  | closed hm hch =>
    have hab := hother _ _ hm hch
    refine ⟨by simpa [View.remove, hab] using hn, ?_, ?_⟩
    · simp [View.remove, hv.pipes_nodup.mem_erase_iff, hab]
    · simp [View.remove, hv.signaled_nodup.mem_erase_iff, hab]
  | called hm hch _ _ _ _ hg =>
    have hab := hother _ _ hm hch
    refine ⟨(hg.node_other a hab).trans hn, by rw [hg.pipes], ?_⟩
    rw [hg.mem_signaled a]
    simp [hab]

/-- `PIPE_CMD_CLOSE` takes the pipe of the selected channel off both lists. -/
theorem step_close (S : Services σ ι) (h : Represents dev v) (hv : v.Wf) {offset value : BitVec 64}
    (hs : dev.step S (.write offset value b) = some dev')
    (hreg : Reg.ofOffset offset = some .command)
    (hcmd : Cmd.ofBits (value.setWidth 32) = some .cmdClose) {a : Addr} {n : Pipe σ}
    (hn : v.node a = some n) (hch : n.channel = dev.channel) :
    Represents dev' (v.remove a) ∧ dev'.irq = dev.irq := by
  have hb : b.fresh ∉ dev.heap := enabled_of_step S hs
  obtain ⟨dev'', ws, v', hd, hr', -, heff, -⟩ :=
    pipeDeviceDoCommand_spec S (value.setWidth 32) h hv hb
  obtain rfl : dev'' = dev' := by
    simpa [step, guestWrite, hb, pipeDevWrite, hreg, hd] using hs
  rw [hcmd] at heff
  generalize dev''.irq = irq' at heff ⊢
  generalize dev''.status = status' at heff
  cases heff with
  | noPipe hnone => exact absurd hch (hnone a n hn)
  | rejected _ _ _ hc => exact absurd rfl hc
  | closed hm hch' =>
    obtain rfl := hv.channel_inj _ _ _ _ hn hm (hch.trans hch'.symm)
    exact ⟨hr', rfl⟩
  | opened _ hc | inUse _ _ _ hc | unknown _ _ _ hc => cases hc
  | called _ _ _ hc _ hclose => exact absurd (Option.some.inj hc).symm hclose

/-- The list invariant of the pipe device.  In every state reached from reset, by
any register accesses and any calls of the services,

* both chains are finite and free of duplicates, the open pipes are exactly those
  on the first, no two of them share a channel, the signaled pipes are open, and a
  pipe that is not signaled has a null `next_waked`;
* a pipe that `PIPE_CMD_CLOSE` is issued for is on neither chain afterwards;
* a register write, whatever command it starts, leaves every pipe of a channel
  other than the selected one as it was, links aside, and on the same lists;
* no event gets stuck on a dangling pointer or an endless chain. -/
theorem device_lists (S : Services σ ι) {dev : PipeDevice σ} (h : (deviceMachine S).Reachable dev) :
    (∃ ps ws, ListInvariant dev ps ws) ∧
    (∀ offset value b dev' a n, dev.step S (.write offset value b) = some dev' →
      Reg.ofOffset offset = some .command → Cmd.ofBits (value.setWidth 32) = some .cmdClose →
      dev.heap.lookup a = some n → n.channel = dev.channel →
      ¬ OnList nextLink dev'.heap dev'.pipes a ∧
        ¬ OnList nextWakedLink dev'.heap dev'.signaledPipes a ∧ a ∉ dev'.heap) ∧
    (∀ offset value b dev' a n, dev.step S (.write offset value b) = some dev' →
      dev.heap.lookup a = some n → n.channel ≠ dev'.channel →
      (∃ n', dev'.heap.lookup a = some n' ∧ n'.unlinked = n.unlinked) ∧
        (OnList nextLink dev'.heap dev'.pipes a ↔ OnList nextLink dev.heap dev.pipes a) ∧
        (OnList nextWakedLink dev'.heap dev'.signaledPipes a ↔
          OnList nextWakedLink dev.heap dev.signaledPipes a)) ∧
    ∀ e : DevEvent ι, e.Enabled dev → ∃ dev', dev.step S e = some dev' := by
  obtain ⟨v, hr, hv⟩ := represents_of_reach S h
  refine ⟨⟨_, _, hr.listInvariant hv⟩, ?_, ?_, ?_⟩
  · intro offset value b dev' a n hs hreg hcmd hn hch
    obtain ⟨hr', -⟩ := step_close S hr hv hs hreg hcmd (hr.node_of_lookup hn) hch
    rw [hr'.pipes.onList_iff, hr'.signaled.onList_iff, hr'.mem_heap (hv.remove a)]
    simp [View.remove, hv.pipes_nodup.mem_erase_iff, hv.signaled_nodup.mem_erase_iff]
  · intro offset value b dev' a n hs hn hne
    have hnv := hr.node_of_lookup hn
    have hfresh : b.fresh ∉ v.pipes := fun hmem =>
      enabled_of_step S hs ((hr.mem_heap hv).mpr hmem)
    obtain ⟨v', hr', hv', heff⟩ := step_effect S hr hv hs
    have hframe : v'.node a = some n.unlinked ∧ (a ∈ v'.pipes ↔ a ∈ v.pipes) ∧
        (a ∈ v'.signaled ↔ a ∈ v.signaled) := by
      cases heff with
      | quiet => exact ⟨hnv, Iff.rfl, Iff.rfl⟩
      | command hcmd => exact hcmd.frame hv hfresh hnv hne
    rw [hr'.pipes.onList_iff, hr.pipes.onList_iff, hr'.signaled.onList_iff, hr.signaled.onList_iff]
    exact ⟨hr'.lookup_of_node hframe.1, hframe.2⟩
  · intro e he
    obtain ⟨dev', -, hd, -⟩ := step_spec S hr hv he
    exact ⟨dev', hd⟩

/-- A register write that finds nothing in guest memory. -/
def plainWrite (offset value : BitVec 64) (fresh : Addr) : DevEvent Unit :=
  .write offset value
    { params := ⟨0, 0, 0, 0, 0, 0⟩, ram := fun _ _ => [], ext := (), fresh := fresh }

/-- Two pipes are opened, and the first is woken. -/
def twoPipes : List (DevEvent Unit) :=
  [plainWrite 0x08 1 0, plainWrite 0x00 1 0, plainWrite 0x08 2 1, plainWrite 0x00 1 1,
    .host 0 (.wake 2)]

theorem device_lists_twoPipes :
    ∃ dev, (deviceMachine noServices).run reset twoPipes = some dev ∧
      dev.signaledPipes = some 0 ∧ ∃ ps ws, ListInvariant dev ps ws := by
  obtain ⟨dev, hdev, hreach, hsig⟩ :=
    Machine.Reachable.exists_of_run (M := deviceMachine noServices) (.init rfl)
      twoPipes (P := (·.signaledPipes = some 0)) (by decide)
  exact ⟨dev, hdev, hsig, (device_lists noServices hreach).1⟩

end QemuAndroid.GoldfishPipe
