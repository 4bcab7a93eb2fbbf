import QemuAndroid.GoldfishPipe.Lists

/-!
# The interrupt line of the pipe device

The device raises its interrupt line in `qemu_pipe_wake`, where a pipe goes on the
list of signaled pipes, and lowers it in the read of `PIPE_REG_CHANNEL`, where
the last one comes off.  `PIPE_CMD_CLOSE` also takes pipes off that list, but
never lowers the line: closing the only signaled pipe leaves it high with nothing
to report.

Away from that step the line is high exactly while some pipe is signaled
(`irq_iff_signaled`), and a guest that reads `PIPE_REG_CHANNEL` until it gets 0
leaves it low, provided the 0 means that the list is empty, that is, no pipe has
a channel whose low word is 0.
-/

namespace QemuAndroid.GoldfishPipe

open Lib View

variable {σ ι : Type}

/-- The event is `PIPE_CMD_CLOSE` for the only pipe on the list of signaled pipes. -/
def ClosesLastSignaled (dev : PipeDevice σ) : DevEvent ι → Prop
  | .write offset value _ =>
    Reg.ofOffset offset = some .command ∧ Cmd.ofBits (value.setWidth 32) = some .cmdClose ∧
      ∃ a ∈ dev.signaledPipes, ∃ n ∈ dev.heap.lookup a, n.channel = dev.channel ∧ n.nextWaked = none
  | _ => False

instance (dev : PipeDevice σ) : (e : DevEvent ι) → Decidable (ClosesLastSignaled dev e)
  | .write _ _ _ => inferInstanceAs (Decidable
      (_ ∧ _ ∧ ∃ a ∈ dev.signaledPipes, ∃ n ∈ dev.heap.lookup a, _))
  | .read _ => instDecidableFalse
  | .host _ _ => instDecidableFalse

/-- The event opens a pipe on a channel that `PIPE_REG_CHANNEL` reads as 0. -/
def OpensNullChannel (dev : PipeDevice σ) : DevEvent ι → Prop
  | .write offset value _ =>
    Reg.ofOffset offset = some .command ∧ Cmd.ofBits (value.setWidth 32) = some .cmdOpen ∧
      dev.channel &&& 0xffffffff#64 = 0
  | _ => False

/-- Read `PIPE_REG_CHANNEL` until it returns 0, at most so many times. -/
def drainChannel : Nat → PipeDevice σ → Option (PipeDevice σ)
  | 0, _ => none
  | f + 1, dev => (pipeDevRead 0x08 dev).bind fun (value, dev') =>
    if value = 0 then some dev' else drainChannel f dev'

/-! ## One step -/

def IrqAgrees (dev : PipeDevice σ) (v : View σ) : Prop := dev.irq = true ↔ v.signaled ≠ []

variable {dev dev' : PipeDevice σ} {v v' : View σ} {a : Addr}

theorem Represents.signaledPipes_eq_none (h : Represents dev v) :
    dev.signaledPipes = none ↔ v.signaled = [] := h.signaled.eq_none_iff

/-- Taking off a pipe that is not the only signaled one leaves the list as empty
as it was. -/
theorem erase_eq_nil_iff {ws : List Addr} (h : ws ≠ [a]) : ws.erase a = [] ↔ ws = [] := by
  rw [List.erase_eq_nil_iff]
  exact or_iff_left h

/-- When a service calls on a pipe, the line is raised with the list. -/
theorem IrqFollows.agrees (h : IrqFollows a v dev.irq v' dev'.irq) (hi : IrqAgrees dev v) :
    IrqAgrees dev' v' := by
  rcases h with ⟨hirq, hmem⟩ | ⟨hirq, hs⟩
  · exact iff_of_true hirq (List.ne_nil_of_mem hmem)
  · rw [IrqAgrees, hirq, hs]
    exact hi

/-- When the guest takes a pipe off the list, the line is lowered with the last. -/
theorem IrqAgrees.pop {dev dev' : PipeDevice σ} {v : View σ} {a : Addr} {ws : List Addr}
    (hi : IrqAgrees dev v) (hs : v.signaled = a :: ws) (n : Pipe σ)
    (hirq : dev'.irq = if ws = [] then false else dev.irq) : IrqAgrees dev' (v.pop a n) := by
  have hhigh : dev.irq = true := hi.mpr (by simp [hs])
  rw [IrqAgrees, hirq, View.pop]
  split <;> simp_all

/-- Every step but the closing of the last signaled pipe keeps the line in
agreement with the list. -/
theorem StepEffect.irqAgrees {e : DevEvent ι} (h : Represents dev v) (hi : IrqAgrees dev v)
    (heff : StepEffect v dev dev' e v') (hok : ¬ ClosesLastSignaled dev e) : IrqAgrees dev' v' := by
  cases heff with
  | quiet hirq =>
    rw [IrqAgrees, hirq]
    exact hi
  | popped hreg hs hn hirq => exact hi.pop hs _ hirq
  | host hn hg hirq => exact hirq.agrees hi
  | @command offset value b cmd _ hcmd hreg =>
    generalize hirq : dev'.irq = irq' at hcmd
    generalize dev'.status = status' at hcmd
    cases hcmd with
    | noPipe | rejected | inUse | unknown | opened =>
      rw [IrqAgrees, hirq]
      exact hi
    | called hn hch hcl hc hopen hclose hg hw hfol =>
      rw [← hirq] at hfol
      exact hfol.agrees hi
    | @closed a n hn hch hc =>
      obtain ⟨hoff, hval, hsel⟩ := hreg (.inr hc)
      have hne : v.signaled ≠ [a] := by
        intro hs
        obtain ⟨m, hm, rfl⟩ := h.lookup_of_node hn
        have hsig := h.signaled
        rw [hs] at hsig
        obtain ⟨hhead, m', hm', hend⟩ := hsig
        obtain rfl : m = m' := Option.some.inj (hm.symm.trans hm')
        exact hok ⟨hoff, hval.trans hc, a, hhead, m, hm, hch.trans hsel, IsList.nil_iff.mp hend⟩
      rw [IrqAgrees, hirq]
      exact hi.trans (not_congr (erase_eq_nil_iff hne)).symm

/-- A step opens at most the selected channel; other pipes keep theirs. -/
theorem StepEffect.channel_cases {e : DevEvent ι} (heff : StepEffect v dev dev' e v') {n' : Pipe σ}
    (hn' : v'.node a = some n') : (∃ n, v.node a = some n ∧ n.channel = n'.channel) ∨
    ∃ offset value b, e = .write offset value b ∧ Reg.ofOffset offset = some .command ∧
      Cmd.ofBits (value.setWidth 32) = some .cmdOpen ∧ n'.channel = dev.channel := by
  have hgrows : ∀ b n, v.node b = some n → v.Grows b v' →
      ∃ n, v.node a = some n ∧ n.channel = n'.channel := by
    intro b n hn hg
    by_cases e : a = b
    · subst e
      obtain ⟨m, hm, hch, -⟩ := hg.node n hn
      obtain rfl : n' = m := Option.some.inj (hn'.symm.trans hm)
      exact ⟨n, hn, hch.symm⟩
    · exact ⟨n', (hg.node_other a e).symm.trans hn', rfl⟩
  cases heff with
  | quiet => exact .inl ⟨n', hn', rfl⟩
  | @popped offset b ws n hreg hs hn =>
    left
    by_cases e : a = b
    · subst e
      obtain rfl : { n with wanted := 0 } = n' := by simpa [pop] using hn'
      exact ⟨n, hn, rfl⟩
    · exact ⟨n', by simpa [pop, e] using hn', rfl⟩
  | host hn hg => exact .inl (hgrows _ _ hn hg)
  | @command offset value b cmd _ hcmd hreg =>
    generalize dev'.irq = irq' at hcmd
    generalize dev'.status = status' at hcmd
    cases hcmd with
    | noPipe | rejected | inUse | unknown => exact .inl ⟨n', hn', rfl⟩
    | called hn hch hcl hc hopen hclose hg => exact .inl (hgrows _ _ hn hg)
    | @closed c m hm =>
      left
      by_cases e : a = c
      · simp [remove, e] at hn'
      · exact ⟨n', by simpa [remove, e] using hn', rfl⟩
    | opened hnone hc =>
      obtain ⟨hoff, hval, hsel⟩ := hreg (.inl hc)
      by_cases e : a = b.fresh
      · obtain rfl : pipeNew dev'.channel = n' := by simpa [openPipe, e] using hn'
        exact .inr ⟨offset, value, b, rfl, hoff, hval.trans hc, hsel⟩
      · exact .inl ⟨n', by simpa [openPipe, e] using hn', rfl⟩

/-! ## Whole runs -/

/-- The line is high exactly while some pipe is signaled, in every run that never
closes the last signaled pipe. -/
theorem irqAgrees_of_reach (S : Services σ ι)
    (h : (deviceMachine S).Reach (fun dev e => ¬ ClosesLastSignaled dev e) dev) :
    ∃ v, Represents dev v ∧ v.Wf ∧ IrqAgrees dev v := by
  refine h.invariant ?_ ?_
  · rintro _ rfl
    exact ⟨_, represents_reset, wf_empty, by simp [IrqAgrees, PipeDevice.reset]⟩
  · rintro s e s' - ⟨v, hr, hv, hi⟩ hok hs
    obtain ⟨v', hr', hv', heff⟩ := step_effect S hr hv hs
    exact ⟨v', hr', hv', heff.irqAgrees hr hi hok⟩

/-- No pipe has a channel that reads as 0, in every run that opens none. -/
theorem channel_ne_zero_of_reach (S : Services σ ι)
    (h : (deviceMachine S).Reach (fun dev e => ¬ OpensNullChannel dev e) dev) :
    ∀ a n, dev.heap.lookup a = some n → n.channel &&& 0xffffffff#64 ≠ 0 := by
  refine h.invariant ?_ ?_
  · rintro _ rfl a n hn
    cases hn
  intro s e s' hreach ih hok hs a n' hn'
  obtain ⟨v, hr, hv⟩ := represents_of_reach S hreach
  obtain ⟨v', hr', hv', heff⟩ := step_effect S hr hv hs
  rcases heff.channel_cases (hr'.node_of_lookup hn') with ⟨n, hn, hch⟩ | ⟨o, w, b, rfl, ho, hw, hch⟩
  · obtain ⟨m, hm, rfl⟩ := hr.lookup_of_node hn
    rw [show n'.channel = m.channel from hch.symm]
    exact ih a m hm
  · intro hzero
    exact hok ⟨ho, hw, by rw [← hch]; exact hzero⟩

/-- Reading the channel register until it returns 0 empties the list and lowers
the line. -/
theorem drainChannel_spec (h : Represents dev v) (hv : v.Wf) (hi : IrqAgrees dev v)
    (hch : ∀ a n, v.node a = some n → n.channel &&& 0xffffffff#64 ≠ 0) {f : Nat}
    (hf : v.signaled.length < f) :
    ∃ dev', drainChannel f dev = some dev' ∧ dev'.signaledPipes = none ∧ dev'.irq = false := by
  induction f generalizing dev v with
  | zero => cases hf
  | succ f ih =>
    have hreg : Reg.ofOffset 0x08 = some .channel := rfl
    rcases pipeDevRead_channel_spec h hv hreg with
      ⟨hs, hread⟩ | ⟨a, ws, n, dev', hs, hn, hread, hr', hdev⟩
    · refine ⟨dev, by rw [drainChannel, hread]; rfl, h.signaledPipes_eq_none.mpr hs, ?_⟩
      have hlow : ¬ dev.irq = true := fun hhigh => hi.mp hhigh hs
      simpa using hlow
    have hirq : IrqAgrees dev' (v.pop a n) := hi.pop hs n (by rw [hdev])
    have hch' : ∀ b m, (v.pop a n).node b = some m → m.channel &&& 0xffffffff#64 ≠ 0 := by
      intro b m hm
      by_cases e : b = a
      · obtain rfl : { n with wanted := 0 } = m := by simpa [pop, e] using hm
        exact hch a n hn
      · exact hch b m (by simpa [pop, e] using hm)
    have hlen : (v.pop a n).signaled.length < f := by
      simpa [pop, hs] using hf
    obtain ⟨dev'', hdrain, hres⟩ := ih hr' (hv.pop hn) hirq hch' hlen
    refine ⟨dev'', ?_, hres⟩
    rw [drainChannel, hread]
    exact (if_neg (hch a n hn)).trans hdrain

/-- The interrupt line and the list of signaled pipes.  In every run that never
issues `PIPE_CMD_CLOSE` for the only signaled pipe, the line is high in every
state exactly when the list of signaled pipes is not empty; and if no channel
with a low word of 0 was opened either, reading `PIPE_REG_CHANNEL` until it
returns 0 ends after at most one read more than there are pipes, with an empty
list and the line low.  The condition is exact: the excluded step leaves the line
high with an empty list. -/
theorem irq_iff_signaled (S : Services σ ι) (dev : PipeDevice σ)
    (h : (deviceMachine S).Reach (fun dev e => ¬ ClosesLastSignaled dev e) dev) :
    (dev.irq = true ↔ dev.signaledPipes ≠ none) ∧
    ((deviceMachine S).Reach (fun dev e => ¬ OpensNullChannel dev e) dev →
      ∃ dev', drainChannel dev.heap.fuel dev = some dev' ∧ dev'.signaledPipes = none ∧
        dev'.irq = false) ∧ ∀ e dev', ClosesLastSignaled dev e → dev.step S e = some dev' →
      dev'.irq = true ∧ dev'.signaledPipes = none := by
  obtain ⟨v, hr, hv, hi⟩ := irqAgrees_of_reach S h
  refine ⟨?_, fun hnull => ?_, ?_⟩
  · rw [ne_eq, hr.signaledPipes_eq_none]
    exact hi
  · refine drainChannel_spec hr hv hi (fun a n hn => ?_) (hr.signaled.length_le hv.signaled_nodup)
    obtain ⟨m, hm, rfl⟩ := hr.lookup_of_node hn
    exact channel_ne_zero_of_reach S hnull a m hm
  rintro (offset | ⟨offset, value, b⟩ | ⟨a, call⟩) dev' hlast hs
  · cases hlast
  · obtain ⟨hreg, hcmd, a, hhead, n, hn, hch, hend⟩ := hlast
    have hone : v.signaled = [a] := hr.signaled.unique ⟨hhead, n, hn, hend⟩
    obtain ⟨hr', hirq⟩ := step_close S hr hv hs hreg hcmd (hr.node_of_lookup hn) hch
    refine ⟨hirq.trans (hi.mpr (by simp [hone])), hr'.signaledPipes_eq_none.mpr ?_⟩
    simp [remove, hone]
  · cases hlast

/-- A pipe is opened, woken, and closed before the guest has drained the list. -/
def closeWhileSignaled : List (DevEvent Unit) :=
  [plainWrite 0x08 1 0, plainWrite 0x00 1 0, .host 0 (.wake 2), plainWrite 0x00 2 1]

/-- The line stays high with nothing signaled, and draining does not lower it. -/
theorem irq_high_with_nothing_signaled :
    ∃ dev, (deviceMachine noServices).Reachable dev ∧ dev.irq = true ∧ dev.signaledPipes = none ∧
      (drainChannel dev.heap.fuel dev).map (·.irq) = some true := by
  exact Machine.Reachable.exists_of_eval (.init rfl) closeWhileSignaled (by decide)

/-- Two pipes are signaled and one of them is closed. -/
def closeOneOfTwo : List (DevEvent Unit) :=
  twoPipes ++ [.host 1 (.wake 4), plainWrite 0x00 2 2]

/-- The line stays high for the pipe that is left. -/
theorem irq_iff_signaled_closeOneOfTwo :
    ∃ dev, (deviceMachine noServices).run PipeDevice.reset closeOneOfTwo = some dev ∧
      dev.signaledPipes = some 0 ∧ dev.irq = true := by
  have hok : (deviceMachine noServices).Meets (fun dev e => ¬ ClosesLastSignaled dev e)
      PipeDevice.reset closeOneOfTwo := by decide
  obtain ⟨dev, hdev, hreach, hsig⟩ := Machine.Reach.exists_of_run (.init rfl) hok
    (P := (·.signaledPipes = some 0)) (by decide)
  exact ⟨dev, hdev, hsig, (irq_iff_signaled noServices dev hreach).1.mpr (by simp [hsig])⟩

end QemuAndroid.GoldfishPipe
