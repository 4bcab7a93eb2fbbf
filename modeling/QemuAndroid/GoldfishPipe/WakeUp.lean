import QemuAndroid.GoldfishPipe.DriverInv

/-!
# Wake-ups of the guest driver

A task that waits for a pipe sleeps until the interrupt handler clears its wake
bit.  So whenever the bit is set, something has to be under way that will clear
it: the flag is recorded in the device, or a close is on the list of signaled
pipes (`View.Recorded`), or a task is about to issue `CMD_WAKE_ON_x`.

This is not so in every run.  A close by the host between the status
`PIPE_ERROR_AGAIN` and `set_bit` is reported and consumed while no bit is set;
`set_bit` then sets the bit of a pipe that is closed already, `CMD_WAKE_ON_x` is
refused with a status that nobody reads, and the task sleeps for good
(`sleeps_after_close`).  Runs without such a step (`SetsBitAfterClose`) lose no
wake-up (`no_lost_wakeup`).  In them a sleeping task may still find its bit set
again by another task that has not reached its own `CMD_WAKE_ON_x` yet; where
that does not happen either (`SetsBitUnderWaiter`), every sleeping task has its
wake-up recorded in the device at all times.
-/

namespace QemuAndroid.GoldfishPipe

open Lib Function Option

variable {σ ι : Type}

/-! ## Who waits for what -/

variable (s : Driver σ)

/-- A task is inside `wait_event_interruptible` for a wake bit of a pipe. -/
def Driver.Waiting (t : Nat) (pipe : BitVec 32) (isWrite : Bool) : Prop :=
  ∃ task, s.tasks.lookup t = some task ∧ task.pc = .waitEvent ∧ task.pipe = pipe ∧
    task.isWrite = isWrite

/-- A task has set a wake bit and is about to issue `CMD_WAKE_ON_x`. -/
def Driver.AtWakeOn (t : Nat) (pipe : BitVec 32) (isWrite : Bool) : Prop :=
  ∃ task, s.tasks.lookup t = some task ∧ task.pc = .wakeOn ∧ task.pipe = pipe ∧
    task.isWrite = isWrite

/-- A task has issued `CMD_WAKE_ON_x` and has not left the wait loop. -/
def Driver.InWaitLoop (t : Nat) (pipe : BitVec 32) (isWrite : Bool) : Prop :=
  ∃ task, s.tasks.lookup t = some task ∧ task.pc.PastWakeOn ∧ task.pipe = pipe ∧
    task.isWrite = isWrite

def Driver.BitSet (pipe : BitVec 32) (isWrite : Bool) : Prop :=
  ∃ g, s.objs pipe = some g ∧ g.testWake isWrite = true

/-- `PIPE_WAKE_CLOSED` has been consumed for a pipe. -/
def Driver.ClosedOnHost (pipe : BitVec 32) : Prop :=
  ∃ g, s.objs pipe = some g ∧ g.closedOnHost = true

def wakeFlagOf (isWrite : Bool) : BitVec 8 := if isWrite then pipeWakeWrite else pipeWakeRead

theorem wakeFlagOf_eq (isWrite : Bool) : (wakeOnCmd isWrite).wakeFlag = wakeFlagOf isWrite := by
  cases isWrite <;> rfl

/-- The device has an open channel for the pipe, and it has the flag recorded as
wanted, or has the channel on the list of signaled pipes with flags that clear
the bit. -/
def PipeDevice.WakePending (dev : PipeDevice σ) (pipe : BitVec 32) (isWrite : Bool) : Prop :=
  ∃ a n, dev.heap.lookup a = some n ∧ n.channel = channelOf pipe ∧
    (Wants n.wanted (wakeFlagOf isWrite) ∨ OnList nextWakedLink dev.heap dev.signaledPipes a ∧
        (Wants n.wanted (wakeFlagOf isWrite) ∨ Wants n.wanted pipeWakeClosed))

/-- The step sets a wake bit of a pipe whose close has been consumed. -/
def SetsBitAfterClose : DriverEvent ι → Prop
  | .run t _ => ∃ task ∈ s.tasks.lookup t, task.pc = .setBit ∧
      ∃ g ∈ s.objs task.pipe, g.closedOnHost = true
  | _ => False

/-- The step sets a wake bit that is clear while another task is in the wait loop
for it. -/
def SetsBitUnderWaiter : DriverEvent ι → Prop
  | .run t _ => ∃ task ∈ s.tasks.lookup t, task.pc = .setBit ∧
      (∃ g ∈ s.objs task.pipe, g.testWake task.isWrite = false) ∧
      ∃ t' ∈ s.tasks.keys, ∃ task' ∈ s.tasks.lookup t', task'.pc.PastWakeOn ∧
        task'.pipe = task.pipe ∧ task'.isWrite = task.isWrite
  | _ => False

instance (s : Driver σ) : (e : DriverEvent ι) → Decidable (SetsBitAfterClose s e)
  | .run t _ =>
    inferInstanceAs (Decidable (∃ task ∈ s.tasks.lookup t, _ ∧ ∃ g ∈ s.objs task.pipe, _))
  | .openFile .. | .release .. | .readWrite .. | .poll .. | .interrupt | .host .. =>
    instDecidableFalse

instance (s : Driver σ) : (e : DriverEvent ι) → Decidable (SetsBitUnderWaiter s e)
  | .run t _ => inferInstanceAs (Decidable (∃ task ∈ s.tasks.lookup t, _ ∧
      (∃ g ∈ s.objs task.pipe, _) ∧ ∃ t' ∈ s.tasks.keys, ∃ task' ∈ s.tasks.lookup t', _))
  | .openFile .. | .release .. | .readWrite .. | .poll .. | .interrupt | .host .. =>
    instDecidableFalse

/-! ## Recorded wake-ups -/

/-- The wake-up for a bit of the pipe is recorded in the view. -/
def View.Recorded (v : View σ) (pipe : BitVec 32) (isWrite : Bool) : Prop :=
  ∃ a n, v.node a = some n ∧ n.channel = channelOf pipe ∧
    (Wants n.wanted (wakeFlagOf isWrite) ∨ a ∈ v.signaled ∧ Wants n.wanted pipeWakeClosed)

variable {v v' : View σ} {p : BitVec 32} {w : Bool} {a : Addr} {s s' : Driver σ} {who : Option Nat}
  {t : Nat}

theorem View.Recorded.wakePending {dev : PipeDevice σ} (hrep : Represents dev v)
    (h : v.Recorded p w) : dev.WakePending p w := by
  obtain ⟨a, n, hn, hch, hw⟩ := h
  obtain ⟨m, hm, rfl⟩ := hrep.lookup_of_node hn
  refine ⟨a, m, hm, hch, hw.imp_right fun ⟨hmem, hc⟩ => ⟨?_, .inr hc⟩⟩
  exact hrep.signaled.onList_iff.mpr hmem

section

variable (h : v.Recorded p w)
include h

theorem View.Recorded.of_allGrow (hg : v.AllGrow v') : v'.Recorded p w := by
  obtain ⟨a, n, hn, hch, hw⟩ := h
  obtain ⟨n', hn', hgr⟩ := hg.old a n hn
  refine ⟨a, n', hn', hgr.channel.trans hch, ?_⟩
  exact hw.imp (hgr.wanted _) fun ⟨hmem, hc⟩ => ⟨hgr.signaled hmem, hgr.wanted _ hc⟩

theorem View.Recorded.of_pop {q : BitVec 32} {ws : List Addr} {n : Pipe σ}
    (hs : v.signaled = a :: ws) (hn : v.node a = some n) (hch : n.channel = channelOf q)
    (hne : p ≠ q) : (v.pop a n).Recorded p w := by
  obtain ⟨b, m, hm, hmch, hw⟩ := h
  have hba : b ≠ a := by
    rintro rfl
    obtain rfl : m = n := some.inj (hm.symm.trans hn)
    exact hne (channelOf_inj (hmch.symm.trans hch))
  refine ⟨b, m, by rw [View.node_pop, if_neg hba, hm], hmch, ?_⟩
  exact hw.imp_right fun ⟨hmem, hc⟩ => ⟨View.mem_pop hs n hmem hba, hc⟩

theorem View.Recorded.of_openPipe {ch : BitVec 64} (hv : v.Wf) (ha : a ∉ v.pipes) :
    (v.openPipe a ch).Recorded p w := by
  obtain ⟨b, m, hm, hmch, hw⟩ := h
  have hba : b ≠ a := fun e => ha (e ▸ hv.mem_pipes hm)
  exact ⟨b, m, by rw [View.node_openPipe, if_neg hba, hm], hmch, hw⟩

theorem View.Recorded.of_remove {q : BitVec 32} {n : Pipe σ} (hv : v.Wf) (hn : v.node a = some n)
    (hch : n.channel = channelOf q) (hne : p ≠ q) : (v.remove a).Recorded p w := by
  obtain ⟨b, m, hm, hmch, hw⟩ := h
  have hba : b ≠ a := by
    rintro rfl
    obtain rfl : m = n := some.inj (hm.symm.trans hn)
    exact hne (channelOf_inj (hmch.symm.trans hch))
  refine ⟨b, m, by rw [View.node_remove, if_neg hba, hm], hmch, ?_⟩
  exact hw.imp_right fun ⟨hmem, hc⟩ => ⟨hv.signaled_nodup.mem_erase_iff.mpr ⟨hba, hmem⟩, hc⟩

end

/-! ## How the driver's data change -/

section

variable (h : DriverEffect s v who s' v')
include h

/-- Where an object of the driver comes from: it is new, the handler has read its flags, or its task
has run. -/
theorem DriverEffect.objs_cases {g' : QemuPipe} (hg' : s'.objs p = some g') :
    s.objs p = some g' ∨ g' = {} ∨ (∃ g wanted, s.objs p = some g ∧ g' = g.wakeUp wanted) ∨
      ∃ t task g task', who = some t ∧ s.tasks.lookup t = some task ∧ task.pipe = p ∧
        s.objs p = some g ∧ task.Moves g task' g' := by
  have hupdate {q : BitVec 32} {x : Option QemuPipe} (h : update s.objs q x p = some g') :
      s.objs p = some g' ∨ q = p ∧ x = some g' := by
    rw [update_apply] at h
    split at h
    · next e => exact .inr ⟨e.symm, h⟩
    · exact .inl h
  cases h with
  | host | entered => exact .inl hg'
  | opened => exact (hupdate hg').imp_right fun h => .inl (some.inj h.2).symm
  | released => exact (hupdate hg').imp_right fun h => nomatch h.2
  | drained hs hn hch hobj =>
    refine (hupdate hg').imp_right ?_
    rintro ⟨rfl, h⟩
    exact .inr (.inl ⟨_, _, hobj, (some.inj h).symm⟩)
  | @ran t task task' g _ _ _ htask hobj hmoves htouch =>
    refine (hupdate hg').imp_right ?_
    rintro ⟨rfl, h⟩
    obtain rfl := some.inj h
    exact .inr (.inr ⟨t, task, g, task', rfl, htask, rfl, hobj, hmoves⟩)

/-- Where a wake bit that is set after a change comes from. -/
theorem DriverEffect.bitSet (hb : s'.BitSet p w) :
    s.BitSet p w ∨ ∃ t task, who = some t ∧ s.tasks.lookup t = some task ∧ task.pc = .setBit ∧
      task.pipe = p ∧ task.isWrite = w := by
  obtain ⟨g', hg', hbit⟩ := hb
  rcases h.objs_cases hg' with hg | rfl | ⟨g, wanted, hg, rfl⟩ |
    ⟨t, task, g, task', hwho, htask, hp, hg, hmoves⟩
  · exact .inl ⟨g', hg, hbit⟩
  · cases w <;> cases hbit
  · exact .inl ⟨g, hg, ((QemuPipe.testWake_wakeUp _ _ _).mp hbit).1⟩
  · rcases hmoves.testWake w with hsame | ⟨hpc, hw, -⟩
    · exact .inl ⟨g, hg, hsame.symm.trans hbit⟩
    · exact .inr ⟨t, task, hwho, htask, hpc, hp, hw.symm⟩

/-- A close that is consumed after a change was consumed before, or has just been
read by the handler, which then cleared the wake bits. -/
theorem DriverEffect.closedOnHost (hc : s'.ClosedOnHost p) :
    s.ClosedOnHost p ∨ ∀ w, ¬ s'.BitSet p w := by
  obtain ⟨g', hg', hcl⟩ := hc
  rcases h.objs_cases hg' with hg | rfl | ⟨g, wanted, hg, rfl⟩ |
    ⟨t, task, g, task', -, -, -, hg, hmoves⟩
  · exact .inl ⟨g', hg, hcl⟩
  · cases hcl
  · rcases (QemuPipe.closedOnHost_wakeUp _ _).mp hcl with hcl | hw
    · exact .inl ⟨g, hg, hcl⟩
    · right
      rintro w ⟨g₂, hg₂, hbit⟩
      obtain rfl := some.inj (hg'.symm.trans hg₂)
      exact ((QemuPipe.testWake_wakeUp _ _ _).mp hbit).2.2 hw
  · exact .inl ⟨g, hg, hmoves.closedOnHost.symm.trans hcl⟩

/-- A recorded wake-up stays recorded while its bit is set. -/
theorem DriverEffect.recorded (hinv : s.Inv v) (hb : s'.BitSet p w) (hr : v.Recorded p w) :
    v'.Recorded p w := by
  obtain ⟨g₁, hg₁, hbit⟩ := hb
  cases h with
  | host hn hg => exact hr.of_allGrow (hg.allGrow hn)
  | entered => exact hr
  | opened hp hobj ha hnone => exact hr.of_openPipe hinv.wf ha
  | released hunused hn hch =>
    simp only [update_apply, ite_none_left_eq_some] at hg₁
    exact hr.of_remove hinv.wf hn hch hg₁.1
  | ran htask hobj hmoves htouch => exact hr.of_allGrow htouch.touches.allGrow
  | @drained a ws n pipe g dev' hs hn hch hobj =>
    simp only [update_apply] at hg₁
    split at hg₁
    · -- the flags that recorded the wake-up would have cleared the bit
      next e =>
        subst e
        obtain rfl := some.inj hg₁
        obtain ⟨-, hflag, hclosed⟩ := (QemuPipe.testWake_wakeUp _ _ _).mp hbit
        rw [wakeFlagOf_eq] at hflag
        obtain ⟨b, m, hm, hmch, hw⟩ := hr
        obtain rfl := hinv.channel_unique hm hn hmch hch
        obtain rfl : m = n := some.inj (hm.symm.trans hn)
        rcases hw with hw | ⟨-, hw⟩
        · exact absurd hw hflag
        · exact absurd hw hclosed
    · next e => exact hr.of_pop hs hn hch e

/-- A task before `CMD_WAKE_ON_x` stays there until it runs. -/
theorem DriverEffect.atWakeOn (ht : s.AtWakeOn t p w) : s'.AtWakeOn t p w ∨ who = some t := by
  obtain ⟨task, htask, hpc, hp, hw⟩ := ht
  cases h with
  | host | opened | released | drained => exact .inl ⟨task, htask, hpc, hp, hw⟩
  | @entered t' task' hidle =>
    have hne : t ≠ t' := by
      rintro rfl
      exact hidle task htask fun value => by simp [hpc]
    exact .inl ⟨task, by rw [AList.lookup_insert_ne hne]; exact htask, hpc, hp, hw⟩
  | @ran t' task₁ task' g g' dev' _ htask' hobj hmoves htouch =>
    by_cases e : t = t'
    · exact .inr (by rw [e])
    · exact .inl ⟨task, by rw [AList.lookup_insert_ne e]; exact htask, hpc, hp, hw⟩

/-- A task in the wait loop was there before, or has just run `CMD_WAKE_ON_x`. -/
theorem DriverEffect.inWaitLoop (ht : s'.InWaitLoop t p w) :
    s.InWaitLoop t p w ∨ who = some t ∧ s.AtWakeOn t p w := by
  obtain ⟨task, htask, hpc, hp, hw⟩ := ht
  cases h with
  | host | opened | released | drained => exact .inl ⟨task, htask, hpc, hp, hw⟩
  | @entered t' task' hidle hobj hne hpast =>
    rw [Heap.lookup_insert_if] at htask
    split at htask
    · obtain rfl := some.inj htask
      exact absurd hpc hpast
    · exact .inl ⟨task, htask, hpc, hp, hw⟩
  | @ran t' task₁ task' g g' dev' _ htask' hobj hmoves htouch =>
    rw [Heap.lookup_insert_if] at htask
    split at htask
    · next e =>
      subst e
      obtain rfl := some.inj htask
      have hp' : task₁.pipe = p := hmoves.pipe.symm.trans hp
      have hw' : task₁.isWrite = w := hmoves.isWrite.symm.trans hw
      rcases hmoves.past hpc with hpast | hwake
      · exact .inl ⟨task₁, htask', hpast, hp', hw'⟩
      · exact .inr ⟨rfl, task₁, htask', hwake, hp', hw'⟩
    · exact .inl ⟨task, htask, hpc, hp, hw⟩

end

/-- The task that sets a wake bit goes on to `CMD_WAKE_ON_x`. -/
theorem DriverEffect.setBit_atWakeOn (h : DriverEffect s v (some t) s' v') {task : Task}
    (htask : s.tasks.lookup t = some task) (hpc : task.pc = .setBit) :
    s'.AtWakeOn t task.pipe task.isWrite := by
  cases h with
  | @ran t task₁ task' g g' dev' _ htask' hobj hmoves htouch =>
    obtain rfl : task₁ = task := some.inj (htask'.symm.trans htask)
    exact ⟨task', by rw [Heap.lookup_insert_if, if_pos rfl], hmoves.wakeOn.mpr hpc, hmoves.pipe,
      hmoves.isWrite⟩

/-- `CMD_WAKE_ON_x` records the wake-up, unless the close has been consumed. -/
theorem DriverEffect.wakeOn_recorded (h : DriverEffect s v (some t) s' v') (hinv : s.Inv v)
    (hinv' : s'.Inv v') (ht : s.AtWakeOn t p w) (hopen : ¬ s'.ClosedOnHost p) :
    v'.Recorded p w := by
  obtain ⟨task, htask, hpc, rfl, rfl⟩ := ht
  cases h with
  | @ran t task₁ task' g g' dev' _ htask' hobj hmoves htouch =>
    obtain rfl : task₁ = task := some.inj (htask'.symm.trans htask)
    obtain ⟨a, n, hn, hch, hw⟩ := htouch.wakeOn hpc (hinv.objs_open _ g hobj)
    rw [wakeFlagOf_eq] at hw
    refine ⟨a, n, hn, hch, ?_⟩
    rcases hw with hw | hcl
    · exact .inl hw
    have hg' : update s.objs task₁.pipe (some g') task₁.pipe = some g' := update_self ..
    rcases hinv'.closed _ g' a n hg' hn hch hcl with hflag | hsig
    · exact absurd ⟨g', hg', hflag⟩ hopen
    · exact .inr hsig

/-! ## The invariants -/

/-- While a wake bit is set, no close has been consumed, and the wake-up is
recorded or about to be. -/
structure Driver.WakeInv (s : Driver σ) (v : View σ) : Prop where
  notClosed : ∀ p w, s.BitSet p w → ¬ s.ClosedOnHost p
  recorded : ∀ p w, s.BitSet p w → v.Recorded p w ∨ ∃ t, s.AtWakeOn t p w

/-- While a wake bit is set, the wake-up of every task in the wait loop for it is
recorded. -/
def Driver.WaitInv (v : View σ) : Prop :=
  ∀ t p w, s.InWaitLoop t p w → s.BitSet p w → v.Recorded p w

/-- The change does not set a wake bit of a pipe whose close has been consumed. -/
def KeepsOpen (s : Driver σ) (who : Option Nat) : Prop :=
  ∀ t task, who = some t → s.tasks.lookup t = some task → task.pc = .setBit →
    ¬ s.ClosedOnHost task.pipe

/-- The change does not set a clear wake bit under a task in the wait loop. -/
def KeepsWaiters (s : Driver σ) (who : Option Nat) : Prop :=
  ∀ t task t', who = some t → s.tasks.lookup t = some task → task.pc = .setBit →
    s.InWaitLoop t' task.pipe task.isWrite → s.BitSet task.pipe task.isWrite

theorem Driver.WakeInv.of_effect (hw : s.WakeInv v) (hinv : s.Inv v) (hinv' : s'.Inv v')
    (h : DriverEffect s v who s' v') (hok : KeepsOpen s who) : s'.WakeInv v' := by
  have hnot : ∀ p w, s'.BitSet p w → ¬ s'.ClosedOnHost p := by
    intro p w hb hc
    rcases h.closedOnHost hc with hc | hclear
    · rcases h.bitSet hb with hb | ⟨t, task, hwho, htask, hpc, rfl, -⟩
      · exact hw.notClosed p w hb hc
      · exact hok t task hwho htask hpc hc
    · exact hclear w hb
  refine ⟨hnot, fun p w hb => ?_⟩
  rcases h.bitSet hb with hb₀ | ⟨t, task, rfl, htask, hpc, rfl, rfl⟩
  · rcases hw.recorded p w hb₀ with hrec | ⟨t, ht⟩
    · exact .inl (h.recorded hinv hb hrec)
    · rcases h.atWakeOn ht with ht' | rfl
      · exact .inr ⟨t, ht'⟩
      · exact .inl (h.wakeOn_recorded hinv hinv' ht (hnot p w hb))
  · exact .inr ⟨t, h.setBit_atWakeOn htask hpc⟩

theorem Driver.WaitInv.of_effect (hw : s.WaitInv v) (hwake' : s'.WakeInv v') (hinv : s.Inv v)
    (hinv' : s'.Inv v') (h : DriverEffect s v who s' v') (hok : KeepsWaiters s who) :
    s'.WaitInv v' := by
  intro t p w ht hb
  rcases h.inWaitLoop ht with ht₀ | ⟨rfl, hat⟩
  · have hb₀ : s.BitSet p w := by
      rcases h.bitSet hb with hb₀ | ⟨t', task, hwho, htask, hpc, rfl, rfl⟩
      · exact hb₀
      · exact hok t' task t hwho htask hpc ht₀
    exact h.recorded hinv hb (hw t p w ht₀ hb₀)
  · exact h.wakeOn_recorded hinv hinv' hat (hwake'.notClosed p w hb)

/-! ## Whole runs -/

theorem keepsOpen_of_not {env : Env ι} (h : ¬ SetsBitAfterClose s (.run t env)) :
    KeepsOpen s (some t) := by
  rintro t' task ht htask hpc ⟨g, hg, hc⟩
  obtain rfl := some.inj ht
  exact h ⟨task, htask, hpc, g, hg, hc⟩

theorem keepsWaiters_of_not (hinv : s.Inv v) {env : Env ι}
    (h : ¬ SetsBitUnderWaiter s (.run t env)) : KeepsWaiters s (some t) := by
  rintro t₁ task t' ht htask hpc ⟨task', htask', hpast, hp, hw⟩
  obtain rfl := some.inj ht
  have hactive : task.Active := fun value => by simp [hpc]
  obtain ⟨g, hg⟩ := isSome_iff_exists.mp (hinv.busy t task htask hactive)
  refine ⟨g, hg, ?_⟩
  by_contra hbit
  exact h ⟨task, htask, hpc, ⟨g, hg, by simpa using hbit⟩, t',
    AList.mem_keys.mp (Heap.mem_of_lookup htask'), task', htask', hpast, hp, hw⟩

/-- The driver's invariant and the wake-up invariant, in runs that set no bit after
a consumed close. -/
theorem wakeInv_of_reach (S : Services σ ι) {ok : Driver σ → DriverEvent ι → Prop}
    (hok : ∀ s e, ok s e → ¬ SetsBitAfterClose s e) (h : (driverMachine S).Reach ok s) :
    ∃ v, s.Inv v ∧ s.WakeInv v := by
  refine h.invariant ?_ ?_
  · intro s hs
    have hinv := inv_init S hs
    have hbit : ∀ p w, ¬ s.BitSet p w := by
      rintro p w ⟨g, hg, -⟩
      obtain ⟨a, n, hn, -⟩ := hinv.objs_open p g hg
      cases hn
    exact ⟨_, hinv, fun p w hb => absurd hb (hbit p w), fun p w hb => absurd hb (hbit p w)⟩
  rintro s e s' - ⟨v, hinv, hw⟩ hguard hs
  obtain ⟨v', heff⟩ := step_effects S hinv hs
  refine ⟨v', heff.invariant hinv hw ?_ ?_⟩
  · intro s₁ v₁ s₂ v₂ h₁ h₂ hw₁ he
    exact hw₁.of_effect h₁ h₂ he fun t task hwho => by cases hwho
  · rintro t env rfl h₂ he
    exact hw.of_effect hinv h₂ he (keepsOpen_of_not (hok _ _ hguard))

/-- The invariant of the waiting tasks, in runs that set no bit under a waiter
either. -/
theorem waitInv_of_reach (S : Services σ ι) (h : (driverMachine S).Reach
      (fun s e => ¬ SetsBitAfterClose s e ∧ ¬ SetsBitUnderWaiter s e) s) :
    ∃ v, s.Inv v ∧ s.WakeInv v ∧ s.WaitInv v := by
  refine h.invariant ?_ ?_
  · intro s hs
    have hreach : (driverMachine S).Reach (fun s e => ¬ SetsBitAfterClose s e) s := .init hs
    obtain ⟨v, hinv, hw⟩ := wakeInv_of_reach S (fun _ _ h => h) hreach
    refine ⟨v, hinv, hw, ?_⟩
    rintro t p w - ⟨g, hg, -⟩
    obtain ⟨a, n, hn, -⟩ := (inv_init S hs).objs_open p g hg
    cases hn
  rintro s e s' - ⟨v, hinv, hwake, hwait⟩ ⟨hclose, hunder⟩ hs
  obtain ⟨v', heff⟩ := step_effects S hinv hs
  refine ⟨v', heff.invariant (J := fun s v => s.WakeInv v ∧ s.WaitInv v) hinv ⟨hwake, hwait⟩ ?_ ?_⟩
  · rintro s₁ v₁ s₂ v₂ h₁ h₂ ⟨hk₁, ht₁⟩ he
    have hk₂ := hk₁.of_effect h₁ h₂ he fun t task hwho => by cases hwho
    exact ⟨hk₂, ht₁.of_effect hk₂ h₁ h₂ he fun t task t' hwho => by cases hwho⟩
  · rintro t env rfl h₂ he
    have hk₂ := hwake.of_effect hinv h₂ he (keepsOpen_of_not hclose)
    exact ⟨hk₂, hwait.of_effect hk₂ hinv h₂ he (keepsWaiters_of_not hinv hunder)⟩

/-- No lost wake-up.  In every run in which no task sets a wake bit after the close
of its pipe has been consumed, a task that sleeps with its bit set does not sleep
on a pipe whose close has been consumed, and either the device has its wake-up
pending or another task is about to ask for it.  If moreover no task sets a
clear bit while another is in the wait loop for it, the device has the wake-up of
every sleeping task pending in every state. -/
theorem no_lost_wakeup (S : Services σ ι) (s : Driver σ)
    (h : (driverMachine S).Reach (fun s e => ¬ SetsBitAfterClose s e) s) :
    (∀ t p w, s.Waiting t p w → s.BitSet p w →
      ¬ s.ClosedOnHost p ∧ (s.dev.WakePending p w ∨ ∃ t', s.AtWakeOn t' p w)) ∧
    ((driverMachine S).Reach (fun s e => ¬ SetsBitAfterClose s e ∧ ¬ SetsBitUnderWaiter s e) s →
      ∀ t p w, s.Waiting t p w → s.BitSet p w → s.dev.WakePending p w) := by
  constructor
  · rintro t p w - hb
    obtain ⟨v, hinv, hw⟩ := wakeInv_of_reach S (fun _ _ h => h) h
    exact ⟨hw.notClosed p w hb, (hw.recorded p w hb).imp_left fun hr => hr.wakePending hinv.rep⟩
  · rintro hstrict t p w ⟨task, htask, hpc, hp, hw⟩ hb
    obtain ⟨v, hinv, -, hwait⟩ := waitInv_of_reach S hstrict
    exact (hwait t p w ⟨task, htask, by simp [hpc, Pc.PastWakeOn], hp, hw⟩ hb).wakePending hinv.rep

/-! ## A sleeper that nothing wakes -/

/-- One service, named `x`, that never has anything to read. -/
def againServices : Services Unit Unit where
  names := [[0x78]]
  funcs _ :=
    { init := fun _ _ => (some (), [])
      sendBuffers := fun _ p _ => ⟨0, p, []⟩
      recvBuffers := fun _ p _ => (⟨pipeErrorAgain, p, []⟩, [])
      poll := fun _ p => ⟨0, p, []⟩
      wakeOn := fun _ p _ => (p, []) }

def runTask (t : Nat) : DriverEvent Unit :=
  .run t { signal := false, accessOk := true, page := .ok 0x8000, bus := nameBus 1 }

/-- A task connects to the service and starts to read; it stops before `set_bit`. -/
def readUntilAgain : List (DriverEvent Unit) :=
  [.openFile 0x1000 (nameBus 0), .readWrite 0 0x1000 true false 0x8000 7] ++
    List.replicate 6 (runTask 0) ++ [.readWrite 0 0x1000 false false 0x8000 1] ++
    List.replicate 4 (runTask 0)

/-- The service closes the pipe, the close is consumed, and the task goes on. -/
def closeBeforeSetBit : List (DriverEvent Unit) :=
  readUntilAgain ++ [.host 0 .close, .interrupt] ++ List.replicate 4 (runTask 0)

/-- What matters about the task 0 and its pipe: its program counter, the pipe in
the driver, and channel and flags of the pipe in the device. -/
structure Sleeper where
  call : Option (Pc × BitVec 32 × Bool)
  obj : Option QemuPipe
  keys : List Addr
  node : Option (BitVec 64 × BitVec 8)
  signaled : Ptr
deriving DecidableEq

def Driver.sleeper (s : Driver Unit) : Sleeper where
  call := (s.tasks.lookup 0).map fun task => (task.pc, task.pipe, task.isWrite)
  obj := s.objs 0x1000
  keys := s.dev.heap.keys
  node := (s.dev.heap.lookup 0).map fun n => (n.channel, n.wanted)
  signaled := s.dev.signaledPipes

/-- The task sleeps with its bit set on a pipe that is still open in the device;
the close of the pipe has been consumed, and nothing is pending for it. -/
theorem sleeps_after_close :
    ∃ s, (driverMachine againServices).Reachable s ∧ s.Waiting 0 0x1000 false ∧
      s.BitSet 0x1000 false ∧ s.ClosedOnHost 0x1000 ∧
      (∃ n, s.dev.heap.lookup 0 = some n ∧ n.channel = channelOf 0x1000) ∧
      ¬ s.dev.WakePending 0x1000 false := by
  have hrun : ((driverMachine againServices).run probedDriver closeBeforeSetBit).map
      Driver.sleeper = some ⟨some (.waitEvent, 0x1000, false), some ⟨none, true, false, true⟩, [0],
        some (0x1000, 0), none⟩ := by
    decide +kernel
  obtain ⟨s, hs, heq⟩ := map_eq_some_iff.mp hrun
  simp only [Driver.sleeper, Sleeper.mk.injEq] at heq
  obtain ⟨htask, hobj, hkeys, hnode, -⟩ := heq
  obtain ⟨task, htask, hfields⟩ := map_eq_some_iff.mp htask
  obtain ⟨n, hn, hwanted⟩ := map_eq_some_iff.mp hnode
  simp only [Prod.mk.injEq] at hfields hwanted
  refine ⟨s, Machine.Reachable.of_run (.init (probedDriver_init againServices)) hs,
    ⟨task, htask, hfields⟩, ⟨_, hobj, rfl⟩, ⟨_, hobj, rfl⟩, ⟨n, hn, hwanted.1⟩, ?_⟩
  rintro ⟨a, m, hm, -, hw⟩
  have ha : a ∈ s.dev.heap.keys := AList.mem_keys.mp (Heap.mem_of_lookup hm)
  rw [hkeys, List.mem_singleton] at ha
  subst ha
  obtain rfl : n = m := some.inj (hn.symm.trans hm)
  rw [hwanted.2] at hw
  rcases hw with hw | ⟨-, hw | hw⟩
  · exact not_wants_zero hw
  · exact not_wants_zero hw
  · exact not_wants_zero hw

/-- The same reader without the close: it sleeps with its wake-up pending. -/
theorem no_lost_wakeup_reader : ∃ s, (driverMachine againServices).run probedDriver
        (readUntilAgain ++ List.replicate 4 (runTask 0)) = some s ∧
      s.Waiting 0 0x1000 false ∧ s.BitSet 0x1000 false ∧ s.dev.WakePending 0x1000 false := by
  have hrun : ((driverMachine againServices).run probedDriver
      (readUntilAgain ++ List.replicate 4 (runTask 0))).map Driver.sleeper =
      some ⟨some (.waitEvent, 0x1000, false), some ⟨none, false, false, true⟩, [0],
        some (0x1000, pipeWakeRead), none⟩ := by
    decide +kernel
  have hok : (driverMachine againServices).Meets
      (fun s e => ¬ SetsBitAfterClose s e ∧ ¬ SetsBitUnderWaiter s e) probedDriver
      (readUntilAgain ++ List.replicate 4 (runTask 0)) := by
    decide +kernel
  obtain ⟨s, hs, heq⟩ := map_eq_some_iff.mp hrun
  simp only [Driver.sleeper, Sleeper.mk.injEq] at heq
  obtain ⟨htask, hobj, -⟩ := heq
  obtain ⟨task, htask, hfields⟩ := map_eq_some_iff.mp htask
  simp only [Prod.mk.injEq] at hfields
  have hwait : s.Waiting 0 0x1000 false := ⟨task, htask, hfields⟩
  have hbit : s.BitSet 0x1000 false := ⟨_, hobj, rfl⟩
  have hreach := Machine.Reach.of_run (.init (probedDriver_init againServices)) hok hs
  exact ⟨s, hs, hwait, hbit, (no_lost_wakeup againServices s (hreach.mono fun _ _ h => h.1)).2
    hreach 0 0x1000 false hwait hbit⟩

end QemuAndroid.GoldfishPipe
