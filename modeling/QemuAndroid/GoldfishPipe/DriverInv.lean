import QemuAndroid.GoldfishPipe.DriverSteps

/-!
# The driver and the device agree

`Driver.Inv` relates the driver's own data to the view of the device: the same
pipes are open on both sides, under the channels of their addresses, and a close
by the host is known to the driver or still on the way.

`DriverEffect` lists the elementary changes of the composed system: opening and
releasing a pipe, entering a call, a step of a call, one turn of the interrupt
handler's loop, and a call of a service.  Every event is a sequence of them
(`step_effects`); the interrupt handler is the only event that makes more than
one.  Each keeps the invariant (`Driver.Inv.of_effect`).
-/

namespace QemuAndroid.GoldfishPipe

open Lib Function Option View QemuPipe

variable {σ ι : Type}

/-! ## The driver and the device agree -/

/-- The device of `s` shows the well-formed view `v`. -/
structure Driver.Shows (s : Driver σ) (v : View σ) : Prop where
  rep : Represents s.dev v
  wf : v.Wf
  low : LowChannel s.dev

/-- The pipes of the driver and of the device are the same, a task in a call has
its pipe, and a close of the host is either still to be reported or has reached
`BIT_CLOSED_ON_HOST`. -/
structure Driver.Inv (s : Driver σ) (v : View σ) : Prop extends s.Shows v where
  radix_iff : ∀ p, s.radix p = true ↔ (s.objs p).isSome
  objs_open : ∀ p g, s.objs p = some g → ∃ a n, v.node a = some n ∧ n.channel = channelOf p
  node_objs : ∀ a n, v.node a = some n → ∃ p g, p ≠ 0 ∧ n.channel = channelOf p ∧ s.objs p = some g
  busy : ∀ t task, s.tasks.lookup t = some task → task.Active → (s.objs task.pipe).isSome
  closed : ∀ p g a n, s.objs p = some g → v.node a = some n → n.channel = channelOf p →
    n.closed = true → g.closedOnHost = true ∨ a ∈ v.signaled ∧ Wants n.wanted pipeWakeClosed

/-- The elementary changes of the system; `who` is the task that ran, if any. -/
inductive DriverEffect (s : Driver σ) (v : View σ) : Option Nat → Driver σ → View σ → Prop
  | opened {pipe : BitVec 32} {a : Addr} {dev' : PipeDevice σ} (hp : pipe ≠ 0)
      (hobj : s.objs pipe = none) (ha : a ∉ v.pipes)
      (hnone : ∀ b m, v.node b = some m → m.channel ≠ channelOf pipe) :
      DriverEffect s v none
        { s with dev := dev', radix := update s.radix pipe true,
                 objs := update s.objs pipe (some {}) }
        (v.openPipe a (channelOf pipe))
  | released {pipe : BitVec 32} {a : Addr} {n : Pipe σ} {dev' : PipeDevice σ}
      (hunused : s.Unused pipe) (hn : v.node a = some n) (hch : n.channel = channelOf pipe) :
      DriverEffect s v none
        { s with dev := dev', radix := update s.radix pipe false, objs := update s.objs pipe none }
        (v.remove a)
  | entered {t : Nat} {task : Task} (hidle : s.Idle t) (hobj : (s.objs task.pipe).isSome)
      (hpc : task.pc ≠ .wakeOn) (hpast : ¬ task.pc.PastWakeOn) :
      DriverEffect s v none { s with tasks := s.tasks.insert t task } v
  | ran {t : Nat} {task task' : Task} {g g' : QemuPipe} {dev' : PipeDevice σ} {v' : View σ}
      (htask : s.tasks.lookup t = some task) (hobj : s.objs task.pipe = some g)
      (hmoves : task.Moves g task' g') (htouch : task.Touches v v') :
      DriverEffect s v (some t)
        { s with dev := dev', objs := update s.objs task.pipe (some g'),
                 tasks := s.tasks.insert t task' } v'
  | drained {a : Addr} {ws : List Addr} {n : Pipe σ} {pipe : BitVec 32} {g : QemuPipe}
      {dev' : PipeDevice σ} (hs : v.signaled = a :: ws) (hn : v.node a = some n)
      (hch : n.channel = channelOf pipe) (hobj : s.objs pipe = some g) :
      DriverEffect s v none
        { s with dev := dev', objs := update s.objs pipe (some (g.wakeUp n.wanted)) }
        (v.pop a n)
  | host {a : Addr} {n : Pipe σ} {dev' : PipeDevice σ} {v' : View σ} (hn : v.node a = some n)
      (hg : v.Grows a v') : DriverEffect s v none { s with dev := dev' } v'

/-- An elementary change without a task running, with the view shown after it. -/
def DriverEffect.Silent (x y : Driver σ × View σ) : Prop :=
  DriverEffect x.1 x.2 none y.1 y.2 ∧ y.1.Shows y.2

/-- The effects of an event: one step of the task that ran, or silent changes. -/
def EventEffect (e : DriverEvent ι) (s : Driver σ) (v : View σ) (s' : Driver σ) (v' : View σ) :
    Prop :=
  (∃ t env, e = .run t env ∧ DriverEffect s v (some t) s' v' ∧ s'.Shows v') ∨
    Relation.ReflTransGen DriverEffect.Silent (s, v) (s', v')

/-! ## The invariant -/

/-- The pipe at `a`, before and after the calls of a service. -/
structure View.NodeGrows (v v' : View σ) (a : Addr) (n n' : Pipe σ) : Prop where
  channel : n'.channel = n.channel
  wanted : ∀ flag, Wants n.wanted flag → Wants n'.wanted flag
  signaled : a ∈ v.signaled → a ∈ v'.signaled
  closed : n'.closed = true → n.closed = true ∨ a ∈ v'.signaled ∧ Wants n'.wanted pipeWakeClosed

/-- Every pipe only grows, and none appears or disappears. -/
structure View.AllGrow (v v' : View σ) : Prop where
  old : ∀ a n, v.node a = some n → ∃ n', v'.node a = some n' ∧ v.NodeGrows v' a n n'
  new : ∀ a n', v'.node a = some n' → ∃ n, v.node a = some n ∧ v.NodeGrows v' a n n'

theorem View.AllGrow.refl (v : View σ) : v.AllGrow v := by
  have same : ∀ a n, v.NodeGrows v a n n := fun _ _ => ⟨rfl, fun _ h => h, id, .inl⟩
  exact ⟨fun a n hn => ⟨n, hn, same a n⟩, fun a n hn => ⟨n, hn, same a n⟩⟩

variable {v v' : View σ} {b : Addr} {s s' : Driver σ} {pipe : BitVec 32} {e : DriverEvent ι}

theorem View.Grows.allGrow {m : Pipe σ} (h : v.Grows b v') (hm : v.node b = some m) :
    v.AllGrow v' := by
  have hsig : ∀ a, a ∈ v.signaled → a ∈ v'.signaled := fun a ha => (h.mem_signaled a).mpr (.inl ha)
  obtain ⟨m', hm', hch, hw, -, hcl⟩ := h.node m hm
  have hb : v.NodeGrows v' b m m' := ⟨hch, hw, hsig b, hcl⟩
  have hother : ∀ a n, a ≠ b → v.NodeGrows v' a n n :=
    fun a n _ => ⟨rfl, fun _ h => h, hsig a, .inl⟩
  constructor
  · intro a n hn
    by_cases e : a = b
    · subst e
      obtain rfl : m = n := some.inj (hm.symm.trans hn)
      exact ⟨m', hm', hb⟩
    · exact ⟨n, (h.node_other a e).trans hn, hother a n e⟩
  intro a n' hn'
  by_cases e : a = b
  · subst e
    obtain rfl : m' = n' := some.inj (hm'.symm.trans hn')
    exact ⟨m, hm, hb⟩
  · exact ⟨n', (h.node_other a e).symm.trans hn', hother a n' e⟩

theorem View.Touches.allGrow {ch : BitVec 64} (h : v.Touches ch v') : v.AllGrow v' := by
  rcases h with rfl | ⟨b, m, hm, -, hg⟩
  · exact .refl _
  · exact hg.allGrow hm

variable {a : Addr} {n : Pipe σ}

namespace Driver.Inv

variable {s s' : Driver σ} {v v' : View σ}

/-- The invariant when pipes only grow and the driver keeps its objects. -/
theorem of_allGrow (h : s.Inv v) (hg : v.AllGrow v') (hs : s'.Shows v')
    (hradix : s'.radix = s.radix) (hobjs : ∀ p g', s'.objs p = some g' → ∃ g, s.objs p = some g ∧
      (g.closedOnHost = true → g'.closedOnHost = true))
    (hobjs' : ∀ p, (s.objs p).isSome → (s'.objs p).isSome)
    (hbusy : ∀ t task, s'.tasks.lookup t = some task → task.Active → (s.objs task.pipe).isSome) :
    s'.Inv v' where
  toShows := hs
  radix_iff p := by
    rw [hradix, h.radix_iff p]
    refine ⟨hobjs' p, fun hp => ?_⟩
    obtain ⟨g', hg'⟩ := isSome_iff_exists.mp hp
    obtain ⟨g, hg, -⟩ := hobjs p g' hg'
    simp [hg]
  objs_open p g' hg' := by
    obtain ⟨g, hgo, -⟩ := hobjs p g' hg'
    obtain ⟨a, n, hn, hch⟩ := h.objs_open p g hgo
    obtain ⟨n', hn', hgr⟩ := hg.old a n hn
    exact ⟨a, n', hn', hgr.channel.trans hch⟩
  node_objs a n' hn' := by
    obtain ⟨n, hn, hgr⟩ := hg.new a n' hn'
    obtain ⟨p, g, hp, hch, hobj⟩ := h.node_objs a n hn
    obtain ⟨g', hg'⟩ := isSome_iff_exists.mp (hobjs' p (by simp [hobj]))
    exact ⟨p, g', hp, hgr.channel.trans hch, hg'⟩
  busy t task ht hact := hobjs' _ (hbusy t task ht hact)
  closed p g' a n' hg' hn' hch hcl := by
    obtain ⟨g, hobj, hkeep⟩ := hobjs p g' hg'
    obtain ⟨n, hn, hgr⟩ := hg.new a n' hn'
    rcases hgr.closed hcl with hcl | hrep
    · rcases h.closed p g a n hobj hn (hgr.channel.symm.trans hch) hcl with hflag | ⟨hmem, hw⟩
      · exact .inl (hkeep hflag)
      · exact .inr ⟨hgr.signaled hmem, hgr.wanted _ hw⟩
    · exact .inr hrep

/-- The channel of an open pipe is that of exactly one object. -/
theorem channel_unique (h : s.Inv v) {m : Pipe σ} {p : BitVec 32} (hm : v.node a = some m)
    (hn : v.node b = some n) (hmch : m.channel = channelOf p) (hnch : n.channel = channelOf p) :
    a = b :=
  h.wf.channel_inj a b m n hm hn (hmch.trans hnch.symm)

end Driver.Inv

theorem Driver.Unused.notActive (h : s.Unused pipe) {t : Nat} {task : Task}
    (ht : s.tasks.lookup t = some task) (hp : task.pipe = pipe) : ¬ task.Active :=
  h t (AList.mem_keys.mp (Heap.mem_of_lookup ht)) task ht hp

theorem QemuPipe.closedOnHost_wakeUp (g : QemuPipe) (w : BitVec 8) :
    (g.wakeUp w).closedOnHost = true ↔ g.closedOnHost = true ∨ Wants w pipeWakeClosed := by
  unfold wakeUp
  split
  · next h => simp [h]
  · next h => simp [h]

/-- A wake bit survives the handler only when its flag was not reported, nor a
close. -/
theorem QemuPipe.testWake_wakeUp (g : QemuPipe) (w : BitVec 8) (isWrite : Bool) :
    (g.wakeUp w).testWake isWrite = true ↔ g.testWake isWrite = true ∧
      ¬ Wants w (wakeOnCmd isWrite).wakeFlag ∧ ¬ Wants w pipeWakeClosed := by
  unfold wakeUp
  split
  · next h => cases isWrite <;> simp [testWake, h]
  · next h => cases isWrite <;> simp [testWake, h, wakeOnCmd, Cmd.wakeFlag]

theorem View.node_pop (v : View σ) (a : Addr) (n : Pipe σ) (b : Addr) :
    (v.pop a n).node b = if b = a then some { n with wanted := 0 } else v.node b := by
  simp only [pop, update_apply]

theorem View.mem_pop {ws : List Addr} (hs : v.signaled = a :: ws) (n : Pipe σ) (hb : b ∈ v.signaled)
    (hne : b ≠ a) : b ∈ (v.pop a n).signaled := by
  rw [hs] at hb
  simpa [pop, hs] using (List.mem_cons.mp hb).resolve_left hne

/-- Handing out a signaled pipe keeps all pipes on their channels. -/
theorem View.pop_channel (hn : v.node a = some n) (c : BitVec 64) :
    (∃ m, (v.pop a n).node b = some m ∧ m.channel = c) ↔
      ∃ m, v.node b = some m ∧ m.channel = c := by
  rw [node_pop]
  by_cases e : b = a
  · subst e
    simp [hn]
  · simp [e]

theorem Driver.Inv.of_drained {ws : List Addr} {g : QemuPipe} (h : s.Inv v)
    (hsig : v.signaled = a :: ws) (hn : v.node a = some n) (hch : n.channel = channelOf pipe)
    (hobj : s.objs pipe = some g) (hs : s'.Shows (v.pop a n)) (hradix : s'.radix = s.radix)
    (htasks : s'.tasks = s.tasks)
    (hobjs : s'.objs = update s.objs pipe (some (g.wakeUp n.wanted))) : s'.Inv (v.pop a n) := by
  have hsome : ∀ p, (s'.objs p).isSome ↔ (s.objs p).isSome := by
    intro p
    rw [hobjs, update_apply]
    split
    · next e => simp [e, hobj]
    · rfl
  refine {
    toShows := hs, radix_iff := ?_, objs_open := ?_, node_objs := ?_, busy := ?_, closed := ?_ }
  · intro p
    rw [hradix, hsome, h.radix_iff]
  · intro p g' hg'
    obtain ⟨g₀, hg₀⟩ := isSome_iff_exists.mp ((hsome p).mp (by simp [hg']))
    obtain ⟨b, m, hm, hmch⟩ := h.objs_open p g₀ hg₀
    obtain ⟨m', hm', hmch'⟩ := (pop_channel (b := b) hn (channelOf p)).mpr ⟨m, hm, hmch⟩
    exact ⟨b, m', hm', hmch'⟩
  · intro b m hm
    obtain ⟨m₀, hm₀, hmch⟩ := (pop_channel hn m.channel).mp ⟨m, hm, rfl⟩
    obtain ⟨p, g₀, hp, hpch, hg₀⟩ := h.node_objs b m₀ hm₀
    obtain ⟨g', hg'⟩ := isSome_iff_exists.mp ((hsome p).mpr (by simp [hg₀]))
    exact ⟨p, g', hp, hmch.symm.trans hpch, hg'⟩
  · intro t task ht hact
    rw [htasks] at ht
    exact (hsome _).mpr (h.busy t task ht hact)
  intro p g' b m hg' hm hmch hcl
  rw [node_pop] at hm
  rw [hobjs, update_apply] at hg'
  by_cases e : b = a
  · -- the pipe handed out: a pending close has just been recorded
    subst e
    rw [if_pos rfl] at hm
    obtain rfl := some.inj hm
    obtain rfl : p = pipe := channelOf_inj (hmch.symm.trans hch)
    rw [if_pos rfl] at hg'
    obtain rfl := some.inj hg'
    left
    rw [closedOnHost_wakeUp]
    exact (h.closed p g b n hobj hn hch hcl).imp_right fun hc => hc.2
  · rw [if_neg e] at hm
    have hne : p ≠ pipe := by
      rintro rfl
      exact e (h.channel_unique hm hn hmch hch)
    rw [if_neg hne] at hg'
    rcases h.closed p g' b m hg' hm hmch hcl with hc | ⟨hmem, hw⟩
    · exact .inl hc
    · exact .inr ⟨mem_pop hsig n hmem e, hw⟩

theorem View.node_openPipe (v : View σ) (a : Addr) (ch : BitVec 64) (b : Addr) :
    (v.openPipe a ch).node b = if b = a then some (pipeNew ch) else v.node b := by
  simp only [openPipe, update_apply]

theorem View.node_remove (v : View σ) (a b : Addr) :
    (v.remove a).node b = if b = a then none else v.node b := by
  simp only [remove, update_apply]

theorem Driver.Inv.of_opened (h : s.Inv v) (hp : pipe ≠ 0) (hobj : s.objs pipe = none)
    (ha : a ∉ v.pipes) (hs : s'.Shows (v.openPipe a (channelOf pipe))) (htasks : s'.tasks = s.tasks)
    (hradix : s'.radix = update s.radix pipe true)
    (hobjs : s'.objs = update s.objs pipe (some {})) : s'.Inv (v.openPipe a (channelOf pipe)) := by
  have hother : ∀ b m, v.node b = some m → b ≠ a := by
    rintro b m hm rfl
    exact ha (h.wf.mem_pipes hm)
  refine {
    toShows := hs, radix_iff := ?_, objs_open := ?_, node_objs := ?_, busy := ?_, closed := ?_ }
  · intro p
    rw [hradix, hobjs, update_apply, update_apply]
    split
    · simp
    · exact h.radix_iff p
  · intro p g hg
    rw [hobjs, update_apply] at hg
    split at hg
    · next e => exact ⟨a, pipeNew (channelOf pipe), by simp [node_openPipe], by rw [e]; rfl⟩
    · obtain ⟨b, m, hm, hmch⟩ := h.objs_open p g hg
      exact ⟨b, m, by rw [node_openPipe, if_neg (hother b m hm), hm], hmch⟩
  · intro b m hm
    rw [node_openPipe] at hm
    split at hm
    · obtain rfl := some.inj hm
      exact ⟨pipe, {}, hp, rfl, by rw [hobjs, update_self]⟩
    obtain ⟨p, g, hp', hch, hg⟩ := h.node_objs b m hm
    have hne : p ≠ pipe := by
      rintro rfl
      rw [hobj] at hg
      cases hg
    exact ⟨p, g, hp', hch, by rw [hobjs, update_of_ne hne, hg]⟩
  · intro t task ht hact
    rw [htasks] at ht
    rw [hobjs, update_apply]
    split
    · rfl
    · exact h.busy t task ht hact
  · intro p g b m hg hm hmch hcl
    rw [node_openPipe] at hm
    split at hm
    · obtain rfl := some.inj hm
      cases hcl
    rw [hobjs, update_apply] at hg
    split at hg
    · -- the channel was not in use
      next e =>
        obtain ⟨p', g', -, hch', hg'⟩ := h.node_objs b m hm
        obtain rfl : p' = pipe := channelOf_inj (hch'.symm.trans (hmch.trans (by rw [e])))
        rw [hobj] at hg'
        cases hg'
    · exact h.closed p g b m hg hm hmch hcl

theorem Driver.Inv.of_released (h : s.Inv v) (hunused : s.Unused pipe) (hn : v.node a = some n)
    (hch : n.channel = channelOf pipe) (hs : s'.Shows (v.remove a)) (htasks : s'.tasks = s.tasks)
    (hradix : s'.radix = update s.radix pipe false) (hobjs : s'.objs = update s.objs pipe none) :
    s'.Inv (v.remove a) := by
  have hkeep : ∀ p g, s'.objs p = some g → p ≠ pipe ∧ s.objs p = some g := by
    intro p g hg
    rwa [hobjs, update_apply, ite_none_left_eq_some] at hg
  have hnode : ∀ b m, (v.remove a).node b = some m → b ≠ a ∧ v.node b = some m := by
    intro b m hm
    rwa [node_remove, ite_none_left_eq_some] at hm
  refine {
    toShows := hs, radix_iff := ?_, objs_open := ?_, node_objs := ?_, busy := ?_, closed := ?_ }
  · intro p
    rw [hradix, hobjs, update_apply, update_apply]
    split
    · simp
    · exact h.radix_iff p
  · intro p g hg
    obtain ⟨hne, hg⟩ := hkeep p g hg
    obtain ⟨b, m, hm, hmch⟩ := h.objs_open p g hg
    have hba : b ≠ a := by
      rintro rfl
      obtain rfl : n = m := some.inj (hn.symm.trans hm)
      exact hne (channelOf_inj (hmch.symm.trans hch))
    exact ⟨b, m, by rw [node_remove, if_neg hba, hm], hmch⟩
  · intro b m hm
    obtain ⟨hba, hm⟩ := hnode b m hm
    obtain ⟨p, g, hp, hpch, hg⟩ := h.node_objs b m hm
    have hne : p ≠ pipe := by
      rintro rfl
      exact hba (h.channel_unique hm hn hpch hch)
    exact ⟨p, g, hp, hpch, by rw [hobjs, update_of_ne hne, hg]⟩
  · intro t task ht hact
    rw [htasks] at ht
    have hne : task.pipe ≠ pipe := fun e => hunused.notActive ht e hact
    rw [hobjs, update_of_ne hne]
    exact h.busy t task ht hact
  intro p g b m hg hm hmch hcl
  obtain ⟨-, hg⟩ := hkeep p g hg
  obtain ⟨hba, hm⟩ := hnode b m hm
  rcases h.closed p g b m hg hm hmch hcl with hc | ⟨hmem, hw⟩
  · exact .inl hc
  · exact .inr ⟨h.wf.signaled_nodup.mem_erase_iff.mpr ⟨hba, hmem⟩, hw⟩

theorem Driver.Inv.of_effect {who : Option Nat} (h : s.Inv v) (heff : DriverEffect s v who s' v')
    (hs : s'.Shows v') : s'.Inv v' := by
  cases heff with
  | host hn hg =>
    exact h.of_allGrow (hg.allGrow hn) hs rfl (fun p g hg => ⟨g, hg, id⟩) (fun _ hp => hp) h.busy
  | @entered t task hidle hobj hpc hpast =>
    refine h.of_allGrow (.refl v) hs rfl (fun p g hg => ⟨g, hg, id⟩) (fun _ hp => hp) ?_
    intro t' task' ht' hact
    rw [Heap.lookup_insert_if] at ht'
    split at ht'
    · obtain rfl := some.inj ht'
      exact hobj
    · exact h.busy t' task' ht' hact
  | @ran t task task' g g' dev' _ htask hobj hmoves htouch =>
    refine h.of_allGrow htouch.touches.allGrow hs rfl ?_ ?_ ?_
    · intro p g₁ hg₁
      simp only [update_apply] at hg₁
      split at hg₁
      · next e =>
        subst e
        obtain rfl := some.inj hg₁
        exact ⟨g, hobj, fun hc => hmoves.closedOnHost.trans hc⟩
      · exact ⟨g₁, hg₁, id⟩
    · intro p hp
      simp only [update_apply]
      split
      · rfl
      · exact hp
    intro t' task₁ ht' hact
    rw [Heap.lookup_insert_if] at ht'
    split at ht'
    · obtain rfl := some.inj ht'
      rw [hmoves.pipe, hobj]
      rfl
    · exact h.busy t' task₁ ht' hact
  | drained hsig hn hch hobj => exact h.of_drained hsig hn hch hobj hs rfl rfl rfl
  | opened hp hobj ha hnone => exact h.of_opened hp hobj ha hs rfl rfl rfl
  | released hunused hn hch => exact h.of_released hunused hn hch hs rfl rfl rfl

/-! ## Events -/

theorem EventEffect.single (h : DriverEffect s v none s' v') (hs : s'.Shows v') :
    EventEffect e s v s' v' :=
  .inr (.single ⟨h, hs⟩)

theorem qemuPipeOpen_effect {S : Services σ ι} {b : BusIn ι} (hinv : s.Inv v) (hp : pipe ≠ 0)
    (hobj : s.objs pipe = none) (h : qemuPipeOpen S b pipe s = some s') :
    ∃ v', DriverEffect s v none s' v' ∧ s'.Shows v' := by
  have hradix : s.radix pipe = false := by
    have := (hinv.radix_iff pipe).not.mpr (by simp [hobj])
    simpa using this
  have hunused : ∀ a n, v.node a = some n → n.channel ≠ channelOf pipe := by
    intro a n hn hch
    obtain ⟨p, g, -, hpch, hg⟩ := hinv.node_objs a n hn
    obtain rfl := channelOf_inj (hpch.symm.trans hch)
    rw [hobj] at hg
    cases hg
  simp only [qemuPipeOpen, hradix, Bool.false_eq_true, if_false] at h
  obtain ⟨dev₁, hcmd, h⟩ := bind_eq_some_iff.mp h
  obtain ⟨⟨dev₂, status⟩, hst, rfl⟩ := map_eq_some_iff.mp h
  obtain ⟨rfl, rfl⟩ : dev₂ = dev₁ ∧ status = dev₁.status := by simpa using readStatus_spec hst
  obtain ⟨hb, v', hr, hwf, hlow, heff⟩ := command_spec hinv.rep hinv.wf hinv.low hcmd
  generalize dev₂.irq = irq' at heff
  generalize dev₂.status = status' at heff ⊢
  cases heff with
  | noPipe _ hc => exact absurd rfl hc
  | rejected hn hch | inUse hn hch => exact absurd hch (hunused _ _ hn)
  | closed hn hch => exact absurd hch (hunused _ _ hn)
  | called hn hch => exact absurd hch (hunused _ _ hn)
  | unknown hn hch => exact absurd hch (hunused _ _ hn)
  | opened hnone =>
    have hfresh : b.fresh ∉ v.pipes := fun hmem => hb ((hinv.rep.mem_heap hinv.wf).mpr hmem)
    exact ⟨v.openPipe b.fresh (channelOf pipe), .opened hp hobj hfresh hnone, hr, hwf, hlow⟩

theorem qemuPipeRelease_effect {S : Services σ ι} {b : BusIn ι} (hinv : s.Inv v)
    (hobj : (s.objs pipe).isSome) (hunused : s.Unused pipe)
    (h : qemuPipeRelease S b pipe s = some s') :
    ∃ v', DriverEffect s v none s' v' ∧ s'.Shows v' := by
  obtain ⟨g, hg⟩ := isSome_iff_exists.mp hobj
  obtain ⟨a, n, hn, hch⟩ := hinv.objs_open pipe g hg
  obtain ⟨dev', hcmd, rfl⟩ := map_eq_some_iff.mp h
  obtain ⟨-, v', hr, hwf, hlow, heff⟩ := command_spec hinv.rep hinv.wf hinv.low hcmd
  generalize dev'.irq = irq' at heff
  generalize dev'.status = status' at heff
  cases heff with
  | noPipe hnone => exact absurd hch (hnone a n hn)
  | opened hnone => exact absurd hch (hnone a n hn)
  | rejected _ _ _ hc => exact absurd rfl hc
  | inUse _ _ _ hc | unknown _ _ _ hc => cases hc
  | called _ _ _ hc _ hclose => exact absurd (some.inj hc).symm hclose
  | closed hm hmch => exact ⟨_, .released hunused hm hmch, hr, hwf, hlow⟩

/-- The interrupt handler is a sequence of drains, one for each pipe it reads. -/
theorem qemuPipeInterrupt_effect {f : Nat} (hinv : s.Inv v) (h : qemuPipeInterrupt f s = some s') :
    ∃ v', Relation.ReflTransGen DriverEffect.Silent (s, v) (s', v') := by
  induction f generalizing s v with
  | zero => cases h
  | succ f ih =>
    have hreg : Reg.ofOffset 0x08 = some .channel := rfl
    rcases pipeDevRead_channel_spec hinv.rep hinv.wf hreg with
      ⟨hs, hread⟩ | ⟨a, ws, n, dev', hs, hn, hread, hr, hdev⟩
    · rw [qemuPipeInterrupt, hread] at h
      cases h
      exact ⟨v, .refl⟩
    obtain ⟨p, g, hp, hch, hg⟩ := hinv.node_objs a n hn
    have hradix : s.radix p = true := (hinv.radix_iff p).mpr (by simp [hg])
    have hwakes : (dev'.wakes.setWidth 64).setWidth 8 = n.wanted := by
      rw [show dev'.wakes = n.wanted.setWidth 32 by rw [hdev]]
      simp
    have hw : pipeDevRead 0x14 dev' = some (dev'.wakes.setWidth 64, dev') := rfl
    rw [qemuPipeInterrupt, hread, hch, channelOf_and_lowMask] at h
    have hp' : ¬ p = 0#32 := hp
    simp only [bind_some, setWidth_channelOf, hp', if_false, hw, hradix, if_true, hg, hwakes] at h
    set s₁ : Driver σ := { s with
      dev := dev', objs := update s.objs p (some (g.wakeUp n.wanted)) }
    have heff : DriverEffect s v none s₁ (v.pop a n) := .drained hs hn hch hg
    have hchannel : dev'.channel = s.dev.channel := by rw [hdev]
    have hshow : s₁.Shows (v.pop a n) := by
      obtain ⟨q, hq⟩ := hinv.low
      exact ⟨hr, hinv.wf.pop hn, q, hchannel.trans hq⟩
    obtain ⟨v', hchain⟩ := ih (hinv.of_effect heff hshow) h
    exact ⟨v', .head ⟨heff, hshow⟩ hchain⟩

theorem enter_effect {t : Nat} {task : Task} (hinv : s.Inv v) (hpc : task.pc ≠ .wakeOn)
    (hpast : ¬ task.pc.PastWakeOn) (h : s.enter t task = some s') : EventEffect e s v s' v := by
  obtain ⟨hguard, h⟩ := ite_none_right_eq_some.mp h
  cases h
  exact .single (.entered hguard.1 hguard.2 hpc hpast) ⟨hinv.rep, hinv.wf, hinv.low⟩

/-- Nothing is open when the driver has been probed. -/
theorem inv_probed {dev : PipeDevice σ} {aps : Bool} (hrep : Represents dev ⟨[], [], fun _ => none⟩)
    (hch : dev.channel = 0) (h : Driver.probed dev aps = some s) :
    s.Inv ⟨[], [], fun _ => none⟩ := by
  cases h
  exact {
    rep := hrep
    wf := wf_empty
    low := ⟨0, hch⟩
    radix_iff := by simp
    objs_open := by simp
    node_objs := by simp
    busy := by rintro t task ht; cases ht
    closed := by simp }

theorem inv_init (S : Services σ ι) (h : (driverMachine S).init s) :
    s.Inv ⟨[], [], fun _ => none⟩ := by
  obtain ⟨b, aps, h⟩ := h
  cases aps with
  | none => exact inv_probed represents_reset rfl h
  | some paddr =>
    rw [qemuPipeProbe] at h
    obtain ⟨⟨dev₁, ws₁⟩, h₁, k₁⟩ := bind_eq_some_iff.mp h
    obtain ⟨⟨dev₂, ws₂⟩, h₂, k₂⟩ := bind_eq_some_iff.mp k₁
    obtain ⟨⟨aph, dev₃⟩, h₃, k₃⟩ := bind_eq_some_iff.mp k₂
    obtain ⟨⟨apl, dev₄⟩, h₄, k₄⟩ := bind_eq_some_iff.mp k₃
    have hd₂ : Represents dev₂ ⟨[], [], fun _ => none⟩ ∧ dev₂.channel = 0 := by
      cases h₁
      cases h₂
      exact ⟨represents_reset.congr, rfl⟩
    have hd₄ : dev₂ = dev₄ := by
      cases h₃
      cases h₄
      rfl
    exact inv_probed (hd₄ ▸ hd₂.1) (hd₄ ▸ hd₂.2) k₄

/-- Every event is made of the listed changes. -/
theorem step_effects (S : Services σ ι) (hinv : s.Inv v) (h : s.step S e = some s') :
    ∃ v', EventEffect e s v s' v' := by
  cases e with
  | openFile pipe b =>
    obtain ⟨hguard, h⟩ := ite_none_left_eq_some.mp h
    obtain ⟨hp, hobj⟩ := not_or.mp hguard
    obtain ⟨v', heff, hs⟩ := qemuPipeOpen_effect hinv hp (by simpa using hobj) h
    exact ⟨v', .single heff hs⟩
  | release pipe b =>
    obtain ⟨hguard, h⟩ := ite_none_right_eq_some.mp h
    obtain ⟨v', heff, hs⟩ := qemuPipeRelease_effect hinv hguard.1 hguard.2 h
    exact ⟨v', .single heff hs⟩
  | readWrite t pipe isWrite nonblock buffer bufflen =>
    exact ⟨v, enter_effect hinv (by simp) (by simp [Pc.PastWakeOn]) h⟩
  | poll t pipe => exact ⟨v, enter_effect hinv (by simp) (by simp [Pc.PastWakeOn]) h⟩
  | run t env =>
    obtain ⟨task, htask, h⟩ := bind_eq_some_iff.mp h
    obtain ⟨g, hg, h⟩ := bind_eq_some_iff.mp h
    obtain ⟨⟨task', g', dev'⟩, hstep, rfl⟩ := map_eq_some_iff.mp h
    obtain ⟨hmoves, v', hr, hwf, hlow, htouch⟩ := Task.step_spec hinv.rep hinv.wf hinv.low hstep
    exact ⟨v', .inl ⟨t, env, rfl, .ran htask hg hmoves htouch, hr, hwf, hlow⟩⟩
  | interrupt =>
    obtain ⟨v', hchain⟩ := qemuPipeInterrupt_effect hinv h
    exact ⟨v', .inr hchain⟩
  | host a call =>
    obtain ⟨dev', hcall, rfl⟩ := map_eq_some_iff.mp h
    have hmem : a ∈ s.dev.heap := enabled_of_step S (e := .host a call) hcall
    obtain ⟨m, hm⟩ := Heap.exists_lookup hmem
    have hn := hinv.rep.node_of_lookup hm
    obtain ⟨dev'', v', hd, hr, hwf, hg, -, -, hdev⟩ := hostCall_spec hinv.rep hinv.wf hn call
    obtain rfl : dev'' = dev' := some.inj (hd.symm.trans hcall)
    exact ⟨v', .single (.host hn hg) ⟨hr, hwf, by rw [hdev]; exact hinv.low⟩⟩

variable {J : Driver σ → View σ → Prop}

/-- What every silent change keeps, given the driver's invariant on both sides, a
sequence of them keeps. -/
theorem silent_invariant
    (hsilent : ∀ s v s' v', s.Inv v → s'.Inv v' → J s v → DriverEffect s v none s' v' → J s' v')
    {x y : Driver σ × View σ} (h : Relation.ReflTransGen DriverEffect.Silent x y)
    (hinv : x.1.Inv x.2) (hJ : J x.1 x.2) : y.1.Inv y.2 ∧ J y.1 y.2 := by
  induction h with
  | refl => exact ⟨hinv, hJ⟩
  | tail _ hstep ih =>
    obtain ⟨heff, hs⟩ := hstep
    obtain ⟨hinv₁, hJ₁⟩ := ih
    have hinv₂ := hinv₁.of_effect heff hs
    exact ⟨hinv₂, hsilent _ _ _ _ hinv₁ hinv₂ hJ₁ heff⟩

/-- The invariant rule for the driver: what every elementary change keeps, every
event keeps. -/
theorem EventEffect.invariant (h : EventEffect e s v s' v') (hinv : s.Inv v) (hJ : J s v)
    (hsilent : ∀ s v s' v', s.Inv v → s'.Inv v' → J s v → DriverEffect s v none s' v' → J s' v')
    (hrun : ∀ t env, e = .run t env → s'.Inv v' → DriverEffect s v (some t) s' v' → J s' v') :
    s'.Inv v' ∧ J s' v' := by
  rcases h with ⟨t, env, rfl, heff, hs⟩ | hchain
  · have hinv' := hinv.of_effect heff hs
    exact ⟨hinv', hrun t env rfl hinv' heff⟩
  · exact silent_invariant hsilent hchain hinv hJ

/-! ## The open pipes -/

theorem inv_of_reachable (S : Services σ ι) (h : (driverMachine S).Reachable s) : ∃ v, s.Inv v := by
  refine h.invariant (fun s hs => ⟨_, inv_init S hs⟩) ?_
  rintro s e s' - ⟨v, hinv⟩ - hs
  obtain ⟨v', heff⟩ := step_effects S hinv hs
  exact ⟨v', (heff.invariant (J := fun _ _ => True) hinv trivial (by simp) (by simp)).1⟩

/-- The driver and the device agree on the open pipes: the radix tree has the allocated ones, and
their addresses are the channels of the device, one pipe each. -/
theorem open_pipes_agree (S : Services σ ι) (h : (driverMachine S).Reachable s) (p : BitVec 32) :
    (s.radix p = true ↔ (s.objs p).isSome) ∧
    ((s.objs p).isSome ↔ ∃! a, ∃ n, s.dev.heap.lookup a = some n ∧ n.channel = channelOf p) := by
  obtain ⟨v, hinv⟩ := inv_of_reachable S h
  refine ⟨hinv.radix_iff p, fun hp => ?_, fun ⟨a, ⟨n, hn, hch⟩, _⟩ => ?_⟩
  · obtain ⟨g, hg⟩ := isSome_iff_exists.1 hp
    obtain ⟨a, _, hnode, hch⟩ := hinv.objs_open p g hg
    obtain ⟨n, hn, rfl⟩ := hinv.rep.lookup_of_node hnode
    refine ⟨a, ⟨n, hn, hch⟩, fun b ⟨m, hm, hch'⟩ => ?_⟩
    exact hinv.wf.channel_inj b a _ _ (hinv.rep.node_of_lookup hm) hnode (hch'.trans hch.symm)
  · obtain ⟨q, g, -, hq, hg⟩ := hinv.node_objs a _ (hinv.rep.node_of_lookup hn)
    rw [channelOf_inj (hch.symm.trans hq), hg]
    rfl

/-- Guest memory that holds `pipe:x`, and an allocator that returns `fresh`. -/
def nameBus (fresh : Addr) : BusIn Unit where
  params := ⟨0, 0, 0, 0, 0, 0⟩
  ram := fun _ size => [0x70, 0x69, 0x70, 0x65, 0x3a, 0x78, 0x00].take size
  ext := ()
  fresh := fresh

/-- The driver after a probe without a parameter block. -/
def probedDriver : Driver Unit where
  dev := .reset
  aps := false
  version := 1
  radix _ := false
  objs _ := none
  tasks := ∅

theorem probedDriver_init (S : Services Unit Unit) : (driverMachine S).init probedDriver :=
  ⟨nameBus 0, none, rfl⟩

theorem open_pipes_agree_one :
    ∃ s, (driverMachine noServices).run probedDriver [.openFile 1 (nameBus 0)] = some s ∧
      (s.objs 1).isSome ∧ ∃! a, ∃ n, s.dev.heap.lookup a = some n ∧ n.channel = channelOf 1 := by
  obtain ⟨s, hs, hreach, hobj⟩ := Machine.Reachable.exists_of_run
    (.init (probedDriver_init noServices)) [.openFile 1 (nameBus 0)]
    (P := fun s => (s.objs 1).isSome) (by decide +kernel)
  exact ⟨s, hs, hobj, (open_pipes_agree noServices hreach 1).2.1 hobj⟩

end QemuAndroid.GoldfishPipe
