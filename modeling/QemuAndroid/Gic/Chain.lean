import QemuAndroid.Gic.Outputs
import QemuAndroid.Lib.Threaded

/-!
# The interrupts that are active on a CPU

`running_irq` and `last_active` thread a stack of interrupts for each CPU.  An acknowledgement
pushes an interrupt and `gic_complete_irq` takes one out, wherever it is.  The stack is kept as long
as no interrupt is acknowledged that is on it; one whose priority the guest has raised in the
meantime can be, and then the way down goes round in a circle.  In a run in which the guest leaves
the priorities of active interrupts alone none is (`ackFresh_of_reach`).
-/

namespace QemuAndroid.Gic

open Lib Function List Nat Option

namespace GicState

variable {g : GicConfig} {s s' : GicState} {cpu irq : Nat} {secure : Bool}

/-- The interrupts on the way from `running_irq` down. -/
def Chain (s : GicState) (cpu : Nat) (l : List Nat) : Prop :=
  Threaded (s.lastActive · cpu) 1023 (s.runningIrq cpu) l

/-- The priorities get worse from the running interrupt down. -/
structure Graded (s : GicState) (cpu : Nat) (l : List Nat) : Prop where
  sorted : l.Pairwise fun i j => (s.getPriority i cpu).toNat < (s.getPriority j cpu).toNat
  running : ∀ i ∈ l, s.runningPriority cpu ≤ (s.getPriority i cpu).toNat

/-- The stack of every CPU ends, and has interrupts of the device at most once, in the order of the
priorities if those are kept. -/
def Stacked (g : GicConfig) (kept : Prop) (s : GicState) : Prop :=
  ∀ cpu < g.numCpu, ∃ l, s.Chain cpu l ∧ l.Nodup ∧ (∀ i ∈ l, i < g.numIrq) ∧
    (kept → s.Graded cpu l)

/-- No interrupt is acknowledged that is active already. -/
def AckFresh (g : GicConfig) (s : GicState) : Event → Prop
  | .access cpu secure (.cpuRead 0x0c) =>
    s.gicGetCurrentPendingIrq g cpu secure < gicMaxirq →
    (s.getPriority (s.gicGetCurrentPendingIrq g cpu secure) cpu).toNat < s.runningPriority cpu →
    ¬Passes (s.lastActive · cpu) 1023 (s.gicGetCurrentPendingIrq g cpu secure) (s.runningIrq cpu)
  | _ => True

/-- The priority of no active interrupt is written. -/
def PriorityKept (g : GicConfig) (s : GicState) (e : Event) : Prop :=
  ∀ cpu < g.numCpu, ∀ irq, Passes (s.lastActive · cpu) 1023 irq (s.runningIrq cpu) →
    ¬WritesPriority g irq e

/-! ## The loop of `gic_complete_irq` -/

theorem findAbove_of_threaded {next : Nat → Nat} {tmp fuel : Nat} {l : List Nat}
    (h : Threaded next 1023 tmp (tmp :: l)) (hfuel : l.length < fuel) :
    irq ∉ l ∧ findAbove next irq fuel tmp = some none ∨
      ∃ x ∈ tmp :: l, findAbove next irq fuel tmp = some (some x) ∧ next x = irq ∧ irq ≠ 1023 := by
  induction l generalizing tmp fuel with
  | nil =>
    obtain ⟨fuel, rfl⟩ := exists_eq_succ_of_ne_zero (ne_of_gt hfuel)
    exact .inl ⟨not_mem_nil, if_pos h.2.2⟩
  | cons b l ih =>
    obtain ⟨fuel, rfl⟩ := exists_eq_succ_of_ne_zero (ne_of_gt (zero_lt_of_lt hfuel))
    obtain ⟨-, -, h⟩ := h
    obtain ⟨rfl, hne, -⟩ := id h
    rw [findAbove, if_neg hne]
    by_cases hirq : next tmp = irq
    · rw [if_pos hirq]
      exact .inr ⟨tmp, mem_cons_self, rfl, hirq, hirq ▸ hne⟩
    rw [if_neg hirq]
    rcases ih h (lt_of_succ_lt_succ hfuel) with ⟨hnot, hfind⟩ | ⟨x, hx, hfind⟩
    · exact .inl ⟨not_mem_cons_of_ne_of_not_mem (Ne.symm hirq) hnot, hfind⟩
    · exact .inr ⟨x, mem_cons_of_mem _ hx, hfind⟩

/-! ## Steps -/

theorem column_self (a : Nat → Nat → Nat) (i cpu v : Nat) :
    (store2 a i cpu v · cpu) = update (a · cpu) i v := by
  funext x
  by_cases hx : x = i
  · subst hx
    simp
  · simp [hx]

theorem column_of_ne {c cpu : Nat} (h : c ≠ cpu) (a : Nat → Nat → Nat) (i v : Nat) :
    (store2 a i cpu v · c) = (a · c) := by
  simp [h]

variable {l : List Nat}

theorem gicSetRunningIrq_lastActive : (s.gicSetRunningIrq g cpu irq).lastActive = s.lastActive :=
  gicUpdate_lastActive

theorem gicSetRunningIrq_runningIrq :
    (s.gicSetRunningIrq g cpu irq).runningIrq = update s.runningIrq cpu irq :=
  gicUpdate_runningIrq

theorem gicSetRunningIrq_runningPriority : (s.gicSetRunningIrq g cpu irq).runningPriority =
    update s.runningPriority cpu (if irq = 1023 then 0x100 else (s.getPriority irq cpu).toNat) :=
  gicUpdate_runningPriority

namespace Graded

variable (h : s.Graded cpu l)
include h

theorem congr (hrun : s'.runningPriority cpu = s.runningPriority cpu)
    (hprio : ∀ i ∈ l, s'.getPriority i = s.getPriority i) : s'.Graded cpu l where
  sorted := h.sorted.imp_of_mem fun hi hj hlt => by rwa [hprio _ hi, hprio _ hj]
  running := fun i hi => by
    rw [hrun, hprio i hi]
    exact h.running i hi

theorem push (hlt : (s.getPriority irq cpu).toNat < s.runningPriority cpu)
    (hprio : s'.getPriority = s.getPriority)
    (hrun : s'.runningPriority cpu = (s.getPriority irq cpu).toNat) :
    s'.Graded cpu (irq :: l) := by
  have hall (i : Nat) (hi : i ∈ l) : (s.getPriority irq cpu).toNat < (s.getPriority i cpu).toNat :=
    lt_of_lt_of_le hlt (h.running i hi)
  constructor
  · rw [hprio]
    exact pairwise_cons.2 ⟨hall, h.sorted⟩
  · rw [hprio, hrun]
    exact forall_mem_cons.2 ⟨le_refl _, fun i hi => (hall i hi).le⟩

/-- The running priority is kept, or is that of the interrupt that runs now. -/
theorem sublist {l' : List Nat} (hsub : l' <+ l) (hprio : s'.getPriority = s.getPriority)
    (hl' : s'.Chain cpu l') (hrun : s'.runningPriority cpu = s.runningPriority cpu ∨
      s'.runningPriority cpu = if s'.runningIrq cpu = 1023 then 0x100
        else (s.getPriority (s'.runningIrq cpu) cpu).toNat) : s'.Graded cpu l' := by
  have hsorted := h.sorted.sublist hsub
  refine ⟨by rwa [hprio], fun i hi => ?_⟩
  rw [hprio]
  rcases hrun with hsame | htop
  · exact hsame ▸ h.running i (hsub.subset hi)
  cases l' with
  | nil => cases hi
  | cons x l' =>
    obtain ⟨hx, hne, -⟩ := hl'
    rw [htop, if_neg hne, hx]
    rcases mem_cons.1 hi with rfl | hi
    · exact le_refl _
    · exact ((pairwise_cons.1 hsorted).1 i hi).le

end Graded

theorem complete_frame (hok : s.gicCompleteIrq g cpu irq secure = .ok s') (c : Nat) :
    s'.getPriority = s.getPriority ∧ (s'.runningPriority c = s.runningPriority c ∨
      s'.runningPriority c = if s'.runningIrq c = 1023 then 0x100
        else (s.getPriority (s'.runningIrq c) c).toNat) := by
  rcases complete_cases hok with ⟨-, rfl⟩ |
    ⟨update, t, -, -, -, -, rfl, ⟨-, rfl⟩ | ⟨-, above, u, -, rfl, rfl⟩⟩
  · exact ⟨rfl, .inl rfl⟩
  · have ht : (if update then s.setPending irq (cpuMask cpu) else s).stack = s.stack := by
      split <;> rfl
    have hprio : GicState.getPriority _ = s.getPriority := congrArg (·.2.2.2) ht
    refine ⟨gicUpdate_getPriority.trans hprio, ?_⟩
    rw [gicSetRunningIrq_runningPriority, gicSetRunningIrq_runningIrq]
    by_cases hc : c = cpu
    · subst hc
      rw [update_self, update_self]
      exact .inr (by rw [hprio])
    · exact .inl ((update_of_ne hc _ _).trans (congrFun (congrArg (·.2.2.1) ht) c))
  · cases update with
    | false => exact ⟨rfl, .inl rfl⟩
    | true => exact ⟨gicUpdate_getPriority, .inl (congrFun gicUpdate_runningPriority c)⟩

theorem length_lt (hnd : l.Nodup) (hlt : ∀ i ∈ l, i < g.numIrq) : l.length < gicMaxirq + 1 := by
  have hsub : l ⊆ range g.numIrq := fun i hi => mem_range.2 (hlt i hi)
  have hle := (hnd.subperm hsub).length_le
  rw [length_range] at hle
  exact lt_succ_of_le (le_trans hle g.numIrq_le)

/-- An end of interrupt takes exactly its interrupt out of the stack, unless it is a Non-secure one
for an interrupt of Group 0. -/
theorem Chain.complete (h : s.Chain cpu l) (hnd : l.Nodup) (hlt : ∀ i ∈ l, i < g.numIrq)
    (hok : s.gicCompleteIrq g cpu irq secure = .ok s') :
    s'.Chain cpu (if g.nonSecure secure && !s.testGroup irq cpu then l else l.erase irq) ∧
      ∀ c l', c ≠ cpu → s.Chain c l' → s'.Chain c l' := by
  rcases complete_cases hok with ⟨hwhy, rfl⟩ | ⟨update, t, -, hrun, hns, -, rfl, hcase⟩
  · refine ⟨?_, fun c l' _ hc => hc⟩
    split
    · exact h
    rename_i hns
    rw [erase_of_not_mem fun hmem => ?_]
    · exact h
    rcases hwhy with hbig | hnone | hignored
    · exact absurd (hlt irq hmem) (Nat.not_lt_of_le hbig)
    · rw [Chain, hnone] at h
      cases l with
      | nil => exact not_mem_nil hmem
      | cons x l => exact h.2.1 rfl
    · exact hns hignored
  · rw [if_neg (by simp [hns])]
    obtain ⟨l, rfl⟩ := h.exists_cons hrun
    have ht : (if update then s.setPending irq (cpuMask cpu) else s).lastActive = s.lastActive ∧
        (if update then s.setPending irq (cpuMask cpu) else s).runningIrq = s.runningIrq := by
      split <;> exact ⟨rfl, rfl⟩
    rcases hcase with ⟨hirq, rfl⟩ | ⟨hne, above, u, habove, hu, hs'⟩
    · rw [hirq, erase_cons_head, ← hirq]
      refine ⟨?_, fun c l' hc hl' => ?_⟩
      · rw [Chain, gicSetRunningIrq_lastActive, gicSetRunningIrq_runningIrq, ht.1,
          update_self, hirq]
        exact h.2.2
      · rwa [Chain, gicSetRunningIrq_lastActive, gicSetRunningIrq_runningIrq, ht.1, ht.2,
          update_of_ne hc]
    have hactive : s'.lastActive =
        above.elim s.lastActive (store2 s.lastActive · cpu (s.lastActive irq cpu)) ∧
        s'.runningIrq = s.runningIrq := by
      rw [hs', hu]
      cases update <;> simp [setPending, modifyIrq]
    simp only [Chain, hactive.1, hactive.2]
    have hfuel : l.length < gicMaxirq + 1 := lt_of_succ_lt (length_lt hnd hlt)
    rcases @findAbove_of_threaded irq _ _ _ _ h hfuel with ⟨hnot, hnone⟩ |
      ⟨x, hx, hsome, hxirq, hne'⟩
    · obtain rfl := some.inj (habove.symm.trans hnone)
      rw [erase_of_not_mem fun hmem => (mem_cons.1 hmem).elim hne hnot]
      exact ⟨h, fun c l' _ hc => hc⟩
    obtain rfl := some.inj (habove.symm.trans hsome)
    refine ⟨?_, fun c l' hc hl' => ?_⟩
    · rw [Option.elim, column_self]
      have hun := h.unlink hnd hx (by rw [hxirq]; exact hne')
      rwa [hxirq] at hun
    · rw [Option.elim, column_of_ne hc]
      exact hl'

theorem exists_complete (h : s.Chain cpu l) (hnd : l.Nodup) (hlt : ∀ i ∈ l, i < g.numIrq)
    (irq : Nat) (secure : Bool) : ∃ s', s.gicCompleteIrq g cpu irq secure = .ok s' := by
  have hend : ∀ (t : GicState) (update : Bool), t.lastActive = s.lastActive →
      t.runningIrq = s.runningIrq → s.runningIrq cpu ≠ 1023 →
      ∃ s', t.complete g cpu irq update = .ok s' := by
    intro t update hactive hrunning hrun
    obtain ⟨l, rfl⟩ := h.exists_cons hrun
    unfold complete
    rw [hactive, hrunning]
    split
    · have hfuel : l.length < gicMaxirq + 1 := lt_of_succ_lt (length_lt hnd hlt)
      rcases @findAbove_of_threaded irq _ _ _ _ h hfuel with ⟨-, hf⟩ | ⟨x, -, hf, -⟩
      · rw [hf]
        exact ⟨_, rfl⟩
      · rw [hf]
        exact ⟨_, rfl⟩
    · exact ⟨_, rfl⟩
  unfold gicCompleteIrq
  dsimp only
  repeat' split
  all_goals first
    | exact ⟨_, rfl⟩
    | exact hend _ _ rfl rfl ‹_›

variable {kept : Prop} {e : Event}

namespace Stacked

variable (h : s.Stacked g kept)
include h

theorem acknowledge {ret : Nat} (hset : s.Settled g)
    (hfresh : AckFresh g s (.access cpu secure (.cpuRead 0x0c)))
    (hok : s.gicAcknowledgeIrq g cpu secure = .ok (ret, s')) : s'.Stacked g kept := by
  rcases acknowledge_cases hok with rfl | ⟨irq, t, hirq, hmax, hlower, ht, rfl⟩
  · exact h
  intro c hc
  obtain ⟨l, hl, hnd, hlt, hgraded⟩ := h c hc
  obtain ⟨htl, htr, htrun, htp⟩ := takePending_frame ht
  have hprio : (t.gicSetRunningIrq g cpu irq).getPriority = s.getPriority :=
    gicUpdate_getPriority.trans htp
  have hstop : irq ≠ 1023 := fun h0 => absurd hmax (by rw [h0]; decide)
  have hrun : (t.gicSetRunningIrq g cpu irq).runningPriority =
      update s.runningPriority cpu (s.getPriority irq cpu).toNat := by
    rw [gicSetRunningIrq_runningPriority, if_neg hstop, htp, htrun]
  simp only [Chain, gicSetRunningIrq_lastActive, gicSetRunningIrq_runningIrq, htl, htr]
  by_cases hcpu : c = cpu
  · -- the interrupt is pushed
    subst hcpu
    subst hirq
    have hnot : s.gicGetCurrentPendingIrq g c secure ∉ l :=
      fun hmem => hfresh hmax hlower (hl.passes_iff.2 hmem)
    refine ⟨_ :: l, ?_, nodup_cons.2 ⟨hnot, hnd⟩, ?_, fun hk => ?_⟩
    · rw [column_self, update_self]
      exact hl.push hnot hstop
    · exact forall_mem_cons.2 ⟨(pending_wins hset hc hmax).lt, hlt⟩
    · exact (hgraded hk).push hlower hprio (by rw [hrun, update_self])
  · rw [column_of_ne hcpu, update_of_ne hcpu]
    refine ⟨l, hl, hnd, hlt, fun hk => (hgraded hk).congr ?_ fun i _ => congrFun hprio i⟩
    rw [hrun, update_of_ne hcpu]

theorem complete (hcpu : cpu < g.numCpu) (hok : s.gicCompleteIrq g cpu irq secure = .ok s') :
    s'.Stacked g kept := by
  intro c hc
  obtain ⟨l, hl, hnd, hlt, hgraded⟩ := h cpu hcpu
  obtain ⟨hself, hother⟩ := hl.complete hnd hlt hok
  obtain ⟨hprio, hrun⟩ := complete_frame hok c
  by_cases hc' : c = cpu
  · subst hc'
    have hsub : (if g.nonSecure secure && !s.testGroup irq c then l else l.erase irq) <+ l := by
      split
      · exact .refl l
      · exact erase_sublist
    exact ⟨_, hself, hnd.sublist hsub, fun i hi => hlt i (hsub.subset hi),
      fun hk => (hgraded hk).sublist hsub hprio hself hrun⟩
  · obtain ⟨l', hl', hnd', hlt', hgraded'⟩ := h c hc
    exact ⟨l', hother c l' hc' hl', hnd', hlt',
      fun hk => (hgraded' hk).sublist (.refl l') hprio (hother c l' hc' hl') hrun⟩

theorem step (hset : s.Settled g) (hp : e.Possible g) (hfresh : AckFresh g s e)
    (hkept : kept → PriorityKept g s e) (hstep : Stepped g s e s') : s'.Stacked g kept := by
  rcases hstep.frame with ⟨-, hstack⟩ | ⟨cpu, secure, ret, rfl, hok⟩ |
    ⟨cpu, secure, value, rfl, hok⟩
  · intro cpu hcpu
    obtain ⟨l, hl, hnd, hlt, hgraded⟩ := h cpu hcpu
    refine ⟨l, by rwa [Chain, hstack.lastActive, hstack.runningIrq], hnd, hlt, fun hk => ?_⟩
    refine (hgraded hk).congr (congrFun hstack.runningPriority cpu) fun i hi => ?_
    exact hstack.getPriority i (hkept hk cpu hcpu i (hl.passes_iff.2 hi))
  · exact h.acknowledge hset hfresh hok
  · exact h.complete hp hok

end Stacked

theorem stacked_poweredOn (g : GicConfig) : (poweredOn g).Stacked g kept := by
  intro cpu hcpu
  refine ⟨[], ?_, nodup_nil, nofun, fun _ => ⟨.nil, nofun⟩⟩
  unfold poweredOn
  split <;> exact if_pos hcpu

theorem stacked_of_reach (h : (gicMachine g).Reach (AckFresh g) s) : s.Stacked g False := by
  have hset : ∀ {s}, (gicMachine g).Reach (AckFresh g) s → s.Settled g :=
    fun h => settled_of_reachable (h.mono fun _ _ _ => trivial)
  refine h.invariant ?_ fun s e s' hs hst hok hstep =>
    hst.step (hset hs) (step_cases hstep).1 hok nofun (step_cases hstep).2
  rintro _ rfl
  exact stacked_poweredOn g

/-- What is acknowledged has a better priority than all that is active. -/
theorem Stacked.ackFresh (h : s.Stacked g True) (hp : e.Possible g) : AckFresh g s e := by
  unfold AckFresh
  split
  · intro _ hlower hpasses
    obtain ⟨l, hl, -, -, hgraded⟩ := h _ hp
    exact absurd ((hgraded trivial).running _ (hl.passes_iff.1 hpasses)) (Nat.not_le.2 hlower)
  · trivial

/-- No interrupt is acknowledged twice in a run that writes no priority of an active interrupt. -/
theorem ackFresh_of_reach (h : (gicMachine g).Reach (PriorityKept g) s) :
    (gicMachine g).Reach (AckFresh g) s ∧ s.Stacked g True := by
  induction h with
  | init hs =>
    obtain rfl := hs
    exact ⟨.init rfl, stacked_poweredOn g⟩
  | @step s e s' _ hkept hs ih =>
    obtain ⟨hreach, hstacked⟩ := ih
    obtain ⟨hp, hstep⟩ := step_cases hs
    have hfresh := hstacked.ackFresh hp
    have hset := settled_of_reachable (hreach.mono fun _ _ _ => trivial)
    exact ⟨.step hreach hfresh hs, hstacked.step hset hp hfresh (fun _ => hkept) hstep⟩

/-- **The active interrupts of a CPU are a stack.**  In every run in which no interrupt is
acknowledged that is active on the CPU already, the way from `running_irq` through `last_active`
gets to 1023 and passes no interrupt twice, `gic_complete_irq` ends for every interrupt, and it
takes exactly that interrupt out.  A Non-secure end of interrupt for an interrupt of Group 0 is
ignored. -/
theorem active_chain (h : (gicMachine g).Reach (AckFresh g) s) (hcpu : cpu < g.numCpu) :
    ∃ l, s.Chain cpu l ∧ l.Nodup ∧ ∀ irq secure, ∃ s', s.gicCompleteIrq g cpu irq secure = .ok s' ∧
      s'.Chain cpu (if g.nonSecure secure && !s.testGroup irq cpu then l else l.erase irq) := by
  obtain ⟨l, hl, hnd, hlt, -⟩ := stacked_of_reach h cpu hcpu
  refine ⟨l, hl, hnd, fun irq secure => ?_⟩
  obtain ⟨s', hok⟩ := exists_complete hl hnd hlt irq secure
  exact ⟨s', hok, (hl.complete hnd hlt hok).1⟩

/-- Give the interrupt 16 the priority `0x80`, and raise it. -/
def raise16 : List Event :=
  [.access 0 true (.distWrite 0x410 0x80 1), .access 0 true (.distWrite 0x000 1 1),
    .access 0 true (.cpuWrite 0x00 1), .access 0 true (.cpuWrite 0x04 0xff),
    .access 0 true (.distWrite 0x102 1 1), .setIrq 16 1]

/-- Acknowledge it, raise its priority, and acknowledge it again. -/
def acknowledge16 : List Event :=
  [.access 0 true (.cpuRead 0x0c), .access 0 true (.distWrite 0x410 0x40 1),
    .access 0 true (.cpuRead 0x0c)]

/-- Acknowledge it, raise the interrupt 17, and acknowledge that one. -/
def nest17 : List Event :=
  [.access 0 true (.cpuRead 0x0c), .access 0 true (.distWrite 0x102 2 1), .setIrq 17 1,
    .access 0 true (.cpuRead 0x0c)]

/-- An interrupt that is acknowledged twice is below itself: no list of active interrupts ends, and
the loop of `gic_complete_irq` for another one does not either. -/
theorem active_circle : ∃ s, (gicMachine smallGic).Reachable s ∧ (¬∃ l, s.Chain 0 l) ∧
    (∀ fuel, findAbove (s.lastActive · 0) 17 fuel (s.runningIrq 0) = none) ∧
    s.gicCompleteIrq smallGic 0 17 true = .error .hang := by
  have hrun : ((gicMachine smallGic).run (poweredOn smallGic) (raise16 ++ acknowledge16)).map
    (fun s =>
      (s.runningIrq 0, s.lastActive 16 0, faultOf (s.gicCompleteIrq smallGic 0 17 true))) =
      some (16, 16, some .hang) := by decide +kernel
  obtain ⟨s, hs, hproj⟩ := map_eq_some_iff.1 hrun
  simp only [Prod.mk.injEq] at hproj
  obtain ⟨hirq, hnext, hhang⟩ := hproj
  refine ⟨s, Machine.Reachable.of_run (.init rfl) hs, ?_, fun fuel => ?_, eq_error_of_faultOf hhang⟩
  · rintro ⟨l, hl⟩
    rw [Chain, hirq] at hl
    induction l with
    | nil => cases hl
    | cons x l ih =>
      refine ih ?_
      have hbelow := hl.2.2
      dsimp only at hbelow
      rwa [hnext] at hbelow
  · rw [hirq]
    induction fuel with
    | zero => rfl
    | succ fuel ih =>
      rw [findAbove, hnext]
      exact ih

theorem active_chain_nested : ∃ s s', (gicMachine smallGic).Reach (AckFresh smallGic) s ∧
    s.Chain 0 [17, 16] ∧ s.gicCompleteIrq smallGic 0 16 true = .ok s' ∧ s'.Chain 0 [17] := by
  have hrun : ((gicMachine smallGic).run (poweredOn smallGic) (raise16 ++ nest17)).map
      (fun s => (s.runningIrq 0, s.lastActive 17 0, s.lastActive 16 0)) = some (17, 16, 1023) := by
    decide +kernel
  obtain ⟨s, hs, hproj⟩ := map_eq_some_iff.1 hrun
  simp only [Prod.mk.injEq] at hproj
  obtain ⟨hirq, h17, h16⟩ := hproj
  have hmeets : (gicMachine smallGic).Meets (PriorityKept smallGic) (poweredOn smallGic)
      (raise16 ++ nest17) := by
    refine ⟨fun cpu hcpu irq hp => ?_, fun s _ => Machine.meets_of_forall s ?_⟩
    · -- nothing is active yet
      have hempty : (poweredOn smallGic).Chain cpu [] := if_pos hcpu
      exact absurd (hempty.passes_iff.1 hp) not_mem_nil
    · intro _ e he _ _ irq _
      simp only [nest17, mem_cons, append_eq, cons_append, nil_append, not_mem_nil, or_false] at he
      obtain rfl | rfl | rfl | rfl | rfl | rfl | rfl | rfl | rfl := he
      all_goals first
        | exact id
        | rintro ⟨b, hb, hr⟩
          obtain rfl := mem_singleton.1 hb
          cases hr
  have hreach := (ackFresh_of_reach (.of_run (.init rfl) hmeets hs)).1
  have hcpu : 0 < smallGic.numCpu := by decide
  obtain ⟨l, hl, -, hcomplete⟩ := active_chain hreach hcpu
  have hnested : s.Chain 0 [17, 16] := by
    simp [Chain, Threaded, hirq, h17, h16]
  obtain rfl := hnested.unique hl
  obtain ⟨s', hok, hl'⟩ := hcomplete 16 true
  exact ⟨s, s', hreach, hl, hok, hl'⟩

end GicState

end QemuAndroid.Gic
