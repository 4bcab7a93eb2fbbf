import QemuAndroid.Gic.Steps

/-!
# The outputs of the interrupt controller

`gic_update` finds the first interrupt of the best priority among those that are enabled, pending
and targeted at a CPU.  Every access that changes what this depends on ends with it, so the outputs
are always in step with the registers (`Settled`).  An interrupt that could be delivered is
signalled exactly when it comes before all the interrupts of a disabled group: the search does not
look at the groups.
-/

namespace QemuAndroid.Gic

open Lib Nat List

namespace GicState

variable {g : GicConfig} {s s' : GicState} {cpu irq : Nat}

/-! ## The search -/

/-- The search takes `i` rather than `j`. -/
def Precedes (s : GicState) (cpu i j : Nat) : Prop :=
  s.getPriority i cpu < s.getPriority j cpu ∨ s.getPriority i cpu = s.getPriority j cpu ∧ i < j

/-- The interrupt is enabled, pending and targeted at the CPU, and comes before all others that
are. -/
structure Wins (g : GicConfig) (s : GicState) (cpu irq : Nat) : Prop where
  lt : irq < g.numIrq
  candidate : s.candidate g cpu irq = true
  first : ∀ i < g.numIrq, s.candidate g cpu i = true → i = irq ∨ s.Precedes cpu irq i

theorem Precedes.asymm {i j : Nat} (h : s.Precedes cpu i j) : ¬s.Precedes cpu j i := by
  rintro (h' | ⟨heq, h'⟩)
  · rcases h with h | ⟨heq, -⟩
    · exact BitVec.lt_asymm h h'
    · rw [heq] at h'
      exact BitVec.lt_irrefl _ h'
  rcases h with h | ⟨-, h⟩
  · rw [heq] at h
    exact BitVec.lt_irrefl _ h
  · exact lt_asymm h h'

theorem Precedes.le {i j : Nat} (h : s.Precedes cpu i j) :
    (s.getPriority i cpu).toNat ≤ (s.getPriority j cpu).toNat := by
  rcases h with h | ⟨h, -⟩
  · exact le_of_lt (BitVec.lt_def.1 h)
  · exact le_of_eq (congrArg BitVec.toNat h)

theorem Wins.unique {i j : Nat} (hi : Wins g s cpu i) (hj : Wins g s cpu j) : i = j := by
  rcases hi.first j hj.lt hj.candidate with rfl | hij
  · rfl
  · rcases hj.first i hi.lt hi.candidate with rfl | hji
    · rfl
    · exact absurd hji hij.asymm

theorem bestIrq_cases (g : GicConfig) (s : GicState) (cpu : Nat) :
    s.bestIrq g cpu = (0x100, 1023) ∧ (∀ i < g.numIrq, s.candidate g cpu i = false) ∨
      ∃ irq, s.bestIrq g cpu = ((s.getPriority irq cpu).toNat, irq) ∧ Wins g s cpu irq := by
  -- the first `n` interrupts have been looked at
  suffices h : ∀ n, ∀ best, (range n).foldl (fun best irq =>
      if s.candidate g cpu irq ∧ (s.getPriority irq cpu).toNat < best.1
      then ((s.getPriority irq cpu).toNat, irq) else best) (0x100, 1023) = best →
      best = (0x100, 1023) ∧ (∀ i < n, s.candidate g cpu i = false) ∨
        ∃ irq < n, best = ((s.getPriority irq cpu).toNat, irq) ∧ s.candidate g cpu irq = true ∧
          ∀ i < n, s.candidate g cpu i = true → i = irq ∨ s.Precedes cpu irq i by
    rcases h _ _ rfl with hnone | ⟨irq, hlt, hbest, hcand, hfirst⟩
    · exact .inl hnone
    · exact .inr ⟨irq, hbest, hlt, hcand, hfirst⟩
  intro n
  induction n with
  | zero =>
    rintro _ rfl
    exact .inl ⟨rfl, fun i hi => absurd hi (not_lt_zero i)⟩
  | succ n ih =>
    intro best hbest
    rw [List.range_succ, foldl_append, foldl_cons] at hbest
    have hsmall : (s.getPriority n cpu).toNat < 0x100 := (s.getPriority n cpu).isLt
    rcases ih _ rfl with ⟨hold, hnone⟩ | ⟨irq, hlt, hold, hcand, hfirst⟩
    · rw [hold] at hbest
      cases hn : s.candidate g cpu n with
      | false =>
        rw [if_neg (by simp [hn])] at hbest
        exact .inl ⟨hbest.symm, forall_lt_succ_right.2 ⟨hnone, hn⟩⟩
      | true =>
        rw [if_pos ⟨hn, hsmall⟩] at hbest
        refine .inr ⟨n, lt_succ_self n, hbest.symm, hn,
          forall_lt_succ_right.2 ⟨fun i hi hi' => ?_, fun _ => .inl rfl⟩⟩
        rw [hnone i hi] at hi'
        cases hi'
    · rw [hold] at hbest
      by_cases hn : s.candidate g cpu n = true ∧
        (s.getPriority n cpu).toNat < (s.getPriority irq cpu).toNat
      · rw [if_pos hn] at hbest
        refine .inr ⟨n, lt_succ_self n, hbest.symm, hn.1,
          forall_lt_succ_right.2 ⟨fun i hi hi' => .inr (.inl ?_), fun _ => .inl rfl⟩⟩
        have hless : s.getPriority n cpu < s.getPriority irq cpu := BitVec.lt_def.2 hn.2
        rcases hfirst i hi hi' with rfl | hlt' | ⟨heq, -⟩
        · exact hless
        · exact BitVec.lt_trans hless hlt'
        · exact heq ▸ hless
      rw [if_neg hn] at hbest
      refine .inr ⟨irq, lt_succ_of_lt hlt, hbest.symm, hcand,
        forall_lt_succ_right.2 ⟨hfirst, fun hi' => .inr ?_⟩⟩
      rcases lt_or_eq_of_le (Nat.le_of_not_lt fun h => hn ⟨hi', h⟩) with h | h
      · exact .inl (BitVec.lt_def.2 h)
      · exact .inr ⟨BitVec.eq_of_toNat_eq h, hlt⟩

/-! ## Updates -/

/-- The outputs are what `gic_update` would set them to. -/
structure Settled (g : GicConfig) (s : GicState) : Prop where
  outputs : ∀ cpu < g.numCpu, s.outputsOf g cpu =
    (s.currentPending cpu, s.parentIrq cpu, s.parentFiq cpu)
  running : ∀ cpu < g.numCpu, s.runningPriority cpu ≤ 0x100

section

variable (h : ∀ cpu < g.numCpu, s.runningPriority cpu ≤ 0x100)
include h

theorem settled_gicUpdate : (s.gicUpdate g).Settled g := by
  refine ⟨fun cpu hcpu => ?_, fun cpu hcpu => ?_⟩
  · rw [gicUpdate_eq]
    dsimp only
    rw [if_pos hcpu, if_pos hcpu, if_pos hcpu]
    rfl
  · rw [gicUpdate_runningPriority]
    exact h cpu hcpu

theorem settled_gicSetRunningIrq (cpu irq : Nat) : (s.gicSetRunningIrq g cpu irq).Settled g := by
  refine settled_gicUpdate fun c hc => ?_
  by_cases hcpu : c = cpu
  · subst hcpu
    dsimp only
    rw [Function.update_self]
    split
    · exact le_refl _
    · exact le_of_lt (s.getPriority irq c).isLt
  · dsimp only
    rw [Function.update_of_ne hcpu]
    exact h c hc

end

theorem candidate_poweredOn (g : GicConfig) (cpu irq : Nat) :
    (poweredOn g).candidate g cpu irq = false := by
  have hstate : ((poweredOn g).irqState irq).pending = 0 ∧
      ((poweredOn g).irqState irq).level = 0 := by
    unfold poweredOn
    split <;> exact ⟨rfl, rfl⟩
  unfold candidate gicTestPending
  rw [hstate.1, hstate.2]
  simp [meets]

theorem settled_poweredOn (g : GicConfig) : (poweredOn g).Settled g := by
  have hprio : ∀ cpu < g.numCpu, (poweredOn g).runningPriority cpu = 0x100 := by
    intro cpu hcpu
    unfold poweredOn
    split <;> exact if_pos hcpu
  refine ⟨fun cpu hcpu => ?_, fun cpu hcpu => le_of_eq (hprio cpu hcpu)⟩
  have hnow : ((poweredOn g).currentPending cpu, (poweredOn g).parentIrq cpu,
      (poweredOn g).parentFiq cpu) = (1023, false, false) := by
    unfold poweredOn
    split <;> simp [armGicCommonReset, zeroed, hcpu]
  rw [hnow]
  unfold outputsOf
  split
  · rfl
  rcases bestIrq_cases g (poweredOn g) cpu with ⟨hbest, -⟩ | ⟨irq, -, hwins⟩
  · rw [hbest, hprio cpu hcpu]
    dsimp only
    split
    · rw [if_neg (lt_irrefl _)]
    · rfl
  · exact absurd hwins.candidate (by rw [candidate_poweredOn]; nofun)

theorem Settled.step {e : Event} (h : s.Settled g) (hstep : Stepped g s e s') : s'.Settled g := by
  have hrunning : ∀ {t : GicState}, t.runningPriority = s.runningPriority →
      ∀ cpu < g.numCpu, t.runningPriority cpu ≤ 0x100 := by
    intro t ht
    rw [ht]
    exact h.running
  rcases hstep.frame with ⟨rfl | ⟨t, rfl⟩, hstack⟩ | ⟨cpu, secure, ret, -, hok⟩ |
    ⟨cpu, secure, value, -, hok⟩
  · exact h
  · exact settled_gicUpdate (hrunning (gicUpdate_runningPriority.symm.trans hstack.runningPriority))
  · rcases acknowledge_cases hok with rfl | ⟨irq, t, -, -, -, ht, rfl⟩
    · exact h
    · exact settled_gicSetRunningIrq (hrunning (congrArg (·.2.2.1) (stack_takePending ht))) _ _
  rcases complete_cases hok with ⟨-, rfl⟩ |
    ⟨update, t, -, -, -, -, rfl, ⟨-, rfl⟩ | ⟨-, above, u, -, rfl, rfl⟩⟩
  · exact h
  · refine settled_gicSetRunningIrq (hrunning ?_) _ _
    split <;> rfl
  · cases update with
    | true => exact settled_gicUpdate h.running
    | false => exact ⟨h.outputs, h.running⟩

theorem settled_of_reachable (h : (gicMachine g).Reachable s) : s.Settled g := by
  refine h.invariant ?_ fun s e s' _ hs _ hstep => hs.step (step_cases hstep).2
  rintro _ rfl
  exact settled_poweredOn g

/-- `current_pending` is 1023 or the winner of the search. -/
theorem current_wins (h : s.Settled g) (hcpu : cpu < g.numCpu) :
    s.currentPending cpu = 1023 ∨ Wins g s cpu (s.currentPending cpu) := by
  have hout : (s.outputsOf g cpu).1 = s.currentPending cpu := by rw [h.outputs cpu hcpu]
  rw [← hout]
  unfold outputsOf
  rcases bestIrq_cases g s cpu with ⟨hbest, -⟩ | ⟨w, hbest, hw⟩
  · rw [hbest]
    dsimp only
    repeat' split
    all_goals exact .inl rfl
  rw [hbest]
  dsimp only
  repeat' split
  all_goals first
    | exact .inl rfl
    | exact .inr hw

/-- The interrupt that an acknowledgement finds is the winner of the search. -/
theorem pending_wins {secure : Bool} (h : s.Settled g) (hcpu : cpu < g.numCpu)
    (hirq : s.gicGetCurrentPendingIrq g cpu secure < gicMaxirq) :
    Wins g s cpu (s.gicGetCurrentPendingIrq g cpu secure) := by
  have hcur := current_wins h hcpu
  revert hirq
  unfold gicGetCurrentPendingIrq
  dsimp only
  rcases hcur with hcur | hcur
  · rw [hcur, if_neg fun h0 => absurd h0.1 (by decide)]
    exact fun hirq => absurd hirq (by decide)
  repeat' split
  all_goals first
    | exact fun hirq => absurd hirq (by decide)
    | exact fun _ => hcur

/-! ## Delivery -/

/-- The group of the interrupt is enabled in the distributor and in the interface of the CPU. -/
def GroupEnabled (s : GicState) (cpu irq : Nat) : Prop :=
  s.ctlr.getLsbD (s.testGroup irq cpu).toNat = true ∧
    (s.cpuCtlr cpu).getLsbD (s.testGroup irq cpu).toNat = true

structure Deliverable (g : GicConfig) (s : GicState) (cpu irq : Nat) : Prop where
  lt : irq < g.numIrq
  candidate : s.candidate g cpu irq = true
  group : s.GroupEnabled cpu irq
  mask : (s.getPriority irq cpu).toNat < s.priorityMask cpu
  running : (s.getPriority irq cpu).toNat < s.runningPriority cpu

theorem GroupEnabled.some_group (h : s.GroupEnabled cpu irq) :
    ¬(s.ctlr &&& 3 = 0 ∨ s.cpuCtlr cpu &&& 3 = 0) := by
  have hbit : ∀ (x : BitVec 32) (b : Bool), x.getLsbD b.toNat = true → x &&& 3 ≠ 0 := by
    intro x b hb h0
    have hbit : (x &&& 3).getLsbD b.toNat = (0#32).getLsbD b.toNat := by rw [h0]; rfl
    rw [BitVec.getLsbD_and, hb] at hbit
    cases b <;> exact absurd hbit (by decide)
  rintro (h0 | h0)
  · exact hbit _ _ h.1 h0
  · exact hbit _ _ h.2 h0

/-- An output is high exactly when the winner of the search is to be delivered. -/
theorem outputsOf_high (hrun : s.runningPriority cpu ≤ 0x100) :
    (s.outputsOf g cpu).2.1 = true ∨ (s.outputsOf g cpu).2.2 = true ↔
      ∃ irq, Wins g s cpu irq ∧ Deliverable g s cpu irq := by
  unfold outputsOf
  split
  · rename_i hoff
    exact ⟨by simp, fun ⟨irq, _, hd⟩ => absurd hoff hd.group.some_group⟩
  rcases bestIrq_cases g s cpu with ⟨hbest, hnone⟩ | ⟨w, hbest, hw⟩
  · -- no interrupt at all
    rw [hbest]
    refine ⟨fun hhigh => ?_, fun ⟨irq, hw, _⟩ => ?_⟩
    · dsimp only at hhigh
      rw [if_neg (Nat.not_lt_of_le hrun)] at hhigh
      split at hhigh <;> simp at hhigh
    · exact absurd hw.candidate (by rw [hnone irq hw.lt]; nofun)
  rw [hbest]
  dsimp only
  split
  · rename_i hmask
    split
    · rename_i hprio
      split
      · rename_i hgroup
        refine iff_of_true ?_ ⟨w, hw, hw.lt, hw.candidate, hgroup, hmask, hprio⟩
        split
        · exact .inr rfl
        · exact .inl rfl
      · rename_i hgroup
        refine iff_of_false (by simp) fun ⟨irq, hi, hd⟩ => hgroup ?_
        obtain rfl := hi.unique hw
        exact hd.group
    · rename_i hprio
      refine iff_of_false (by simp) fun ⟨irq, hi, hd⟩ => hprio ?_
      obtain rfl := hi.unique hw
      exact hd.running
  · rename_i hmask
    refine iff_of_false (by simp) fun ⟨irq, hi, hd⟩ => hmask ?_
    obtain rfl := hi.unique hw
    exact hd.mask

/-- **The outputs and the interrupts to be delivered.**  In every state of every run the outputs of
a CPU are as they should be, high when an interrupt is to be delivered to it and low when none is,
exactly if one of those to be delivered comes before all the interrupts that are enabled, pending
and targeted at the CPU but of a disabled group. -/
theorem output_iff_deliverable (h : (gicMachine g).Reachable s) (hcpu : cpu < g.numCpu) :
    (((∃ irq, Deliverable g s cpu irq) → s.parentIrq cpu = true ∨ s.parentFiq cpu = true) ∧
      ((¬∃ irq, Deliverable g s cpu irq) → s.parentIrq cpu = false ∧ s.parentFiq cpu = false)) ↔
    ((∃ irq, Deliverable g s cpu irq) →
      ∃ irq, Deliverable g s cpu irq ∧ ∀ other < g.numIrq, s.candidate g cpu other = true →
        ¬s.GroupEnabled cpu other → s.Precedes cpu irq other) := by
  have hset := settled_of_reachable h
  have hhigh := outputsOf_high (g := g) (hset.running cpu hcpu)
  rw [hset.outputs cpu hcpu] at hhigh
  constructor
  · rintro ⟨hdeliver, -⟩ hex
    obtain ⟨w, hw, hd⟩ := hhigh.1 (hdeliver hex)
    refine ⟨w, hd, fun other hlt hcand hgroup => ?_⟩
    rcases hw.first other hlt hcand with rfl | hp
    · exact absurd hd.group hgroup
    · exact hp
  intro hcond
  refine ⟨fun hex => ?_, fun hnone => ?_⟩
  · obtain ⟨d, hd, hbefore⟩ := hcond hex
    refine hhigh.2 ?_
    rcases bestIrq_cases g s cpu with ⟨-, hnone⟩ | ⟨w, -, hw⟩
    · exact absurd hd.candidate (by rw [hnone d hd.lt]; nofun)
    rcases hw.first d hd.lt hd.candidate with rfl | hp
    · exact ⟨d, hw, hd⟩
    · refine ⟨w, hw, hw.lt, hw.candidate, ?_, lt_of_le_of_lt hp.le hd.mask,
        lt_of_le_of_lt hp.le hd.running⟩
      exact Classical.byContradiction fun hgroup => hp.asymm (hbefore w hw.lt hw.candidate hgroup)
  · rw [← Bool.not_eq_true, ← Bool.not_eq_true, ← not_or]
    exact fun hout => hnone ((hhigh.1 hout).imp fun _ hw => hw.2)

/-- A GICv2 with one CPU and no security extensions. -/
def smallGic : GicConfig where
  numCpu := 1
  numIrq := 32
  revision := 2
  securityExtn := false
  numCpu_le := by decide
  numIrq_le := by decide
  internal_le := by decide
  numIrq_dvd := by decide
  plain := nofun

/-- Enable Group 1 only, put the interrupt 17 in it, and make some of the interrupts 16 to 23
pending. -/
def raiseGroup1 (pending : BitVec 64) : List Event :=
  [.access 0 true (.distWrite 0x000 2 1), .access 0 true (.cpuWrite 0x00 2),
    .access 0 true (.cpuWrite 0x04 0xff), .access 0 true (.distWrite 0x082 0x02 1),
    .access 0 true (.distWrite 0x102 0x03 1),
    .access 0 true (.distWrite 0x202 pending 1)]

/-- The registers that decide about the interrupt 17, whether it has a rival, and the outputs. -/
def probe (s : GicState) : List Bool × List Nat :=
  ([s.candidate smallGic 0 17, s.testGroup 17 0, s.ctlr.getLsbD 1, (s.cpuCtlr 0).getLsbD 1,
      (List.range 32).any fun i => i != 17 && s.candidate smallGic 0 i, s.parentIrq 0,
      s.parentFiq 0], [(s.getPriority 17 0).toNat, s.priorityMask 0, s.runningPriority 0])

theorem deliverable_of_probe {rival irq fiq : Bool}
    (h : s.probe = ([true, true, true, true, rival, irq, fiq], [0, 0xff, 0x100])) :
    Deliverable smallGic s 0 17 ∧
    ((List.range 32).any fun i => i != 17 && s.candidate smallGic 0 i) = rival ∧
      s.parentIrq 0 = irq ∧ s.parentFiq 0 = fiq := by
  simp only [probe, Prod.mk.injEq, cons.injEq, and_true] at h
  obtain ⟨⟨hcand, hgroup, hctlr, hcpu, hrival, hirq, hfiq⟩, hprio, hmask, hrun⟩ := h
  refine ⟨⟨by decide, hcand, ?_, ?_, ?_⟩, hrival, hirq, hfiq⟩
  · rw [GroupEnabled, hgroup]
    exact ⟨hctlr, hcpu⟩
  · rw [hprio, hmask]
    decide
  · rw [hprio, hrun]
    decide

/-- A pending interrupt of the disabled Group 0 hides one of Group 1. -/
theorem deliverable_hidden : ∃ s, (gicMachine smallGic).Reachable s ∧ Deliverable smallGic s 0 17 ∧
    s.parentIrq 0 = false ∧ s.parentFiq 0 = false := by
  have hrun : ((gicMachine smallGic).run (poweredOn smallGic) (raiseGroup1 3)).map probe =
      some ([true, true, true, true, true, false, false], [0, 0xff, 0x100]) := by decide +kernel
  obtain ⟨s, hs, hprobe⟩ := Option.map_eq_some_iff.1 hrun
  obtain ⟨hd, -, hout⟩ := deliverable_of_probe hprobe
  exact ⟨s, Machine.Reachable.of_run (.init rfl) hs, hd, hout⟩

theorem output_iff_deliverable_alone : ∃ s, (gicMachine smallGic).Reachable s ∧
    Deliverable smallGic s 0 17 ∧ (s.parentIrq 0 = true ∨ s.parentFiq 0 = true) := by
  have hrun : ((gicMachine smallGic).run (poweredOn smallGic) (raiseGroup1 2)).map probe =
      some ([true, true, true, true, false, true, false], [0, 0xff, 0x100]) := by decide +kernel
  obtain ⟨s, hs, hprobe⟩ := Option.map_eq_some_iff.1 hrun
  obtain ⟨hd, hrival, -⟩ := deliverable_of_probe hprobe
  have hreach : (gicMachine smallGic).Reachable s := Machine.Reachable.of_run (.init rfl) hs
  refine ⟨s, hreach, hd, ((output_iff_deliverable hreach (by decide)).2 fun _ => ⟨17, hd, ?_⟩).1
    ⟨17, hd⟩⟩
  intro other hlt hcand hgroup
  refine absurd hcand fun hcand => ?_
  rw [any_eq_false] at hrival
  have := hrival other (mem_range.2 hlt)
  rw [hcand, Bool.and_true, bne_iff_ne, Decidable.not_not] at this
  exact hgroup (this ▸ hd.group)

end GicState

end QemuAndroid.Gic
