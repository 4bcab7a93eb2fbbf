import QemuAndroid.Gic.Model

/-!
# The steps of the interrupt controller

What `gic_update` changes, and which functions an event goes through (`Stepped`).  A write of
several bytes to the distributor is one byte write after the other, except for `GICD_SGIR`.
-/

namespace QemuAndroid.Gic

open Lib Function Bool

/-! ## Masks -/

theorem meets_cpuMask {cpu : Nat} (h : cpu < gicNcpu) (m : CpuMask) :
    meets m (cpuMask cpu) = m.getLsbD cpu := by
  rw [meets, cpuMask, BitVec.and_twoPow]
  cases m.getLsbD cpu with
  | false => rfl
  | true =>
    refine bne_iff_ne.2 fun h0 => ?_
    have := congrArg (BitVec.getLsbD · cpu) h0
    simp [h] at this

theorem getLsbD_cpuMask {c cpu : Nat} (h : cpu < gicNcpu) :
    (cpuMask cpu).getLsbD c = decide (cpu = c) := by
  rw [cpuMask, BitVec.getLsbD_twoPow, decide_eq_true h, Bool.true_and]

@[simp] theorem store2_apply {α : Type} (a : Nat → Nat → α) (i j : Nat) (v : α) (x y : Nat) :
    store2 a i j v x y = if x = i ∧ y = j then v else a x y := rfl

namespace GicState

variable {g : GicConfig} {s s' : GicState} {cpu irq offset ret : Nat} {secure : Bool}

/-! ## Updates -/

theorem gicUpdate_eq (g : GicConfig) (s : GicState) : s.gicUpdate g = { s with
      currentPending := fun c => if c < g.numCpu then (s.outputsOf g c).1 else s.currentPending c
      parentIrq := fun c => if c < g.numCpu then (s.outputsOf g c).2.1 else s.parentIrq c
      parentFiq := fun c => if c < g.numCpu then (s.outputsOf g c).2.2 else s.parentFiq c } := by
  have hnext : ∀ {α : Type} (a f : Nat → α) (n : Nat),
      update (fun c => if c < n then f c else a c) n (f n) = fun c => if c < n + 1 then f c
      else a c := by
    intro α a f n
    funext c
    by_cases hc : c = n
    · rw [hc, update_self, if_pos (Nat.lt_succ_self n)]
    · rw [update_of_ne hc]
      exact if_congr (by omega) rfl rfl
  unfold gicUpdate
  generalize g.numCpu = n
  induction n with
  | zero => rfl
  | succ n ih =>
    rw [List.range_succ, List.foldl_append, ih, ← hnext, ← hnext, ← hnext]
    rfl

@[simp] theorem gicUpdate_irqState : (s.gicUpdate g).irqState = s.irqState := by rw [gicUpdate_eq]
@[simp] theorem gicUpdate_lastActive : (s.gicUpdate g).lastActive = s.lastActive := by
  rw [gicUpdate_eq]
@[simp] theorem gicUpdate_sgiPending : (s.gicUpdate g).sgiPending = s.sgiPending := by
  rw [gicUpdate_eq]
@[simp] theorem gicUpdate_runningPriority :
    (s.gicUpdate g).runningPriority = s.runningPriority := by
  rw [gicUpdate_eq]
@[simp] theorem gicUpdate_getPriority : (s.gicUpdate g).getPriority = s.getPriority := by
  rw [gicUpdate_eq]
  rfl
@[simp] theorem gicUpdate_runningIrq : (s.gicUpdate g).runningIrq = s.runningIrq := by
  rw [gicUpdate_eq]

theorem modifyIrq_irqState (s : GicState) (irq : Nat) (f : IrqState → IrqState) (n : Nat) :
    (s.modifyIrq irq f).irqState n = if n = irq then f (s.irqState irq) else s.irqState n :=
  update_apply ..

theorem forIrqs_irqState (s : GicState) (irq count : Nat) (f : Nat → IrqState → IrqState)
    (n : Nat) : (s.forIrqs irq count f).irqState n =
      if irq ≤ n ∧ n < irq + count then f (n - irq) (s.irqState n) else s.irqState n :=
  modifyRange_apply s.irqState irq count f n

/-! ## Byte writes -/

def distBytes (offset : Nat) (data : BitVec 64) (size : Nat) : List (Nat × BitVec 32) :=
  let value : BitVec 32 := data.setWidth 32
  match size with
  | 1 => [(offset, value)]
  | 2 => [(offset, value &&& 0xff), (offset + 1, value >>> 8)]
  | 4 =>
    [(offset, value &&& 0xffff &&& 0xff), (offset + 1, (value &&& 0xffff) >>> 8),
      (offset + 2, value >>> 16 &&& 0xff), (offset + 2 + 1, value >>> 16 >>> 8)]
  | _ => []

/-- Byte writes, one after the other. -/
def writeBytes (g : GicConfig) (cpu : Nat) (secure : Bool) : List (Nat × BitVec 32) → GicState →
    GicState
  | [], s => s
  | (offset, value) :: rest, s =>
    writeBytes g cpu secure rest (s.gicDistWriteb g cpu offset value secure)

theorem gicDistWrite_eq {size : Nat} (data : BitVec 64) (h : ¬(size = 4 ∧ offset = 0xf00)) :
    s.gicDistWrite g cpu offset data size secure =
      .ok (s.writeBytes g cpu secure (distBytes offset data size)) := by
  match size, h with
  | 0, _ | 1, _ | 2, _ | 3, _ | _ + 5, _ => rfl
  | 4, h =>
    rw [gicDistWrite, gicDistWritel, if_neg fun h0 => h ⟨rfl, h0⟩]
    rfl

/-- Each byte write of a list meets a condition when its turn comes. -/
def EachByte (g : GicConfig) (cpu : Nat) (secure : Bool) (B : GicState → Nat → BitVec 32 → Prop) :
    GicState → List (Nat × BitVec 32) → Prop
  | _, [] => True
  | s, (offset, value) :: rest =>
    B s offset value ∧ EachByte g cpu secure B (s.gicDistWriteb g cpu offset value secure) rest

theorem EachByte.keeps {I : GicState → Prop} {B : GicState → Nat → BitVec 32 → Prop}
    (hkeeps : ∀ s offset value r, I s → B s offset value → distReg g offset secure = some r →
      I ((s.writeReg g cpu value secure r).gicUpdate g)) {l : List (Nat × BitVec 32)}
    (hB : EachByte g cpu secure B s l) (h : I s) : I (s.writeBytes g cpu secure l) := by
  induction l generalizing s with
  | nil => exact h
  | cons b rest ih =>
    refine ih hB.2 ?_
    unfold gicDistWriteb
    split
    · exact h
    · rename_i r hr
      exact hkeeps s _ _ r h hB.1 hr

theorem eachByte_of_forall {P : Nat → Prop} {l : List (Nat × BitVec 32)} (h : ∀ b ∈ l, P b.1)
    (s : GicState) : EachByte g cpu secure (fun _ offset _ => P offset) s l := by
  induction l generalizing s with
  | nil => trivial
  | cons b rest ih =>
    obtain ⟨hb, hrest⟩ := List.forall_mem_cons.1 h
    exact ⟨hb, ih hrest _⟩

theorem eachByte_true (s : GicState) (l : List (Nat × BitVec 32)) :
    EachByte g cpu secure (fun _ _ _ => True) s l := eachByte_of_forall (fun _ _ => trivial) s

/-! ## The functions -/

def faultOf {α : Type} : Except Fault α → Option Fault
  | .error f => some f
  | .ok _ => none

theorem eq_error_of_faultOf {α : Type} {x : Except Fault α} {f : Fault} (h : faultOf x = some f) :
    x = .error f := by
  cases x with
  | error => rw [Option.some.inj h]
  | ok => cases h

theorem map_eq_ok {ε α β : Type} {f : α → β} {x : Except ε α} {b : β} (h : x.map f = .ok b) :
    ∃ a, x = .ok a ∧ f a = b := by
  cases x with
  | error e => cases h
  | ok a => exact ⟨a, rfl, Except.ok.inj h⟩

/-- The interrupts that are active, with the running priority and the priorities. -/
def stack (s : GicState) :
    (Nat → Nat → Nat) × (Nat → Nat) × (Nat → Nat) × (Nat → Nat → BitVec 8) :=
  (s.lastActive, s.runningIrq, s.runningPriority, s.getPriority)

@[simp] theorem stack_gicUpdate : (s.gicUpdate g).stack = s.stack := by
  rw [gicUpdate_eq]
  rfl

/-- The same interrupts are active, and have their priorities, except for those in a set. -/
structure SameStack (written : Nat → Prop) (s s' : GicState) : Prop where
  lastActive : s'.lastActive = s.lastActive
  runningIrq : s'.runningIrq = s.runningIrq
  runningPriority : s'.runningPriority = s.runningPriority
  getPriority : ∀ n, ¬written n → s'.getPriority n = s.getPriority n

theorem sameStack {written : Nat → Prop} (h : s'.stack = s.stack) : SameStack written s s' :=
  ⟨congrArg (·.1) h, congrArg (·.2.1) h, congrArg (·.2.2.1) h,
    fun n _ => congrFun (congrArg (·.2.2.2) h) n⟩

theorem SameStack.trans {written : Nat → Prop} {t : GicState} (h : SameStack written s t)
    (h' : SameStack written t s') : SameStack written s s' where
  lastActive := h'.lastActive.trans h.lastActive
  runningIrq := h'.runningIrq.trans h.runningIrq
  runningPriority := h'.runningPriority.trans h.runningPriority
  getPriority := fun n hn => (h'.getPriority n hn).trans (h.getPriority n hn)

theorem sameStack_writeReg (value : BitVec 32) (r : DistReg) :
    SameStack (r = .priority ·) s (s.writeReg g cpu value secure r) := by
  cases r with
  | ctlr =>
    rw [writeReg, writeCtlr]
    split <;> exact sameStack rfl
  | priority irq =>
    rw [writeReg, gicSetPriority]
    split
    · exact sameStack rfl
    dsimp only
    split
    · refine ⟨rfl, rfl, rfl, fun n hn => funext fun c => ?_⟩
      have hne : n ≠ irq := fun h => hn (by rw [h])
      simp [getPriority, hne]
    · refine ⟨rfl, rfl, rfl, fun n hn => funext fun c => ?_⟩
      simp only [getPriority]
      split
      · rfl
      · exact update_of_ne (fun h => hn (by congr 1; omega)) _ _
  | cpendsgir irq =>
    rw [writeReg, writeCpendsgir]
    split <;> exact sameStack rfl
  | _ => exact sameStack rfl

theorem writeSgir_eq_ok {value : BitVec 32} (h : s.writeSgir g cpu value = .ok s') :
    ¬(gicNrSgis ≤ (value &&& 0x3ff).toNat ∧ sgirMask cpu value ≠ 0) ∧
      s' = gicUpdate g { s.setPending (value &&& 0x3ff).toNat (sgirMask cpu value) with
        sgiPending :=
          sgiTargets (value &&& 0x3ff).toNat cpu gicNcpu (sgirMask cpu value) s.sgiPending } := by
  unfold writeSgir at h
  dsimp only at h
  split at h
  · cases h
  · rename_i hin
    exact ⟨fun h0 => hin (.inr h0), (Except.ok.inj h).symm⟩

theorem acknowledge_cases (h : s.gicAcknowledgeIrq g cpu secure = .ok (ret, s')) :
    s' = s ∨ ∃ irq t, s.gicGetCurrentPendingIrq g cpu secure = irq ∧ irq < gicMaxirq ∧
      (s.getPriority irq cpu).toNat < s.runningPriority cpu ∧
      takePending g { s with lastActive := store2 s.lastActive irq cpu (s.runningIrq cpu) }
      cpu irq = .ok (ret, t) ∧ s' = t.gicSetRunningIrq g cpu irq := by
  unfold gicAcknowledgeIrq at h
  dsimp only at h
  split at h
  · cases h
    exact .inl rfl
  rename_i hirq
  split at h
  · cases h
    exact .inl rfl
  rename_i hprio
  obtain ⟨⟨ret', t⟩, ht, hpair⟩ := map_eq_ok h
  cases hpair
  exact .inr ⟨_, t, rfl, Nat.lt_of_not_le hirq, Nat.lt_of_not_le hprio, ht, rfl⟩

theorem takePending_cases (h : s.takePending g cpu irq = .ok (ret, s')) :
    (g.legacy = true ∨ gicNrSgis ≤ irq) ∧ s' = s.clearPending irq (s.modelMask irq cpu) ∨
      irq < gicNrSgis ∧ s.sgiPending irq cpu ≠ 0 ∧
        ∃ rest, s' = { if rest = 0 then s.clearPending irq (s.modelMask irq cpu) else s with
          sgiPending := store2 s.sgiPending irq cpu rest } := by
  unfold takePending at h
  split at h
  · rename_i hcond
    split at h
    · cases h
    rename_i hsgi
    obtain ⟨-, rfl⟩ := Prod.mk.inj (Except.ok.inj h)
    refine .inr ⟨of_decide_eq_true (and_eq_true_iff.1 hcond).2, hsgi,
      s.sgiPending irq cpu &&& ~~~cpuMask (ctz32 (s.sgiPending irq cpu)), ?_⟩
    split <;> rfl
  rename_i hcond
  refine .inl ⟨?_, (Prod.mk.inj (Except.ok.inj h)).2.symm⟩
  rw [and_eq_true_iff, not_and_or, not_eq_true', not_eq_false, decide_eq_true_iff,
    not_lt] at hcond
  exact hcond

theorem stack_takePending (h : s.takePending g cpu irq = .ok (ret, s')) : s'.stack = s.stack := by
  rcases takePending_cases h with ⟨-, rfl⟩ | ⟨-, -, rest, rfl⟩
  · rfl
  · split <;> rfl

theorem takePending_frame {a : Nat → Nat → Nat}
    (h : takePending g { s with lastActive := a } cpu irq = .ok (ret, s')) :
    s'.lastActive = a ∧ s'.runningIrq = s.runningIrq ∧ s'.runningPriority = s.runningPriority ∧
      s'.getPriority = s.getPriority := by
  have hstack := stack_takePending h
  simp only [stack, Prod.mk.injEq] at hstack
  exact hstack

theorem not_legacy (h : g.nonSecure secure = true) : g.legacy = false := by
  obtain ⟨h0, h1⟩ := g.plain (and_eq_true_iff.1 h).1
  simp [GicConfig.legacy, h0, h1]

/-- An end of interrupt that counts takes the interrupt off the top, or from below another one. -/
theorem complete_cases (h : s.gicCompleteIrq g cpu irq secure = .ok s') :
    (g.numIrq ≤ irq ∨ s.runningIrq cpu = 1023 ∨
      (g.nonSecure secure && !s.testGroup irq cpu) = true) ∧ s' = s ∨
    ∃ (update : Bool) (t : GicState), irq < g.numIrq ∧ s.runningIrq cpu ≠ 1023 ∧
      (g.nonSecure secure && !s.testGroup irq cpu) = false ∧ (update = true → g.legacy = true) ∧
      t = (if update then s.setPending irq (cpuMask cpu) else s) ∧
      (irq = s.runningIrq cpu ∧ s' = t.gicSetRunningIrq g cpu (s.lastActive irq cpu) ∨
        irq ≠ s.runningIrq cpu ∧ ∃ above u,
          findAbove (s.lastActive · cpu) irq (gicMaxirq + 1) (s.runningIrq cpu) = some above ∧
          u = { t with
            lastActive :=
              above.elim s.lastActive (store2 s.lastActive · cpu (s.lastActive irq cpu)) } ∧
          s' = if update then u.gicUpdate g else u) := by
  unfold gicCompleteIrq at h
  dsimp only at h
  split at h
  · cases h
    exact .inl ⟨.inl ‹_›, rfl⟩
  rename_i hirq
  split at h
  · cases h
    exact .inl ⟨.inr (.inl ‹_›), rfl⟩
  rename_i hrun
  generalize hup :
    (g.legacy && (!(s.irqState irq).edgeTrigger && meets (s.irqState irq).enabled (cpuMask cpu) &&
    meets (s.irqState irq).level (cpuMask cpu) && meets (s.irqTarget irq) (cpuMask cpu))) =
      update at h
  have hlegacy : update = true → g.legacy = true := fun h0 => (and_eq_true_iff.1 (hup.trans h0)).1
  obtain ⟨t, ht⟩ : ∃ t, t = (if update then s.setPending irq (cpuMask cpu) else s) := ⟨_, rfl⟩
  have htgroup : t.testGroup irq cpu = s.testGroup irq cpu := by
    rw [ht]
    split
    · simp [testGroup, setPending, modifyIrq]
    · rfl
  have hactive : t.lastActive = s.lastActive ∧ t.runningIrq = s.runningIrq := by
    rw [ht]
    split <;> exact ⟨rfl, rfl⟩
  rw [← ht, htgroup] at h
  split at h
  · -- the write is ignored, and then nothing has been made pending
    rename_i hns
    cases h
    refine .inl ⟨.inr (.inr hns), ?_⟩
    cases update with
    | false => exact ht
    | true => exact absurd ((not_legacy (and_eq_true_iff.1 hns).1).symm.trans (hlegacy rfl)) nofun
  rename_i hns
  refine .inr ⟨update, t, Nat.lt_of_not_le hirq, hrun, eq_false_iff.2 hns, hlegacy, ht, ?_⟩
  unfold complete at h
  rw [hactive.1, hactive.2] at h
  split at h
  · rename_i hne
    split at h
    · cases h
    rename_i above habove
    refine .inr ⟨hne, above, _, habove, rfl, (Except.ok.inj h).symm.trans ?_⟩
    cases above with
    | none =>
      rw [Option.elim, ← hactive.1]
    | some tmp =>
      rw [hactive.2]
      rfl
  · rename_i heq
    rw [Decidable.not_not] at heq
    refine .inl ⟨heq, (Except.ok.inj h).symm.trans ?_⟩
    rw [heq]

theorem gicSetIrq_eq_ok {line : Nat} {level : Int} (h : s.gicSetIrq g line level = .ok s') :
    ∃ irq cm target, gicNrSgis ≤ irq ∧ s' = s.setInput g irq level cm target := by
  revert h
  fun_cases gicSetIrq g s line level <;> rintro ⟨⟩
  · exact ⟨_, _, _, Nat.le_trans (by decide) (Nat.le_add_left gicInternal line), rfl⟩
  · next hirq => exact ⟨_, _, _, hirq, rfl⟩

/-! ## Events -/

/-- What an event does, by the function that it goes through. -/
inductive Stepped (g : GicConfig) (s : GicState) : Event → GicState → Prop
  | same (e : Event) : Stepped g s e s
  | bytes {cpu : Nat} {secure : Bool} {offset : Nat} {data : BitVec 64} {size : Nat} :
      ¬(size = 4 ∧ offset = 0xf00) →
      Stepped g s (.access cpu secure (.distWrite offset data size))
        (s.writeBytes g cpu secure (distBytes offset data size))
  | sgir {cpu : Nat} {secure : Bool} {data : BitVec 64} {s' : GicState} :
      s.writeSgir g cpu (data.setWidth 32) = .ok s' →
      Stepped g s (.access cpu secure (.distWrite 0xf00 data 4)) s'
  | acknowledge {cpu : Nat} {secure : Bool} {ret : Nat} {s' : GicState} :
      s.gicAcknowledgeIrq g cpu secure = .ok (ret, s') →
      Stepped g s (.access cpu secure (.cpuRead 0x0c)) s'
  | complete {cpu : Nat} {secure : Bool} {value : BitVec 32} {s' : GicState} :
      s.gicCompleteIrq g cpu (value &&& 0x3ff).toNat secure = .ok s' →
      Stepped g s (.access cpu secure (.cpuWrite 0x10 value)) s'
  | control {cpu : Nat} {secure : Bool} {value : BitVec 32} :
      Stepped g s (.access cpu secure (.cpuWrite 0x00 value))
      ((s.gicSetCpuControl g cpu value secure).gicUpdate g)
  | mask {cpu : Nat} {secure : Bool} {value : BitVec 32} :
      Stepped g s (.access cpu secure (.cpuWrite 0x04 value))
        ((s.gicSetPriorityMask g cpu (value.setWidth 8) secure).gicUpdate g)
  | point {cpu : Nat} {secure : Bool} {offset : Nat} {value : BitVec 32} (bpr abpr : Nat → Nat) :
      Stepped g s (.access cpu secure (.cpuWrite offset value))
      (gicUpdate g { s with bpr := bpr, abpr := abpr })
  | line {line : Nat} {level : Int} {s' : GicState} :
      s.gicSetIrq g line level = .ok s' → Stepped g s (.setIrq line level) s'
  | own {irq : Nat} : Stepped g s (.setPendingPrivate irq) (s.gicSetPendingPrivate g 0 irq)

theorem stepped_cpuRead (h : (s.gicCpuRead g cpu offset secure).map Prod.snd = .ok s') :
    Stepped g s (.access cpu secure (.cpuRead offset)) s' := by
  obtain ⟨⟨data, t⟩, ht, rfl⟩ := map_eq_ok h
  unfold gicCpuRead at ht
  split at ht
  case h_4 =>
    obtain ⟨⟨ret, t'⟩, hret, hpair⟩ := map_eq_ok ht
    cases hpair
    exact .acknowledge hret
  all_goals
    cases ht
    exact .same _

theorem stepped_cpuWrite {value : BitVec 32}
    (h : s.gicCpuWrite g cpu offset value secure = .ok s') :
    Stepped g s (.access cpu secure (.cpuWrite offset value)) s' := by
  unfold gicCpuWrite at h
  split at h
  case h_1 =>
    cases h
    exact .control
  case h_2 =>
    cases h
    exact .mask
  case h_3 =>
    cases h
    split
    · exact .point s.bpr _
    · exact .point _ s.abpr
  case h_4 => exact .complete h
  case h_5 =>
    split at h
    · cases h
      exact .same _
    · cases h
      exact .point s.bpr _
  case h_10 =>
    cases h
    exact .same _
  all_goals
    cases h
    exact .point s.bpr s.abpr

variable {e : Event}

theorem stepped_of_step (h : s.step g e = .ok s') : Stepped g s e s' := by
  cases e with
  | setIrq line level => exact .line h
  | setPendingPrivate irq =>
    cases h
    exact .own
  | access cpu secure a =>
    cases a with
    | cpuRead offset => exact stepped_cpuRead h
    | cpuWrite offset value => exact stepped_cpuWrite h
    | distWrite offset data size =>
      by_cases hsgir : size = 4 ∧ offset = 0xf00
      · obtain ⟨rfl, rfl⟩ := hsgir
        exact .sgir h
      have hstep : s.gicDistWrite g cpu offset data size secure = .ok s' := h
      rw [gicDistWrite_eq data hsgir] at hstep
      cases hstep
      exact .bytes hsgir

/-- The event is a write to the priority register of the interrupt. -/
def WritesPriority (g : GicConfig) (n : Nat) : Event → Prop
  | .access _ secure (.distWrite offset data size) =>
    ∃ b ∈ distBytes offset data size, distReg g b.1 secure = some (.priority n)
  | _ => False

/-- Only an acknowledgement and an end of interrupt change which interrupts are active, any other
change is followed by `gic_update`, and priorities change where they are written. -/
theorem Stepped.frame (h : Stepped g s e s') :
    (s' = s ∨ ∃ t, s' = gicUpdate g t) ∧ SameStack (WritesPriority g · e) s s' ∨
      (∃ cpu secure ret, e = .access cpu secure (.cpuRead 0x0c) ∧
        s.gicAcknowledgeIrq g cpu secure = .ok (ret, s')) ∨
      ∃ cpu secure value, e = .access cpu secure (.cpuWrite 0x10 value) ∧
        s.gicCompleteIrq g cpu (value &&& 0x3ff).toNat secure = .ok s' := by
  cases h with
  | same => exact .inl ⟨.inl rfl, sameStack rfl⟩
  | @bytes cpu secure offset data size =>
    let Writes (n : Nat) : Prop :=
      WritesPriority g n (.access cpu secure (.distWrite offset data size))
    refine .inl (EachByte.keeps (I := fun t => (t = s ∨ ∃ u, t = gicUpdate g u) ∧
      SameStack Writes s t) ?_ (eachByte_of_forall (P := fun o => ∀ n, distReg g o secure =
        some (.priority n) → Writes n) (fun b hb n hn => ⟨b, hb, hn⟩) s) ⟨.inl rfl, sameStack rfl⟩)
    rintro t _ value r ⟨-, ht⟩ hwritten hr
    have hreg := @sameStack_writeReg g t cpu secure value r
    refine ⟨.inr ⟨_, rfl⟩, ht.trans (.trans ⟨hreg.1, hreg.2, hreg.3, fun n hn => ?_⟩
      (sameStack stack_gicUpdate))⟩
    exact hreg.getPriority n fun h => hn (hwritten n (h ▸ hr))
  | sgir hok =>
    rw [(writeSgir_eq_ok hok).2]
    exact .inl ⟨.inr ⟨_, rfl⟩, sameStack stack_gicUpdate⟩
  | acknowledge hok => exact .inr (.inl ⟨_, _, _, rfl, hok⟩)
  | complete hok => exact .inr (.inr ⟨_, _, _, rfl, hok⟩)
  | control =>
    refine .inl ⟨.inr ⟨_, rfl⟩, sameStack (stack_gicUpdate.trans ?_)⟩
    unfold gicSetCpuControl
    split <;> rfl
  | mask =>
    refine .inl ⟨.inr ⟨_, rfl⟩, sameStack (stack_gicUpdate.trans ?_)⟩
    unfold gicSetPriorityMask
    repeat' split
    all_goals rfl
  | point => exact .inl ⟨.inr ⟨_, rfl⟩, sameStack stack_gicUpdate⟩
  | line hok =>
    obtain ⟨irq, cm, target, -, rfl⟩ := gicSetIrq_eq_ok hok
    unfold setInput
    split
    · exact .inl ⟨.inl rfl, sameStack rfl⟩
    · refine .inl ⟨.inr ⟨_, rfl⟩, sameStack (stack_gicUpdate.trans ?_)⟩
      split <;> rfl
  | own =>
    unfold gicSetPendingPrivate
    split
    · exact .inl ⟨.inl rfl, sameStack rfl⟩
    · exact .inl ⟨.inr ⟨_, rfl⟩, sameStack stack_gicUpdate⟩

def regs (s : GicState) :
    (Nat → IrqState) × (Nat → Nat → CpuMask) × (Nat → CpuMask) × (Nat → Nat → BitVec 8) ×
    (Nat → BitVec 8) × BitVec 32 :=
  (s.irqState, s.sgiPending, s.irqTarget, s.priority1, s.priority2, s.ctlr)

@[simp] theorem regs_gicUpdate : (s.gicUpdate g).regs = s.regs := by rw [gicUpdate_eq, regs, regs]

theorem regs_complete (hlegacy : g.legacy = false)
    (hok : s.gicCompleteIrq g cpu irq secure = .ok s') : s'.regs = s.regs := by
  rcases complete_cases hok with ⟨-, rfl⟩ | ⟨update, t, -, -, -, hup, rfl, hcase⟩
  · rfl
  obtain rfl : update = false := by
    cases update with
    | false => rfl
    | true => exact absurd ((hup rfl).symm.trans hlegacy) nofun
  rcases hcase with ⟨-, rfl⟩ | ⟨-, above, u, -, rfl, rfl⟩
  · exact regs_gicUpdate
  · rfl

/-- On a GICv1 or GICv2, the registers of the interrupts change by a write to the distributor, by an
acknowledgement and with an input line. -/
theorem Stepped.changes (hlegacy : g.legacy = false) (hp : e.Possible g) (h : Stepped g s e s') :
    s'.regs = s.regs ∨
    (∃ cpu secure offset data size, e = .access cpu secure (.distWrite offset data size) ∧
      ¬(size = 4 ∧ offset = 0xf00) ∧ s' = s.writeBytes g cpu secure (distBytes offset data size)) ∨
    (∃ cpu secure data, e = .access cpu secure (.distWrite 0xf00 data 4) ∧
      s.writeSgir g cpu (data.setWidth 32) = .ok s') ∨
    (∃ cpu secure ret irq t, e = .access cpu secure (.cpuRead 0x0c) ∧
      s.gicGetCurrentPendingIrq g cpu secure = irq ∧ irq < gicMaxirq ∧
      takePending g { s with lastActive := store2 s.lastActive irq cpu (s.runningIrq cpu) }
      cpu irq = .ok (ret, t) ∧ s'.regs = t.regs) ∨
      ∃ line level irq cm target, e = .setIrq line level ∧ gicNrSgis ≤ irq ∧
      s'.regs = (s.gicSetIrqGeneric irq level cm target).regs := by
  cases h with
  | same => exact .inl rfl
  | point => exact .inl regs_gicUpdate
  | bytes hsgir => exact .inr (.inl ⟨_, _, _, _, _, rfl, hsgir, rfl⟩)
  | sgir hok => exact .inr (.inr (.inl ⟨_, _, _, rfl, hok⟩))
  | acknowledge hok =>
    rcases acknowledge_cases hok with rfl | ⟨irq, t, hirq, hmax, -, ht, rfl⟩
    · exact .inl rfl
    · exact .inr (.inr (.inr (.inl ⟨_, _, _, irq, t, rfl, hirq, hmax, ht, regs_gicUpdate⟩)))
  | complete hok => exact .inl (regs_complete hlegacy hok)
  | control =>
    refine .inl (regs_gicUpdate.trans ?_)
    unfold gicSetCpuControl
    split <;> rfl
  | mask =>
    refine .inl (regs_gicUpdate.trans ?_)
    unfold gicSetPriorityMask
    repeat' split
    all_goals rfl
  | line hok =>
    obtain ⟨irq, cm, target, hirq, rfl⟩ := gicSetIrq_eq_ok hok
    unfold setInput
    split
    · exact .inl rfl
    · exact .inr (.inr (.inr (.inr ⟨_, _, irq, cm, target, rfl, hirq, by simp [hlegacy]⟩)))
  | own =>
    obtain ⟨hnvic, -⟩ := hp
    rw [GicConfig.legacy, hnvic] at hlegacy
    cases hlegacy

theorem step_cases (h : (gicMachine g).step s e = some s') : e.Possible g ∧ Stepped g s e s' := by
  obtain ⟨hp, h⟩ : e.Possible g ∧ (s.step g e).toOption = some s' := by
    change (if e.Possible g then (s.step g e).toOption else none) = some s' at h
    split at h
    · exact ⟨‹_›, h⟩
    · cases h
  refine ⟨hp, stepped_of_step ?_⟩
  cases hs : s.step g e with
  | error => rw [hs] at h; cases h
  | ok t =>
    rw [hs] at h
    cases h
    rfl

end GicState

end QemuAndroid.Gic
