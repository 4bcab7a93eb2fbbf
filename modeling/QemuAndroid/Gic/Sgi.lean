import QemuAndroid.Gic.Fixed
import QemuAndroid.Gic.Outputs

/-!
# Software interrupts

On a GICv1 or GICv2 a software interrupt is pending on a CPU as long as some CPU is recorded as its
source.  The two records agree, and the assertion of `gic_acknowledge_irq` holds, unless the guest
writes a zero byte to `GICD_SPENDSGIR`, which makes an interrupt pending without a source, or an
interrupt number above 15 to `GICD_SGIR`, for which `sgi_pending` has no entry.
-/

namespace QemuAndroid.Gic

open Lib Function Nat
open BitVec hiding and_self

/-! ## Targets -/

theorem GicState.ctz32_lt {m : CpuMask} (h : ctz32 m < gicNcpu) :
    m.getLsbD (ctz32 m) = true ∧ ∀ c < ctz32 m, m.getLsbD c = false := by
  unfold ctz32 at h ⊢
  cases hfind : (List.range 8).find? m.getLsbD with
  | none =>
    rw [hfind] at h
    exact absurd h (by decide)
  | some i =>
    obtain ⟨hi, -, hbelow⟩ := List.find?_range_eq_some.1 hfind
    exact ⟨hi, fun c hc => by simpa using hbelow c hc⟩

theorem GicState.ctz32_ge {m : CpuMask} (h : ¬ctz32 m < gicNcpu) {c : Nat} (hc : c < gicNcpu) :
    m.getLsbD c = false := by
  unfold ctz32 at h
  cases hfind : (List.range 8).find? m.getLsbD with
  | none => simpa using List.find?_range_eq_none.1 hfind c hc
  | some i =>
    rw [hfind] at h
    exact absurd (List.mem_range.1 (List.find?_range_eq_some.1 hfind).2.1) h

theorem GicState.sgiTargets_apply (irq cpu : Nat) {fuel : Nat} {mask : CpuMask}
    {sgi : Nat → Nat → CpuMask} (hlow : ∀ c < gicNcpu - fuel, mask.getLsbD c = false) {n c : Nat}
    (hc : c < gicNcpu) : sgiTargets irq cpu fuel mask sgi n c =
      if n = irq ∧ mask.getLsbD c = true then sgi n c ||| cpuMask cpu else sgi n c := by
  induction fuel generalizing mask sgi with
  | zero => rw [sgiTargets, if_neg fun h => Bool.false_ne_true ((hlow c hc).symm.trans h.2)]
  | succ fuel ih =>
    rw [sgiTargets]
    split
    · rename_i htarget
      obtain ⟨hbit, hbelow⟩ := ctz32_lt htarget
      have hclear : ∀ c < gicNcpu,
          (mask &&& ~~~cpuMask (ctz32 mask)).getLsbD c =
            (mask.getLsbD c && !decide (ctz32 mask = c)) := by
        intro c hc
        rw [getLsbD_and, getLsbD_not, getLsbD_cpuMask htarget, decide_eq_true hc, Bool.true_and]
      rw [ih, hclear c hc]
      · by_cases hct : c = ctz32 mask
        · subst hct
          rw [hbit]
          by_cases hn : n = irq
          · subst hn
            simp
          · simp [hn]
        · simp [hct, Ne.symm hct]
      intro c hc
      rw [hclear c (by omega)]
      · have hle : gicNcpu - (fuel + 1) ≤ ctz32 mask := by
          refine Nat.le_of_not_lt fun hlt => ?_
          rw [hlow _ hlt] at hbit
          cases hbit
        rcases lt_or_ge c (ctz32 mask) with hlt | hge'
        · rw [hbelow c hlt, Bool.false_and]
        · rw [decide_eq_true (by omega), Bool.not_true, Bool.and_false]
    · rename_i htarget
      rw [if_neg fun h => Bool.false_ne_true ((ctz32_ge htarget hc).symm.trans h.2)]

/-! ## The two records -/

/-- A software interrupt is pending exactly where it has a source. -/
def SgiOk (irqs : Nat → IrqState) (sgi : Nat → Nat → CpuMask) : Prop :=
  ∀ n < gicNrSgis, ∀ c < gicNcpu, (irqs n).pending.getLsbD c = true ↔ sgi n c ≠ 0

/-- A change to one interrupt, and to its sources. -/
theorem SgiOk.update {irqs : Nat → IrqState} {sgi sgi' : Nat → Nat → CpuMask} {irq : Nat}
    {st : IrqState} (h : SgiOk irqs sgi) (hsame : ∀ n, n ≠ irq → ∀ c < gicNcpu, sgi' n c = sgi n c)
    (hsgi : irq < gicNrSgis → ∀ c < gicNcpu, st.pending.getLsbD c = true ↔ sgi' irq c ≠ 0) :
    SgiOk (update irqs irq st) sgi' := by
  intro n hn c hc
  by_cases hn' : n = irq
  · rw [hn', update_self]
    exact hsgi (hn' ▸ hn) c hc
  · rw [update_of_ne hn', hsame n hn' c hc]
    exact h n hn c hc

namespace GicState

variable {g : GicConfig} {s s' : GicState} {cpu irq : Nat} {secure : Bool}

/-- The registers that the two records are in. -/
abbrev Sgi (s : GicState) : Prop := SgiOk s.irqState s.sgiPending

/-- The byte write gives a software interrupt a source, if it makes one pending. -/
def SourceGiven (g : GicConfig) (cpu : Nat) (secure : Bool) (s : GicState) (offset : Nat)
    (value : BitVec 32) : Prop :=
  match distReg g offset secure with
  | some (.spendsgir irq) => value.setWidth 8 ≠ 0#8 ∨ s.sgiPending irq cpu ≠ 0
  | _ => True

/-- No zero byte makes a software interrupt pending, and a number written to `GICD_SGIR` is one of a
software interrupt unless no CPU is targeted. -/
def SgiCareful (g : GicConfig) (s : GicState) : Event → Prop
  | .access cpu secure (.distWrite offset data size) =>
    if size = 4 ∧ offset = 0xf00 then
      (data.setWidth 32 &&& 0x3ff#32).toNat < gicMaxirq ∧
        ((data.setWidth 32 &&& 0x3ff#32).toNat < gicNrSgis ∨ sgirMask cpu (data.setWidth 32) = 0)
    else EachByte g cpu secure (SourceGiven g cpu secure) s (distBytes offset data size)
  | _ => True

/-- A loop that leaves the pending bits of software interrupts alone. -/
theorem Sgi.forIrqs (h : s.Sgi) (hfix : s.Fixed g) (irq count : Nat) {f : Nat → IrqState → IrqState}
    (hsgi : ∀ i st, i < count → irq + i < gicNrSgis → st.edgeTrigger = true →
      (f i st).pending = st.pending) : (s.forIrqs irq count f).Sgi := by
  intro n hn c hc
  rw [forIrqs_irqState]
  split
  · rw [hsgi (n - irq) _ (by omega) (by omega) ((hfix.irq n).sgi hn).1]
    exact h n hn c hc
  · exact h n hn c hc

theorem or_ne_zero_iff {x y : CpuMask} : x ||| y ≠ 0 ↔ x ≠ 0 ∨ y ≠ 0 := by
  rw [← not_and_or, not_iff_not]
  exact or_eq_zero_iff

theorem cpuMask_ne_zero (h : cpu < gicNcpu) : cpuMask cpu ≠ 0 := by
  intro h0
  have hbit := getLsbD_cpuMask (c := cpu) h
  rw [h0] at hbit
  simp at hbit

theorem getLsbD_or_cpuMask (h : cpu < gicNcpu) (m : CpuMask) (c : Nat) :
    (m ||| cpuMask cpu).getLsbD c = (m.getLsbD c || decide (cpu = c)) := by
  rw [getLsbD_or, getLsbD_cpuMask h]

theorem getLsbD_andNot_cpuMask (h : cpu < gicNcpu) (m : CpuMask) {c : Nat} (hc : c < gicNcpu) :
    (m &&& ~~~cpuMask cpu).getLsbD c = (m.getLsbD c && !decide (cpu = c)) := by
  rw [getLsbD_and, getLsbD_not, getLsbD_cpuMask h, decide_eq_true hc, Bool.true_and]

theorem store2_row {α : Type} (a : Nat → Nat → α) (i j : Nat) (v : α) {n : Nat} (h : n ≠ i)
    (c : Nat) : store2 a i j v n c = a n c :=
  if_neg fun h0 => h h0.1

/-- The sources of an interrupt that has some become `rest`. -/
theorem Sgi.rest (h : s.Sgi) (hcpu : cpu < gicNcpu) {rest : CpuMask}
    (hrest : rest ≠ 0 → s.sgiPending irq cpu ≠ 0) :
    ({ if rest = 0 then s.clearPending irq (cpuMask cpu) else s with
      sgiPending := store2 s.sgiPending irq cpu rest } : GicState).Sgi := by
  have hsame : ∀ n, n ≠ irq → ∀ c < gicNcpu, store2 s.sgiPending irq cpu rest n c =
      s.sgiPending n c :=
    fun n hn c _ => store2_row _ _ _ _ hn c
  by_cases h0 : rest = 0
  · rw [if_pos h0]
    refine SgiOk.update h hsame fun hirq c hc => ?_
    dsimp only
    rw [getLsbD_andNot_cpuMask hcpu _ hc, store2_apply]
    by_cases hcc : c = cpu
    · simp [hcc, h0]
    · simp only [Ne.symm hcc, decide_false, Bool.not_false, Bool.and_true, hcc, and_false, if_false]
      exact h irq hirq c hc
  rw [if_neg h0]
  have hup := @SgiOk.update _ _ _ irq (s.irqState irq) h hsame fun hirq c hc => ?_
  · rwa [update_eq_self] at hup
  rw [store2_apply, h irq hirq c hc]
  by_cases hcc : c = cpu
  · subst hcc
    simp only [and_self, if_true]
    exact iff_of_true (hrest h0) h0
  · simp [hcc]

theorem sgi_writeReg {value : BitVec 32} {r : DistReg} (hfix : s.Fixed g) (hcpu : cpu < gicNcpu)
    (h : s.Sgi) (hgiven : ∀ irq, r = .spendsgir irq → value.setWidth 8 ≠ 0#8 ∨
      s.sgiPending irq cpu ≠ 0) : (s.writeReg g cpu value secure r).Sgi := by
  cases r with
  | ctlr =>
    change (s.writeCtlr g value secure).Sgi
    unfold writeCtlr
    split <;> exact h
  | ignored | target => exact h
  | priority irq =>
    change (s.gicSetPriority g cpu irq _ secure).Sgi
    unfold gicSetPriority
    repeat' split
    all_goals exact h
  | group irq | config irq => exact h.forIrqs hfix irq _ fun _ _ _ _ _ => rfl
  | setEnable irq =>
    refine h.forIrqs hfix irq 8 fun i st _ _ he => ?_
    simp only [he, Bool.not_true, Bool.and_false, Bool.false_eq_true, if_false]
    repeat' split
    all_goals rfl
  | clearEnable irq =>
    refine h.forIrqs hfix irq 8 fun i st _ _ _ => ?_
    repeat' split
    all_goals rfl
  | setPending irq | clearPending irq =>
    refine h.forIrqs hfix irq 8 fun i st hi hlt _ => ?_
    rw [if_pos (lt_of_le_of_lt (le_add_right irq i) hlt)]
    simp
  | cpendsgir irq =>
    change (s.writeCpendsgir cpu irq value).Sgi
    have hrest : s.sgiPending irq cpu &&& ~~~value.setWidth 8 ≠ 0 → s.sgiPending irq cpu ≠ 0 := by
      intro hne h0
      refine hne ?_
      rw [h0]
      exact zero_and
    have hsgi := @Sgi.rest s cpu irq h hcpu _ hrest
    unfold writeCpendsgir
    dsimp only
    split
    · rename_i h0
      rwa [if_pos h0] at hsgi
    · rename_i h0
      rwa [if_neg h0] at hsgi
  | spendsgir irq =>
    refine SgiOk.update h (fun n hn c _ => store2_row _ _ _ _ hn c) fun hirq c hc => ?_
    rw [getLsbD_or_cpuMask hcpu]
    change _ ↔ store2 s.sgiPending irq cpu (s.sgiPending irq cpu ||| value.setWidth 8) irq c ≠ 0
    rw [store2_apply]
    by_cases hcc : c = cpu
    · subst hcc
      simp only [decide_true, Bool.or_true, and_self, if_true, true_iff]
      exact or_ne_zero_iff.2 (hgiven irq rfl).symm
    · simp only [Ne.symm hcc, decide_false, Bool.or_false, hcc, and_false, if_false]
      exact h irq hirq c hc

theorem Sgi.sgir (h : s.Sgi) (hcpu : cpu < gicNcpu) {value : BitVec 32}
    (hok : s.writeSgir g cpu value = .ok s') : s'.Sgi := by
  obtain ⟨hin, rfl⟩ := writeSgir_eq_ok hok
  generalize (value &&& 0x3ff).toNat = irq, sgirMask cpu value = mask at hin
  have htargets : ∀ n, ∀ c < gicNcpu, sgiTargets irq cpu gicNcpu mask s.sgiPending n c =
      if n = irq ∧ mask.getLsbD c = true then s.sgiPending n c ||| cpuMask cpu
      else s.sgiPending n c :=
    fun n c hc => sgiTargets_apply irq cpu (by simp) hc
  rw [Sgi, gicUpdate_irqState, gicUpdate_sgiPending]
  change SgiOk (s.setPending irq mask).irqState (sgiTargets irq cpu gicNcpu mask s.sgiPending)
  refine h.update (fun n hn c hc => ?_) fun hirq c hc => ?_
  · rw [htargets n c hc, if_neg fun h0 => hn h0.1]
  rw [htargets irq c hc, getLsbD_or, Bool.or_eq_true]
  cases hbit : mask.getLsbD c with
  | true =>
    rw [if_pos ⟨rfl, rfl⟩]
    exact iff_of_true (.inr rfl) (or_ne_zero_iff.2 (.inr (cpuMask_ne_zero hcpu)))
  | false =>
    rw [if_neg (by simp), or_iff_left Bool.false_ne_true]
    exact h irq hirq c hc

theorem Sgi.step {e : Event} (hlegacy : g.legacy = false) (hfix : s.Fixed g) (h : s.Sgi)
    (hp : e.Possible g) (hcare : SgiCareful g s e) (hstep : Stepped g s e s') : s'.Sgi := by
  have hkeep : ∀ {t t' : GicState}, t'.regs = t.regs → t.Sgi → t'.Sgi := by
    intro t t' hregs ht
    rwa [Sgi, show t'.irqState = t.irqState from congrArg (·.1) hregs,
      show t'.sgiPending = t.sgiPending from congrArg (·.2.1) hregs]
  rcases hstep.changes hlegacy hp with hregs | ⟨cpu, secure, offset, data, size, rfl, hsgir, rfl⟩ |
    ⟨cpu, secure, data, rfl, hok⟩ | ⟨cpu, secure, ret, irq, t, rfl, -, -, ht, hregs⟩ |
    ⟨line, level, irq, cm, target, rfl, hirq, hregs⟩
  · exact hkeep hregs h
  · rw [SgiCareful, if_neg hsgir] at hcare
    refine (EachByte.keeps (I := fun t => t.Fixed g ∧ t.Sgi) ?_ hcare ⟨hfix, h⟩).2
    rintro t offset value r ⟨htfix, ht⟩ hgiven hr
    refine ⟨(htfix.writeReg hlegacy (decoded_of_distReg hr)).of_regs regs_gicUpdate,
      hkeep regs_gicUpdate ?_⟩
    refine sgi_writeReg htfix (lt_of_lt_of_le hp g.numCpu_le) ht ?_
    rintro irq rfl
    rw [SourceGiven, hr] at hgiven
    exact hgiven
  · exact h.sgir (lt_of_lt_of_le hp g.numCpu_le) hok
  · refine hkeep hregs ?_
    rcases takePending_cases ht with ⟨hkind, rfl⟩ | ⟨-, hsgi, rest, rfl⟩
    · refine h.update (fun _ _ _ _ => rfl) fun hlt => ?_
      rcases hkind with hl | hge
      · exact absurd (hlegacy.symm.trans hl) Bool.false_ne_true
      · exact absurd hlt (Nat.not_lt_of_le hge)
    have hmask : s.modelMask irq cpu = cpuMask cpu := if_neg (by simp [(hfix.irq irq).model])
    have hrest := @Sgi.rest s cpu irq h (lt_of_lt_of_le hp g.numCpu_le) rest fun _ => hsgi
    rw [← hmask] at hrest
    split
    · rename_i h0
      rwa [if_pos h0] at hrest
    · rename_i h0
      rwa [if_neg h0] at hrest
  · exact hkeep hregs (h.update (fun _ _ _ _ => rfl) fun hlt => absurd hlt (Nat.not_lt_of_le hirq))

/-- **Software interrupts are recorded consistently.**  On a GICv1 or GICv2, in every run in which a
write to `GICD_SGIR` is for a software interrupt and no zero byte is written to `GICD_SPENDSGIR` for
one without a source, a software interrupt is pending on a CPU exactly when it has a source there,
the assertion of `gic_acknowledge_irq` does not fail, and no store is outside of `sgi_pending`. -/
theorem sgi_consistent (hlegacy : g.legacy = false) (h : (gicMachine g).Reach (SgiCareful g) s) :
    (∀ n < gicNrSgis, ∀ c < gicNcpu, (s.irqState n).pending.getLsbD c = true ↔
      s.sgiPending n c ≠ 0) ∧
    (∀ cpu < g.numCpu, ∀ secure, s.gicAcknowledgeIrq g cpu secure ≠ .error .assertion) ∧
    ∀ cpu secure offset data size,
    SgiCareful g s (.access cpu secure (.distWrite offset data size)) →
      s.gicDistWrite g cpu offset data size secure ≠ .error .outOfBounds := by
  have hsgi : s.Sgi := by
    refine h.invariant ?_ fun s e s' hr hs hok hstep =>
      hs.step hlegacy (fixed_of_reach hlegacy hr) (step_cases hstep).1 hok (step_cases hstep).2
    rintro _ rfl
    unfold poweredOn
    split
    all_goals
      intro n hn c hc
      simp [armGicCommonReset, zeroed]
  have hedge := fun irq hirq => (((fixed_of_reach hlegacy h).irq irq).sgi hirq).1
  refine ⟨hsgi, fun cpu hcpu secure herr => ?_, fun cpu secure offset data size hcare => ?_⟩
  · have hset := settled_of_reachable (h.mono fun _ _ _ => trivial)
    unfold gicAcknowledgeIrq at herr
    dsimp only at herr
    split at herr
    · cases herr
    rename_i hmax
    split at herr
    · cases herr
    have hlt : cpu < gicNcpu := lt_of_lt_of_le hcpu g.numCpu_le
    have hwins := pending_wins hset hcpu (Nat.lt_of_not_le hmax)
    generalize s.gicGetCurrentPendingIrq g cpu secure = irq at herr hwins
    obtain ⟨hirq, hnone⟩ : irq < gicNrSgis ∧ s.sgiPending irq cpu = 0 := by
      unfold takePending at herr
      split at herr
      · rename_i hcond
        split at herr
        · exact ⟨of_decide_eq_true (Bool.and_eq_true_iff.1 hcond).2, ‹_›⟩
        · cases herr
      · cases herr
    -- a software interrupt is edge-triggered, so it is pending by its bit
    have hpending : s.gicTestPending g irq (cpuMask cpu) = true :=
      (Bool.and_eq_true_iff.1 (Bool.and_eq_true_iff.1 hwins.candidate).1).2
    rw [gicTestPending, hlegacy, hedge irq hirq, meets_cpuMask hlt] at hpending
    simp only [Bool.false_eq_true, if_false, Bool.not_true, Bool.false_and,
      Bool.or_false] at hpending
    exact (hsgi irq hirq cpu hlt).1 hpending hnone
  · by_cases hsgir : size = 4 ∧ offset = 0xf00
    · obtain ⟨rfl, rfl⟩ := hsgir
      change s.writeSgir g cpu (data.setWidth 32) ≠ _
      unfold writeSgir
      rw [if_neg]
      · rintro ⟨⟩
      · rintro (hbig | ⟨hge, hmask⟩)
        · exact absurd hcare.1 (Nat.not_lt_of_le hbig)
        · exact hcare.2.elim (fun hlt => absurd hlt (Nat.not_lt_of_le hge)) hmask
    · rw [gicDistWrite_eq data hsgir]
      rintro ⟨⟩

/-- Enable the interrupts of Group 0 and write a byte to `GICD_SPENDSGIR`, for the software
interrupt 3. -/
def pendSgi (byte : BitVec 64) : List Event :=
  [.access 0 true (.distWrite 0x000 1 1), .access 0 true (.cpuWrite 0x00 1),
    .access 0 true (.cpuWrite 0x04 0xff), .access 0 true (.distWrite 0xf23 byte 1)]

/-- A zero byte written to `GICD_SPENDSGIR` makes a software interrupt pending without a source, and
its acknowledgement fails the assertion; a write of 16 to `GICD_SGIR` stores outside of
`sgi_pending`. -/
theorem sgi_without_source : ∃ s, (gicMachine smallGic).Reachable s ∧
    (s.irqState 3).pending.getLsbD 0 = true ∧ s.sgiPending 3 0 = 0 ∧
    s.gicAcknowledgeIrq smallGic 0 true = .error .assertion ∧
    s.gicDistWrite smallGic 0 0xf00 0x00010010 4 true = .error .outOfBounds := by
  obtain ⟨s, -, hreach, hpending, hsgi, hack, hwrite⟩ := Machine.Reachable.exists_of_run
    (M := gicMachine smallGic) (.init rfl) (pendSgi 0) (P := fun s =>
      (s.irqState 3).pending.getLsbD 0 = true ∧ s.sgiPending 3 0 = 0 ∧
      faultOf (s.gicAcknowledgeIrq smallGic 0 true) = some .assertion ∧
      faultOf (s.gicDistWrite smallGic 0 0xf00 0x00010010 4 true) = some .outOfBounds)
        (by decide +kernel)
  exact ⟨s, hreach, hpending, hsgi, eq_error_of_faultOf hack, eq_error_of_faultOf hwrite⟩

theorem sgi_consistent_pended : ∃ s, (gicMachine smallGic).Reach (SgiCareful smallGic) s ∧
    (s.irqState 3).pending.getLsbD 0 = true ∧ s.sgiPending 3 0 ≠ 0 := by
  have hmeets : (gicMachine smallGic).Meets (SgiCareful smallGic) (poweredOn smallGic)
      (pendSgi 1) :=
    ⟨⟨trivial, trivial⟩, fun _ _ => ⟨trivial, fun _ _ => ⟨trivial, fun _ _ =>
      ⟨⟨.inl (by decide), trivial⟩, fun _ _ => trivial⟩⟩⟩⟩
  obtain ⟨s, -, hreach, hpending⟩ := Machine.Reach.exists_of_run (.init rfl) hmeets
    (P := fun s => (s.irqState 3).pending.getLsbD 0 = true) (by decide +kernel)
  exact ⟨s, hreach, hpending, ((sgi_consistent rfl hreach).1 3 (by decide) 0 (by decide)).1
    hpending⟩

end GicState

end QemuAndroid.Gic
