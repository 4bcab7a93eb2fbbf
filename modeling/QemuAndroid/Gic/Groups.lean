import Mathlib.Tactic.Ring
import QemuAndroid.Gic.Chain
import QemuAndroid.Gic.Sgi

/-!
# Non-secure accesses and Group 0

With the security extensions, the interrupts of Group 0 belong to Secure software.
`gic_set_priority`, `gic_complete_irq`, the group registers and the control registers look at the
group before they obey a Non-secure access; the other registers of the distributor do not.  So
Non-secure software leaves Group 0 alone as long as what it writes to those is for interrupts of
Group 1.
-/

namespace QemuAndroid.Gic

open Lib Function Option BitVec Nat

namespace GicState

variable {g : GicConfig} {s s' t : GicState} {cpu irq n c : Nat} {secure : Bool}

/-! ## Group 0 -/

/-- The group, enable, pending and trigger bits of an interrupt for a CPU. -/
def irqBits (st : IrqState) (c : Nat) : Bool × Bool × Bool × Bool :=
  (st.group.getLsbD c, st.enabled.getLsbD c, st.pending.getLsbD c, st.edgeTrigger)

/-- What the distributor has about an interrupt for a CPU. -/
def irqView (s : GicState) (n c : Nat) :
    (Bool × Bool × Bool × Bool) × CpuMask × BitVec 8 × CpuMask :=
  (irqBits (s.irqState n) c, s.sgiPending n c, s.getPriority n c, s.irqTarget n)

/-- The interrupt is on the way from `running_irq` down. -/
def Active (s : GicState) (c n : Nat) : Prop := Passes (s.lastActive · c) 1023 n (s.runningIrq c)

/-- Everything that belongs to Group 0 is the same in both states. -/
structure Group0Kept (g : GicConfig) (s s' : GicState) : Prop where
  view : ∀ n, ∀ c < g.numCpu, s.testGroup n c = false → s'.irqView n c = s.irqView n c
  active : ∀ n, ∀ c < g.numCpu, s.testGroup n c = false → (s'.Active c n ↔ s.Active c n)
  ctlr : s'.ctlr.getLsbD 0 = s.ctlr.getLsbD 0
  cpuCtlr : ∀ c, (s'.cpuCtlr c).getLsbD 0 = (s.cpuCtlr c).getLsbD 0

/-- The bits that the byte write sets or clears are of interrupts of Group 1, for each CPU that they
are for. -/
def SparesByte (g : GicConfig) (cpu : Nat) (s : GicState) (offset : Nat) (value : BitVec 32) :
    Prop :=
  match distReg g offset false with
  | some (.setEnable irq) | some (.clearEnable irq) =>
    gicNrSgis ≤ irq → ∀ i < 8, value.getLsbD i = true → s.testGroup (irq + i) cpu = true
  | some (.setPending irq) =>
    gicNrSgis ≤ irq → ∀ i < 8, value.getLsbD i = true → ∀ c < g.numCpu,
      meets (s.irqTarget (irq + i)) (cpuMask c) = true → s.testGroup (irq + i) c = true
  | some (.clearPending irq) =>
    gicNrSgis ≤ irq → ∀ i < 8, value.getLsbD i = true →
      ∀ c < g.numCpu, s.testGroup (irq + i) c = true
  | some (.target irq) => 29 ≤ irq → ∀ c < g.numCpu, s.testGroup irq c = true
  | some (.config irq) =>
    gicNrSgis ≤ irq → ∀ i < 4, value.getLsbD (2 * i + 1) = (s.irqState (irq + i)).edgeTrigger ∨
      ∀ c < g.numCpu, s.testGroup (irq + i) c = true
  | some (.cpendsgir irq) | some (.spendsgir irq) => s.testGroup irq cpu = true
  | _ => True

/-- A Non-secure access whose effect is on Group 1 only; what is acknowledged is not active
already. -/
def SparesGroup0 (g : GicConfig) (s : GicState) : Event → Prop
  | .access cpu secure (.distWrite offset data size) => secure = false ∧
      if size = 4 ∧ offset = 0xf00 then
        ∀ c < g.numCpu, meets (sgirMask cpu (data.setWidth 32)) (cpuMask c) = true →
          s.testGroup (data.setWidth 32 &&& 0x3ff#32).toNat c = true
      else EachByte g cpu false (SparesByte g cpu) s (distBytes offset data size)
  | .access cpu secure (.cpuRead offset) =>
    secure = false ∧ AckFresh g s (.access cpu secure (.cpuRead offset))
  | .access _ secure (.cpuWrite _ _) => secure = false
  | _ => False

theorem testGroup_eq (hc : c < g.numCpu) : s.testGroup n c = (s.irqState n).group.getLsbD c :=
  meets_cpuMask (Nat.lt_of_lt_of_le hc g.numCpu_le) _

theorem testGroup_of_view (hc : c < g.numCpu) (h : s'.irqView n c = s.irqView n c) :
    s'.testGroup n c = s.testGroup n c := by
  rw [testGroup_eq hc, testGroup_eq hc]
  exact congrArg (·.1.1) h

theorem Group0Kept.trans (h : Group0Kept g s t) (h' : Group0Kept g t s') : Group0Kept g s s' := by
  have hgroup : ∀ n, ∀ c < g.numCpu, s.testGroup n c = false → t.testGroup n c = false :=
    fun n c hc h0 => (testGroup_of_view hc (h.view n c hc h0)).trans h0
  refine ⟨fun n c hc h0 => ?_, fun n c hc h0 => ?_, h'.ctlr.trans h.ctlr, fun c =>
    (h'.cpuCtlr c).trans (h.cpuCtlr c)⟩
  · exact (h'.view n c hc (hgroup n c hc h0)).trans (h.view n c hc h0)
  · exact (h'.active n c hc (hgroup n c hc h0)).trans (h.active n c hc h0)

/-- A shared interrupt of Group 1 is so for every CPU. -/
theorem Fixed.testGroup_shared (h : s.Fixed g) (hn : gicInternal ≤ n) (hc : c < g.numCpu)
    (hcpu : cpu < g.numCpu) : s.testGroup n c = s.testGroup n cpu := by
  rw [testGroup_eq hc, testGroup_eq hcpu]
  exact (h.irq n).shared hn c (lt_of_lt_of_le hc g.numCpu_le) cpu (lt_of_lt_of_le hcpu g.numCpu_le)

/-- The Non-secure view shows interrupts of Group 1 only. -/
theorem testGroup_of_pending (hsec : g.securityExtn = true)
    (hirq : s.gicGetCurrentPendingIrq g cpu false = irq) (hmax : irq < gicMaxirq) :
    s.testGroup irq cpu = true := by
  have hgroups : g.gicHasGroups = true := by simp [GicConfig.gicHasGroups, hsec]
  unfold gicGetCurrentPendingIrq at hirq
  simp only [hgroups, hsec, and_true, Bool.not_true, Bool.or_self, Bool.not_false, Bool.and_true,
    Bool.and_false, Bool.false_and, Bool.false_eq_true, if_false] at hirq
  split at hirq
  · split at hirq
    · rw [← hirq] at hmax
      exact absurd hmax (by decide)
    · rename_i hgroup
      rw [← hirq]
      simpa using hgroup
  · rename_i hbig
    exact absurd (hirq ▸ hmax) hbig

/-! ## Byte writes -/

theorem irqView_modifyIrq {f : IrqState → IrqState}
    (h : n = irq → irqBits (f (s.irqState n)) c = irqBits (s.irqState n) c) :
    (s.modifyIrq irq f).irqView n c = s.irqView n c := by
  rw [irqView, modifyIrq_irqState]
  split
  · rename_i hn
    subst hn
    rw [h rfl]
    rfl
  · rfl

variable {f : Nat → IrqState → IrqState}

theorem irqView_forIrqs {count : Nat}
    (h : ∀ i < count, n = irq + i → irqBits (f i (s.irqState n)) c = irqBits (s.irqState n) c) :
    (s.forIrqs irq count f).irqView n c = s.irqView n c := by
  rw [irqView, forIrqs_irqState]
  split
  · rw [h (n - irq) (by omega) (by omega)]
    rfl
  · rfl

/-- The loop over the bits of a byte, which has none for software interrupts. -/
theorem irqView_bits (value : BitVec 32)
    (h : gicNrSgis ≤ irq → ∀ i < 8, value.getLsbD i = true → n = irq + i →
      irqBits (f i (s.irqState n)) c = irqBits (s.irqState n) c) : (s.forIrqs irq 8 fun i st =>
      if getLsbD (if irq < gicNrSgis then 0 else value) i then f i st else st).irqView n c =
      s.irqView n c := by
  refine irqView_forIrqs fun i hi hn => ?_
  by_cases hsgi : irq < gicNrSgis
  · simp [hsgi]
  rw [if_neg hsgi]
  split
  · exact h (Nat.le_of_not_lt hsgi) i hi ‹_› hn
  · rfl

theorem irqView_congr (h : s'.regs = s.regs) : s'.irqView n c = s.irqView n c := by
  simp only [regs, Prod.mk.injEq] at h
  obtain ⟨h1, h2, h3, h4, h5, -⟩ := h
  simp only [irqView, getPriority, h1, h2, h3, h4, h5]

/-- The pending bits of one interrupt change, and the sources of software interrupts. -/
theorem irqView_pending {p : CpuMask → CpuMask} {sgi : Nat → Nat → CpuMask}
    (hsgi : sgi n c = s.sgiPending n c)
    (hp : n = irq → (p (s.irqState n).pending).getLsbD c = (s.irqState n).pending.getLsbD c) :
    irqView { s.modifyIrq irq fun st => { st with pending := p st.pending } with sgiPending := sgi }
      n c = s.irqView n c := by
  have hview := @irqView_modifyIrq s irq n c (fun st => { st with pending := p st.pending })
    fun hn => by rw [irqBits, hp hn]; rfl
  show (_, sgi n c, _, _) = _
  rw [hsgi]
  exact hview

/-- The bits of another CPU do not change. -/
theorem getLsbD_bankMask (hcpu : cpu < gicNcpu) (hirq : irq < gicInternal) (hc : c ≠ cpu) :
    (bankMask cpu irq).getLsbD c = false := by
  rw [bankMask, if_pos hirq, getLsbD_cpuMask hcpu]
  exact decide_eq_false hc.symm

theorem irqView_writeReg {value : BitVec 32} {offset : Nat} {r : DistReg}
    (hsec : g.securityExtn = true) (hfix : s.Fixed g) (hcpu : cpu < g.numCpu)
    (hr : distReg g offset false = some r) (hspare : SparesByte g cpu s offset value)
    (hc : c < g.numCpu) (h0 : s.testGroup n c = false) :
    (s.writeReg g cpu value false r).irqView n c = s.irqView n c := by
  have hdec := decoded_of_distReg hr
  have hlt : cpu < gicNcpu := lt_of_lt_of_le hcpu g.numCpu_le
  have hlt' : c < gicNcpu := lt_of_lt_of_le hc g.numCpu_le
  have hns : g.nonSecure false = true := by rw [GicConfig.nonSecure, hsec]; rfl
  have hne : ∀ {k}, s.testGroup k cpu = true → ¬(n = k ∧ c = cpu) := by
    rintro k h1 ⟨rfl, rfl⟩
    exact absurd (h1.symm.trans h0) nofun
  -- an interrupt of both groups is private, and the access is by another CPU
  have hother : ∀ {k}, s.testGroup n cpu = true → n = k → c ≠ cpu ∧ k < gicInternal := by
    rintro k h1 rfl
    refine ⟨fun hcc => hne h1 ⟨rfl, hcc⟩, Nat.lt_of_not_le fun hge => ?_⟩
    · rw [hfix.testGroup_shared hge hc hcpu, h1] at h0
      cases h0
  have hbank : ∀ {irq i}, s.testGroup (irq + i) cpu = true → n = irq + i →
      c ≠ cpu ∧ irq < gicInternal ∧ (bankMask cpu irq).getLsbD c = false := by
    rintro irq i h1 rfl
    obtain ⟨hcc, hprivate⟩ := hother h1 rfl
    have hirq := lt_of_le_of_lt (le_add_right irq i) hprivate
    exact ⟨hcc, hirq, getLsbD_bankMask hlt hirq hcc⟩
  rw [SparesByte, hr] at hspare
  cases r with
  | ctlr =>
    change (s.writeCtlr g value false).irqView n c = _
    unfold writeCtlr
    split <;> rfl
  | ignored => rfl
  | group irq => exact absurd (hns.symm.trans hdec.2) nofun
  | setEnable irq =>
    refine irqView_forIrqs fun i hi hn => ?_
    by_cases hsgi : irq < gicNrSgis
    · have hirq : n < gicNrSgis := by
        have hmod : irq % 8 = 0 := hdec
        change irq < 16 at hsgi
        change n < 16
        omega
      obtain ⟨hedge, henabled⟩ := (hfix.irq n).sgi hirq
      simp only [hsgi, if_true, hedge, Bool.not_true, Bool.and_false, Bool.false_eq_true, if_false]
      split
      · simp only [irqBits, henabled, hedge, allOnes_or]
      · rfl
    · rw [if_neg hsgi]
      split
      · rename_i hbit
        obtain ⟨hcc, hirq, hbank⟩ := hbank (hspare (Nat.le_of_not_lt hsgi) i hi hbit) hn
        rw [if_pos hirq]
        simp only [irqBits, getLsbD_or, hbank, Bool.or_false]
        split
        · rw [getLsbD_or, getLsbD_cpuMask hlt, decide_eq_false hcc.symm, Bool.or_false]
        · rfl
      · rfl
  | clearEnable irq =>
    refine irqView_bits value fun hsgi i hi hbit hn => ?_
    obtain ⟨-, -, hbank⟩ := hbank (hspare hsgi i hi hbit) hn
    simp only [irqBits, getLsbD_and, getLsbD_not, hbank, decide_eq_true hlt', Bool.not_false,
      Bool.and_true]
  | setPending irq =>
    refine irqView_bits value fun hsgi i hi hbit hn => ?_
    have htarget : (s.irqTarget n).getLsbD c = false := by
      rw [← meets_cpuMask hlt', Bool.eq_false_iff, hn]
      intro hmeets
      rw [hn, hspare hsgi i hi hbit c hc hmeets] at h0
      cases h0
    simp [irqBits, ← hn, htarget]
  | clearPending irq =>
    refine irqView_bits value fun hsgi i hi hbit hn => ?_
    rw [hn, hspare hsgi i hi hbit c hc] at h0
    cases h0
  | priority irq =>
    change (s.gicSetPriority g cpu irq _ false).irqView n c = _
    unfold gicSetPriority
    rw [hns]
    split
    · rfl
    rename_i hgroup
    have hgroup : s.testGroup irq cpu = true := by simpa using hgroup
    dsimp only
    split
    · simp [irqView, getPriority, hne hgroup]
    rename_i hirq
    simp only [irqView, getPriority]
    split
    · rfl
    rename_i hn
    rw [update_of_ne]
    intro hindex
    obtain rfl : n = irq := (tsub_left_inj (Nat.le_of_not_lt hn) (Nat.le_of_not_lt hirq)).1 hindex
    exact hirq (hother hgroup rfl).2
  | target irq =>
    change (irqBits (s.irqState n) c, s.sgiPending n c, s.getPriority n c,
      update s.irqTarget irq _ n) = _
    by_cases hn : n = irq
    · subst hn
      have hprivate : n < 29 := by
        refine Nat.lt_of_not_le fun hge => ?_
        rw [hspare hge c hc] at h0
        cases h0
      have hmany : g.numCpu ≠ 1 := hdec.resolve_right (g.plain hsec).1
      rw [update_self, if_pos hprivate, ← hfix.target hmany n hprivate]
      rfl
    · rw [update_of_ne hn]
      rfl
  | config irq =>
    refine irqView_forIrqs fun i hi hn => ?_
    have hedge : getLsbD (if irq < gicNrSgis then value ||| 0xaa else value) (2 * i + 1) =
        (s.irqState n).edgeTrigger := by
      split
      · rename_i hsgi
        have hirq : n < gicNrSgis := by
          have hmod : irq % 4 = 0 := hdec
          change irq < 16 at hsgi
          change n < 16
          omega
        rw [((hfix.irq n).sgi hirq).1, getLsbD_or, Bool.or_eq_true]
        exact .inr ((by decide : ∀ i < 4, (0xaa#32).getLsbD (2 * i + 1) = true) i hi)
      rename_i hsgi
      rcases hspare (Nat.le_of_not_lt hsgi) i hi with heq | hall
      · rw [heq, hn]
      · rw [hn, hall c hc] at h0
        cases h0
    simp only [irqBits, hedge]
  | cpendsgir irq =>
    change (s.writeCpendsgir cpu irq value).irqView n c = _
    have hne := hne hspare
    unfold writeCpendsgir
    dsimp only
    split
    · refine @irqView_pending s irq n c (· &&& ~~~cpuMask cpu) _ (if_neg hne) fun hn => ?_
      rw [getLsbD_andNot_cpuMask hlt _ hlt', decide_eq_false fun h => hne ⟨hn, h.symm⟩,
        Bool.not_false, Bool.and_true]
    · change (irqBits (s.irqState n) c, store2 s.sgiPending irq cpu _ n c, _, _) = _
      rw [store2_apply, if_neg hne]
      rfl
  | spendsgir irq =>
    have hne := hne hspare
    refine @irqView_pending s irq n c (· ||| cpuMask cpu) _ (if_neg hne) fun hn => ?_
    rw [getLsbD_or_cpuMask hlt, decide_eq_false fun h => hne ⟨hn, h.symm⟩, Bool.or_false]

/-! ## Accesses -/

theorem irqView_step {e : Event} (hsec : g.securityExtn = true) (hfix : s.Fixed g)
    (hp : e.Possible g) (hspare : SparesGroup0 g s e) (hstep : Stepped g s e s') (hc : c < g.numCpu)
    (h0 : s.testGroup n c = false) : s'.irqView n c = s.irqView n c := by
  have hlegacy : g.legacy = false := by simp [GicConfig.legacy, g.plain hsec]
  have hlt' : c < gicNcpu := lt_of_lt_of_le hc g.numCpu_le
  rcases hstep.changes hlegacy hp with hregs | ⟨cpu, secure, offset, data, size, rfl, hsgir, rfl⟩ |
    ⟨cpu, secure, data, rfl, hok⟩ | ⟨cpu, secure, ret, irq, t, rfl, hirq, hmax, ht, hregs⟩ |
    ⟨line, level, irq, cm, target, rfl, -, hregs⟩
  · exact irqView_congr hregs
  · obtain ⟨rfl, hspare⟩ := hspare
    rw [if_neg hsgir] at hspare
    refine (EachByte.keeps (I := fun t => t.Fixed g ∧ t.irqView n c = s.irqView n c)
      ?_ hspare ⟨hfix, rfl⟩).2
    rintro t offset value r ⟨htfix, ht⟩ hbyte hr
    refine ⟨(htfix.writeReg hlegacy (decoded_of_distReg hr)).of_regs regs_gicUpdate, ?_⟩
    rw [irqView_congr regs_gicUpdate, irqView_writeReg hsec htfix hp hr hbyte hc, ht]
    exact (testGroup_of_view hc ht).trans h0
  · have hspare := hspare.2
    obtain ⟨-, rfl⟩ := writeSgir_eq_ok hok
    have hbit : n = (data.setWidth 32 &&& 0x3ff#32).toNat →
        (sgirMask cpu (data.setWidth 32)).getLsbD c = false := by
      rintro rfl
      rw [← meets_cpuMask hlt', Bool.eq_false_iff]
      intro hmeets
      rw [hspare c hc hmeets] at h0
      cases h0
    refine (irqView_congr regs_gicUpdate).trans
      (@irqView_pending s _ n c (· ||| sgirMask cpu (data.setWidth 32)) _ ?_ fun hn => ?_)
    · rw [sgiTargets_apply _ _ (by simp) hlt']
      exact if_neg fun h => Bool.false_ne_true ((hbit h.1).symm.trans h.2)
    · rw [getLsbD_or, hbit hn, Bool.or_false]
  · obtain ⟨rfl, -⟩ := hspare
    have hlt : cpu < gicNcpu := lt_of_lt_of_le hp g.numCpu_le
    have hne : ¬(n = irq ∧ c = cpu) := by
      rintro ⟨rfl, rfl⟩
      exact absurd (h0.symm.trans (testGroup_of_pending hsec hirq hmax)) Bool.false_ne_true
    have hmask : s.modelMask irq cpu = cpuMask cpu := if_neg (by simp [(hfix.irq irq).model])
    have hclear : n = irq → ((s.irqState n).pending &&& ~~~s.modelMask irq cpu).getLsbD c =
        (s.irqState n).pending.getLsbD c := by
      intro hn
      rw [hmask, getLsbD_andNot_cpuMask hlt _ hlt', decide_eq_false fun h => hne ⟨hn, h.symm⟩,
        Bool.not_false, Bool.and_true]
    rw [irqView_congr hregs]
    rcases takePending_cases ht with ⟨-, rfl⟩ | ⟨-, -, rest, rfl⟩
    · exact @irqView_pending s irq n c (· &&& ~~~s.modelMask irq cpu) s.sgiPending rfl hclear
    split
    · exact @irqView_pending s irq n c (· &&& ~~~s.modelMask irq cpu) _ (if_neg hne) hclear
    · change (irqBits (s.irqState n) c, store2 s.sgiPending irq cpu _ n c, _, _) = _
      rw [store2_apply, if_neg hne]
      rfl
  · exact hspare.elim

theorem next_of_findAbove {next : Nat → Nat} {fuel a x : Nat}
    (h : findAbove next irq fuel a = some (some x)) : next x = irq := by
  fun_induction findAbove next irq fuel a with
  | case3 =>
    obtain rfl := some.inj (some.inj h)
    assumption
  | case4 _ _ _ _ ih => exact ih h
  | _ => cases h

theorem active_acknowledge {ret : Nat} (hsec : g.securityExtn = true)
    (hfresh : AckFresh g s (.access cpu false (.cpuRead 0x0c)))
    (hok : s.gicAcknowledgeIrq g cpu false = .ok (ret, s')) (h0 : s.testGroup n c = false) :
    s'.Active c n ↔ s.Active c n := by
  rcases acknowledge_cases hok with rfl | ⟨irq, t, hirq, hmax, hprio, ht, rfl⟩
  · rfl
  obtain ⟨htl, htr, -⟩ := takePending_frame ht
  rw [Active, Active, gicSetRunningIrq_lastActive, gicSetRunningIrq_runningIrq, htl, htr]
  by_cases hcc : c = cpu
  · -- the interrupt of Group 1 is pushed
    subst hcc
    have hstop : irq ≠ 1023 := Nat.ne_of_lt (Nat.lt_trans hmax (by decide))
    have hne : n ≠ irq := by
      rintro rfl
      exact absurd (h0.symm.trans (testGroup_of_pending hsec hirq hmax)) Bool.false_ne_true
    subst hirq
    rw [column_self, update_self, ← Passes.next_iff hstop hne, update_self]
    exact Passes.update_iff (hfresh hmax hprio) hstop
  · rw [column_of_ne hcc, update_of_ne hcc]

theorem active_complete (hns : g.nonSecure secure = true)
    (hok : s.gicCompleteIrq g cpu irq secure = .ok s') (h0 : s.testGroup n c = false) :
    s'.Active c n ↔ s.Active c n := by
  rcases complete_cases hok with ⟨-, rfl⟩ | ⟨update, t, hlt, hrun, hgroup, hup, rfl, hcase⟩
  · rfl
  obtain rfl : update = false := by
    cases update with
    | false => rfl
    | true => exact absurd ((hup rfl).symm.trans (not_legacy hns)) nofun
  have hstop : irq ≠ 1023 :=
    Nat.ne_of_lt (Nat.lt_trans (lt_of_lt_of_le hlt g.numIrq_le) (by decide))
  have hne : c = cpu → n ≠ irq := by
    rintro rfl rfl
    rw [hns, h0] at hgroup
    cases hgroup
  rcases hcase with ⟨hirq, rfl⟩ | ⟨-, above, u, habove, rfl, rfl⟩
  · rw [Active, Active, gicSetRunningIrq_lastActive, gicSetRunningIrq_runningIrq]
    by_cases hcc : c = cpu
    · subst hcc
      rw [update_self, ← hirq]
      exact Passes.next_iff hstop (hne rfl)
    · rw [update_of_ne hcc]
      rfl
  cases above with
  | none => rfl
  | some tmp =>
    change Passes (store2 s.lastActive tmp cpu (s.lastActive irq cpu) · c)
      1023 n (s.runningIrq c) ↔ _
    by_cases hcc : c = cpu
    · subst hcc
      rw [column_self]
      exact Passes.unlink_iff (@next_of_findAbove irq (s.lastActive · c) _ _ _ habove)
        hstop (hne rfl)
    · rw [column_of_ne hcc]
      rfl

def enables0 (s : GicState) : Bool × (Nat → Bool) :=
  (s.ctlr.getLsbD 0, fun c => (s.cpuCtlr c).getLsbD 0)

theorem enables0_gicUpdate : (s.gicUpdate g).enables0 = s.enables0 := by
  rw [gicUpdate_eq, enables0, enables0]

theorem enables0_writeReg {value : BitVec 32} (hns : g.nonSecure false = true) (r : DistReg) :
    (s.writeReg g cpu value false r).enables0 = s.enables0 := by
  cases r with
  | ctlr =>
    change (s.writeCtlr g value false).enables0 = _
    simp [writeCtlr, hns, enables0]
  | priority irq =>
    change (s.gicSetPriority g cpu irq _ false).enables0 = _
    unfold gicSetPriority
    repeat' split
    all_goals rfl
  | cpendsgir irq =>
    change (s.writeCpendsgir cpu irq value).enables0 = _
    unfold writeCpendsgir
    dsimp only
    split <;> rfl
  | _ => rfl

theorem enables0_step {e : Event} (hns : g.nonSecure false = true) (hspare : SparesGroup0 g s e)
    (hstep : Stepped g s e s') : s'.enables0 = s.enables0 := by
  cases hstep with
  | same => rfl
  | bytes hsgir =>
    obtain ⟨rfl, -⟩ := hspare
    refine EachByte.keeps (I := fun t => t.enables0 = s.enables0) ?_ (eachByte_true s _) rfl
    exact fun t _ _ r ht _ _ => enables0_gicUpdate.trans ((enables0_writeReg hns r).trans ht)
  | sgir hok =>
    rw [(writeSgir_eq_ok hok).2]
    exact enables0_gicUpdate
  | acknowledge hok =>
    rcases acknowledge_cases hok with rfl | ⟨irq, t, -, -, -, ht, rfl⟩
    · rfl
    refine enables0_gicUpdate.trans ?_
    rcases takePending_cases ht with ⟨-, rfl⟩ | ⟨-, -, rest, rfl⟩
    · rfl
    · split <;> rfl
  | complete hok =>
    rcases complete_cases hok with ⟨-, rfl⟩ |
      ⟨update, t, -, -, -, -, rfl, ⟨-, rfl⟩ | ⟨-, above, u, -, rfl, rfl⟩⟩
    · rfl
    · refine enables0_gicUpdate.trans ?_
      split <;> rfl
    · cases update with
      | false => rfl
      | true => exact enables0_gicUpdate
  | @control cpu _ value =>
    obtain rfl := hspare
    refine enables0_gicUpdate.trans ?_
    unfold gicSetCpuControl
    rw [if_pos hns]
    refine Prod.ext rfl (funext fun c => ?_)
    by_cases hcc : c = cpu
    · subst hcc
      simp only [enables0, update_self, getLsbD_or, getLsbD_and, getLsbD_not]
      split <;> simp
    · simp only [enables0, update_of_ne hcc]
  | mask =>
    refine enables0_gicUpdate.trans ?_
    unfold gicSetPriorityMask
    repeat' split
    all_goals rfl
  | point => exact enables0_gicUpdate
  | line => exact hspare.elim
  | own => exact hspare.elim

theorem active_step {e : Event} (hsec : g.securityExtn = true) (hspare : SparesGroup0 g s e)
    (hstep : Stepped g s e s') (h0 : s.testGroup n c = false) : s'.Active c n ↔ s.Active c n := by
  rcases hstep.frame with ⟨-, hstack⟩ | ⟨cpu, secure, ret, rfl, hok⟩ |
    ⟨cpu, secure, value, rfl, hok⟩
  · rw [Active, Active, hstack.lastActive, hstack.runningIrq]
  · obtain ⟨rfl, hfresh⟩ := hspare
    exact active_acknowledge hsec hfresh hok h0
  · obtain rfl := hspare
    exact active_complete (by rw [GicConfig.nonSecure, hsec]; rfl) hok h0

/-- **Non-secure software leaves Group 0 alone.**  On a GIC with the security extensions, from every
state that it can be in, a sequence of Non-secure accesses that write the enable, pending, target,
configuration and software interrupt registers for interrupts of Group 1 only keeps everything that
belongs to Group 0. -/
theorem nonsecure_keeps_group0 (hsec : g.securityExtn = true) (h : (gicMachine g).Reachable s)
    {es : List Event} (hspare : (gicMachine g).Meets (SparesGroup0 g) s es)
    (hrun : (gicMachine g).run s es = some s') : Group0Kept g s s' := by
  have hlegacy : g.legacy = false := by simp [GicConfig.legacy, g.plain hsec]
  induction es generalizing s with
  | nil =>
    cases hrun
    exact ⟨fun _ _ _ _ => rfl, fun _ _ _ _ => Iff.rfl, rfl, fun _ => rfl⟩
  | cons e es ih =>
    obtain ⟨t, ht, hrest⟩ := bind_eq_some_iff.1 hrun
    obtain ⟨hp, hstep⟩ := step_cases ht
    have henables := enables0_step (by rw [GicConfig.nonSecure, hsec]; rfl) hspare.1 hstep
    refine Group0Kept.trans (t := t) ⟨fun n c hc h0 => ?_, fun n c hc h0 => ?_, ?_, fun c => ?_⟩
      (ih (.step h trivial ht) (hspare.2 t ht) hrest)
    · exact irqView_step hsec (fixed_of_reach hlegacy h) hp hspare.1 hstep hc h0
    · exact active_step hsec hspare.1 hstep h0
    · exact congrArg (·.1) henables
    · exact congrFun (congrArg (·.2) henables) c

/-- A GICv2 with one CPU and the security extensions. -/
def secureGic : GicConfig := { smallGic with securityExtn := true, plain := by decide }

/-- Secure software puts interrupt 17 in Group 1 and enables interrupt 16, which is in Group 0. -/
def enable16 : List Event :=
  [.access 0 true (.distWrite 0x082 2 1), .access 0 true (.distWrite 0x102 1 1)]

/-- A Non-secure write to the register that clears enable bits disables an interrupt of Group 0. -/
theorem group0_disabled : ∃ s s', (gicMachine secureGic).Reachable s ∧
    (gicMachine secureGic).step s (.access 0 false (.distWrite 0x182 1 1)) = some s' ∧
    s.testGroup 16 0 = false ∧ (s.irqState 16).enabled.getLsbD 0 = true ∧
    (s'.irqState 16).enabled.getLsbD 0 = false ∧ ¬Group0Kept secureGic s s' := by
  have hrun : (((gicMachine secureGic).run (poweredOn secureGic) enable16).bind fun s =>
      ((gicMachine secureGic).step s (.access 0 false (.distWrite 0x182 1 1))).map fun s' =>
        (s.testGroup 16 0, (s.irqState 16).enabled.getLsbD 0, (s'.irqState 16).enabled.getLsbD 0)) =
      some (false, true, false) := by decide +kernel
  obtain ⟨s, hs, hrun⟩ := bind_eq_some_iff.1 hrun
  obtain ⟨s', hs', hproj⟩ := map_eq_some_iff.1 hrun
  simp only [Prod.mk.injEq] at hproj
  obtain ⟨hgroup, hbefore, hafter⟩ := hproj
  refine ⟨s, s', Machine.Reachable.of_run (.init rfl) hs, hs', hgroup, hbefore, hafter, fun h => ?_⟩
  have henabled : (s'.irqState 16).enabled.getLsbD 0 = (s.irqState 16).enabled.getLsbD 0 :=
    congrArg (·.1.2.1) (h.view 16 0 (by decide) hgroup)
  rw [hbefore, hafter] at henabled
  cases henabled

theorem nonsecure_keeps_group0_other : ∃ s s', (gicMachine secureGic).Reachable s ∧
    (gicMachine secureGic).run s [.access 0 false (.distWrite 0x102 2 1)] = some s' ∧
    s.testGroup 16 0 = false ∧ (s'.irqState 16).enabled.getLsbD 0 = true := by
  have hrun : (((gicMachine secureGic).run (poweredOn secureGic) enable16).bind fun s =>
      ((gicMachine secureGic).run s [.access 0 false (.distWrite 0x102 2 1)]).map fun _ =>
        (s.testGroup 16 0, s.testGroup 17 0, (s.irqState 16).enabled.getLsbD 0)) =
      some (false, true, true) := by decide +kernel
  obtain ⟨s, hs, hrun⟩ := bind_eq_some_iff.1 hrun
  obtain ⟨s', hs', hproj⟩ := map_eq_some_iff.1 hrun
  simp only [Prod.mk.injEq] at hproj
  obtain ⟨hgroup, hother, hbefore⟩ := hproj
  have hreach : (gicMachine secureGic).Reachable s := Machine.Reachable.of_run (.init rfl) hs
  have hbyte : SparesByte secureGic 0 s 0x102 2 := by
    intro _ i hi hbit
    obtain rfl : i = 1 := (by decide : ∀ i < 8, (2 : BitVec 32).getLsbD i = true → i = 1) i hi hbit
    exact hother
  have hmeets :
      (gicMachine secureGic).Meets (SparesGroup0 secureGic)
      s [.access 0 false (.distWrite 0x102 2 1)] :=
    ⟨⟨rfl, hbyte, trivial⟩, fun _ _ => trivial⟩
  have hkept := nonsecure_keeps_group0 rfl hreach hmeets hs'
  have henabled : (s'.irqState 16).enabled.getLsbD 0 = (s.irqState 16).enabled.getLsbD 0 :=
    congrArg (·.1.2.1) (hkept.view 16 0 (by decide) hgroup)
  exact ⟨s, s', hreach, hs', hgroup, henabled.trans hbefore⟩

end GicState

end QemuAndroid.Gic
