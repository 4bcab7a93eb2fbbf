import QemuAndroid.Gic.Steps

/-!
# What the registers of a GICv1 or GICv2 keep

Some fields are the same in every state of such a GIC: the model is N-N, software interrupts are
enabled and edge-triggered, a shared interrupt is in one group for all CPUs, and the private
interrupts below 29 have no target.
-/

namespace QemuAndroid.Gic

open Lib

/-- What the offset says about the register. -/
def Decoded (g : GicConfig) (secure : Bool) : DistReg → Prop
  | .group irq => irq % 8 = 0 ∧ g.nonSecure secure = false
  | .setEnable irq => irq % 8 = 0
  | .config irq => irq % 4 = 0
  | .target _ => g.numCpu ≠ 1 ∨ g.revision = rev11mpcore
  | _ => True

theorem decoded_of_distReg {g : GicConfig} {offset : Nat} {secure : Bool} {r : DistReg}
    (h : distReg g offset secure = some r) : Decoded g secure r := by
  have hbase : ∀ n, (n * 8 + g.gicBaseIrq) % 8 = 0 ∧ (n * 4 + g.gicBaseIrq) % 4 = 0 := by
    unfold GicConfig.gicBaseIrq
    split <;> omega
  have hall : (distReg g offset secure).elim True (Decoded g secure) := by
    rw [distReg]
    simp only [apply_ite (Option.elim · True (Decoded g secure))]
    simp only [Option.elim, Decoded, (hbase _).1, (hbase _).2, true_and, ite_self]
    by_cases hcpu : g.numCpu ≠ 1 ∨ g.revision = rev11mpcore
    all_goals cases g.nonSecure secure <;> simp [hcpu]
  rw [h] at hall
  exact hall

structure FixedIrq (n : Nat) (st : IrqState) : Prop where
  model : st.model = false
  sgi : n < gicNrSgis → st.edgeTrigger = true ∧ st.enabled = allCpuMask
  shared : gicInternal ≤ n → ∀ c < gicNcpu, ∀ c' < gicNcpu, st.group.getLsbD c = st.group.getLsbD c'

namespace GicState

variable {g : GicConfig} {s s' : GicState} {cpu irq : Nat} {secure : Bool}

structure Fixed (g : GicConfig) (s : GicState) : Prop where
  irq : ∀ n, FixedIrq n (s.irqState n)
  target : g.numCpu ≠ 1 → ∀ n < 29, s.irqTarget n = 0

namespace Fixed

variable (h : s.Fixed g)
include h

theorem of_regs (hregs : s'.regs = s.regs) : s'.Fixed g := by
  obtain ⟨hirq, -, htarget, -⟩ := Prod.mk.inj hregs |>.imp_right fun h0 => by simpa using h0
  exact ⟨hirq ▸ h.irq, htarget ▸ h.target⟩

theorem modify {f : IrqState → IrqState} (hf : FixedIrq irq (f (s.irqState irq))) :
    (s.modifyIrq irq f).Fixed g := by
  refine ⟨fun n => ?_, h.target⟩
  rw [modifyIrq_irqState]
  split
  · rename_i hn
    exact hn ▸ hf
  · exact h.irq n

theorem repend (irq : Nat) (f : CpuMask → CpuMask) :
    (s.modifyIrq irq fun st => { st with pending := f st.pending }).Fixed g :=
  h.modify ⟨(h.irq irq).model, (h.irq irq).sgi, (h.irq irq).shared⟩

theorem forIrqs (irq : Nat) {count : Nat} {f : Nat → IrqState → IrqState}
    (hf : ∀ i < count, ∀ st, FixedIrq (irq + i) st → FixedIrq (irq + i) (f i st)) :
    (s.forIrqs irq count f).Fixed g := by
  refine ⟨fun n => ?_, h.target⟩
  rw [forIrqs_irqState]
  split
  · obtain ⟨i, rfl⟩ : ∃ i, n = irq + i := ⟨n - irq, by omega⟩
    rw [Nat.add_sub_cancel_left]
    exact hf i (by omega) _ (h.irq (irq + i))
  · exact h.irq n

theorem writeReg (hlegacy : g.legacy = false) {value : BitVec 32} {r : DistReg}
    (hr : Decoded g secure r) : (s.writeReg g cpu value secure r).Fixed g := by
  cases r with
  | ctlr =>
    change (s.writeCtlr g value secure).Fixed g
    unfold writeCtlr
    split <;> exact ⟨h.irq, h.target⟩
  | ignored => exact h
  | group irq =>
    refine h.forIrqs irq fun i hi st hst => ⟨hst.model, hst.sgi, fun hn c hc c' hc' => ?_⟩
    have hge : 32 ≤ irq + i := hn
    have hmod : irq % 8 = 0 := hr.1
    have hshared : bankMask cpu irq = allCpuMask := if_neg (show ¬irq < 32 by omega)
    have hall : ∀ c < gicNcpu, allCpuMask.getLsbD c = true := by decide
    rw [hshared]
    split <;> simp only [BitVec.getLsbD_or, BitVec.getLsbD_and, BitVec.getLsbD_not, hall c hc,
      hall c' hc', Bool.or_true, Bool.not_true, Bool.and_false]
  | setEnable irq =>
    refine h.forIrqs irq fun i _ st hst => ?_
    have henable : ∀ pending, FixedIrq (irq + i)
        { st with enabled := st.enabled ||| bankMask cpu irq, pending := pending } := by
      refine fun _ => ⟨hst.model, fun hn => ⟨(hst.sgi hn).1, ?_⟩, hst.shared⟩
      rw [(hst.sgi hn).2]
      exact BitVec.allOnes_or
    generalize (if irq < gicNrSgis then 0xff else value : BitVec 32) = byte
    split
    · exact henable _
    · exact hst
  | clearEnable irq =>
    refine h.forIrqs irq fun i _ st hst => ?_
    by_cases hirq : irq < gicNrSgis
    · simpa [hirq] using hst
    rw [if_neg hirq]
    split
    · exact ⟨hst.model, fun hn => absurd (Nat.lt_of_le_of_lt (Nat.le_add_right irq i) hn) hirq,
        hst.shared⟩
    · exact hst
  | setPending irq | clearPending irq =>
    refine h.forIrqs irq fun i _ st hst => ?_
    generalize (if irq < gicNrSgis then 0 else value : BitVec 32) = byte
    split
    · exact ⟨hst.model, hst.sgi, hst.shared⟩
    · exact hst
  | priority irq =>
    change (s.gicSetPriority g cpu irq _ secure).Fixed g
    unfold gicSetPriority
    repeat' split
    all_goals exact ⟨h.irq, h.target⟩
  | target irq =>
    refine ⟨h.irq, fun hcpu n hn => ?_⟩
    change Function.update s.irqTarget irq _ n = 0
    by_cases hirq : n = irq
    · rw [hirq, Function.update_self, if_pos (hirq ▸ hn)]
    · rw [Function.update_of_ne hirq]
      exact h.target hcpu n hn
  | config irq =>
    refine h.forIrqs irq fun i hi st hst => ⟨?_, fun hn => ⟨?_, (hst.sgi hn).2⟩, hst.shared⟩
    · simp [hlegacy, hst.model]
    · dsimp only
      rw [if_pos (by omega), BitVec.getLsbD_or, Bool.or_eq_true]
      exact .inr ((by decide : ∀ i < 4, (0xaa#32).getLsbD (2 * i + 1) = true) i hi)
  | cpendsgir irq =>
    change (s.writeCpendsgir cpu irq value).Fixed g
    unfold writeCpendsgir
    dsimp only
    split
    · exact ⟨(h.repend irq (· &&& ~~~cpuMask cpu)).irq, h.target⟩
    · exact ⟨h.irq, h.target⟩
  | spendsgir irq => exact ⟨(h.repend irq (· ||| cpuMask cpu)).irq, h.target⟩

theorem step {e : Event} (hlegacy : g.legacy = false) (hp : e.Possible g)
    (hstep : Stepped g s e s') : s'.Fixed g := by
  rcases hstep.changes hlegacy hp with hregs | ⟨cpu, secure, offset, data, size, rfl, -, rfl⟩ |
    ⟨cpu, secure, data, rfl, hok⟩ | ⟨cpu, secure, ret, irq, t, rfl, -, -, ht, hregs⟩ |
    ⟨line, level, irq, cm, target, rfl, -, hregs⟩
  · exact h.of_regs hregs
  · refine EachByte.keeps (I := Fixed g) ?_ (eachByte_true s _) h
    exact fun t offset value r ht _ hr => (ht.writeReg hlegacy (decoded_of_distReg hr)).of_regs
      regs_gicUpdate
  · rw [(writeSgir_eq_ok hok).2]
    have hset := h.repend (data.setWidth 32 &&& 0x3ff).toNat (· ||| sgirMask cpu (data.setWidth 32))
    refine of_regs ?_ regs_gicUpdate
    exact ⟨hset.irq, h.target⟩
  · refine of_regs ?_ hregs
    have hclear := h.repend irq (· &&& ~~~s.modelMask irq cpu)
    rcases takePending_cases ht with ⟨-, rfl⟩ | ⟨-, -, rest, rfl⟩
    · exact ⟨hclear.irq, h.target⟩
    · split
      · exact ⟨hclear.irq, h.target⟩
      · exact ⟨h.irq, h.target⟩
  · refine of_regs (h.modify ?_) hregs
    have hst := h.irq irq
    split <;> exact ⟨hst.model, hst.sgi, hst.shared⟩

end Fixed

theorem fixed_of_reach {ok : GicState → Event → Prop} (hlegacy : g.legacy = false)
    (h : (gicMachine g).Reach ok s) : s.Fixed g := by
  refine h.invariant ?_ fun s e s' _ hs _ hstep =>
    hs.step hlegacy (step_cases hstep).1 (step_cases hstep).2
  rintro _ rfl
  have hreset : (zeroed.armGicCommonReset g).Fixed g := by
    refine ⟨fun n => ⟨rfl, fun hn => ⟨decide_eq_true hn, if_pos hn⟩, fun _ _ _ _ _ => ?_⟩,
      fun hcpu n _ => if_neg hcpu⟩
    simp [armGicCommonReset]
  unfold poweredOn
  split
  · exact ⟨hreset.irq, hreset.target⟩
  · exact hreset

end GicState

end QemuAndroid.Gic
