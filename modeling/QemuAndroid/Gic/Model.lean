import QemuAndroid.Lib.Machine
import QemuAndroid.Lib.Slice

/-!
# The interrupt controller

The device of `hw/intc/arm_gic.c` with the state of `arm_gic_common.h` and the macros of
`gic_internal.h`.  The arrays of the device are functions of the index, masks of CPUs are bit
vectors of eight bits, and interrupt numbers are natural numbers.  Every access that the guest can
make to the distributor and to a CPU interface is a function from state to state, and
`GicState.step` puts them together with the input lines.

The guest chooses the interrupt number of a software interrupt, so a store for it may be outside of
the arrays; this, a failed assertion and a loop that does not end are a `Fault`.
-/

namespace QemuAndroid.Gic

open Lib Function

abbrev gicMaxirq : Nat := 1020

/-- `GIC_INTERNAL`: the interrupts below are private to each CPU. -/
abbrev gicInternal : Nat := 32

abbrev gicNrSgis : Nat := 16

abbrev gicNcpu : Nat := 8

abbrev rev11mpcore : Nat := 0

abbrev revNvic : Nat := 0xffffffff

/-! ## Configuration -/

/-- The properties of a device that `arm_gic_common_realize` has accepted. -/
structure GicConfig where
  numCpu : Nat
  numIrq : Nat
  revision : Nat
  securityExtn : Bool
  numCpu_le : numCpu ≤ gicNcpu
  numIrq_le : numIrq ≤ gicMaxirq
  internal_le : gicInternal ≤ numIrq
  numIrq_dvd : 32 ∣ numIrq
  plain : securityExtn = true → revision ≠ rev11mpcore ∧ revision ≠ revNvic

namespace GicConfig

variable (g : GicConfig)

/-- `s->revision == REV_11MPCORE || s->revision == REV_NVIC`. -/
def legacy : Bool := g.revision == rev11mpcore || g.revision == revNvic

def gicHasGroups : Bool := g.revision == 2 || g.securityExtn

def gicBaseIrq : Nat := if g.revision = revNvic then 32 else 0

/-- An access that sees the Non-secure view. -/
def nonSecure (secure : Bool) : Bool := g.securityExtn && !secure

end GicConfig

/-! ## State -/

abbrev CpuMask := BitVec 8

/-- `1 << cpu`. -/
def cpuMask (cpu : Nat) : CpuMask := BitVec.twoPow 8 cpu

abbrev allCpuMask : CpuMask := BitVec.allOnes 8

def meets (m cm : CpuMask) : Bool := (m &&& cm) != 0#8

structure IrqState where
  enabled : CpuMask
  pending : CpuMask
  active : CpuMask
  level : CpuMask
  model : Bool
  edgeTrigger : Bool
  group : CpuMask

/-- The registers of `GICState`, and the levels of its outputs. -/
structure GicState where
  parentIrq : Nat → Bool
  parentFiq : Nat → Bool
  ctlr : BitVec 32
  cpuCtlr : Nat → BitVec 32
  irqState : Nat → IrqState
  irqTarget : Nat → CpuMask
  priority1 : Nat → Nat → BitVec 8
  priority2 : Nat → BitVec 8
  /-- The interrupt that was running when an interrupt was acknowledged on a CPU. -/
  lastActive : Nat → Nat → Nat
  /-- The CPUs that have made a software interrupt pending on a CPU. -/
  sgiPending : Nat → Nat → CpuMask
  priorityMask : Nat → Nat
  runningIrq : Nat → Nat
  runningPriority : Nat → Nat
  currentPending : Nat → Nat
  bpr : Nat → Nat
  abpr : Nat → Nat
  apr : Nat → Nat → BitVec 32

/-- Store in an array with two indices. -/
def store2 {α : Type} (a : Nat → Nat → α) (i j : Nat) (v : α) : Nat → Nat → α :=
  fun x y => if x = i ∧ y = j then v else a x y

/-- What stops the emulator. -/
inductive Fault
  | assertion
  /-- A store outside of an array. -/
  | outOfBounds
  | hang
deriving DecidableEq, Repr

/-- A register of the distributor, with its first interrupt. -/
inductive DistReg
  | ctlr
  | ignored
  | group (irq : Nat)
  | setEnable (irq : Nat)
  | clearEnable (irq : Nat)
  | setPending (irq : Nat)
  | clearPending (irq : Nat)
  | priority (irq : Nat)
  | target (irq : Nat)
  | config (irq : Nat)
  | cpendsgir (irq : Nat)
  | spendsgir (irq : Nat)

/-- The register that `gic_dist_writeb` writes at an offset; `none` for a bad offset. -/
def distReg (g : GicConfig) (offset : Nat) (secure : Bool) : Option DistReg :=
  let within (irq : Nat) (r : Nat → DistReg) : Option DistReg :=
    if g.numIrq ≤ irq then none else some (r irq)
  let base := g.gicBaseIrq
  if offset < 0x100 then
    if offset = 0 then some .ctlr
    else if offset < 4 then some .ignored
    else if 0x80 ≤ offset then
      if !g.nonSecure secure && g.gicHasGroups then within ((offset - 0x80) * 8 + base) .group
      else some .ignored
    else none
  else if offset < 0x180 then within ((offset - 0x100) * 8 + base) .setEnable
  else if offset < 0x200 then within ((offset - 0x180) * 8 + base) .clearEnable
  else if offset < 0x280 then within ((offset - 0x200) * 8 + base) .setPending
  else if offset < 0x300 then within ((offset - 0x280) * 8 + base) .clearPending
  else if offset < 0x400 then none
  else if offset < 0x800 then within (offset - 0x400 + base) .priority
  else if offset < 0xc00 then
    if g.numCpu ≠ 1 ∨ g.revision = rev11mpcore then within (offset - 0x800 + base) .target
      else some .ignored
  else if offset < 0xf00 then within ((offset - 0xc00) * 4 + base) .config
  else if offset < 0xf10 then none
  else if offset < 0xf20 then if g.legacy then none else some (.cpendsgir (offset - 0xf10))
  else if offset < 0xf30 then if g.legacy then none else some (.spendsgir (offset - 0xf20))
  else none

namespace GicState

variable (g : GicConfig) (s : GicState)

def modifyIrq (irq : Nat) (f : IrqState → IrqState) : GicState :=
  { s with irqState := update s.irqState irq (f (s.irqState irq)) }

/-- The loop over the interrupts of one register. -/
def forIrqs (irq count : Nat) (f : Nat → IrqState → IrqState) : GicState :=
  { s with irqState := modifyRange s.irqState irq count f }

def setPending (irq : Nat) (cm : CpuMask) : GicState :=
  s.modifyIrq irq fun st => { st with pending := st.pending ||| cm }

def clearPending (irq : Nat) (cm : CpuMask) : GicState :=
  s.modifyIrq irq fun st => { st with pending := st.pending &&& ~~~cm }

def getPriority (irq cpu : Nat) : BitVec 8 :=
  if irq < gicInternal then s.priority1 irq cpu else s.priority2 (irq - gicInternal)

def testGroup (irq cpu : Nat) : Bool := meets (s.irqState irq).group (cpuMask cpu)

def gicTestPending (irq : Nat) (cm : CpuMask) : Bool :=
  if g.legacy then meets (s.irqState irq).pending cm
  else
    meets (s.irqState irq).pending cm ||
      (!(s.irqState irq).edgeTrigger && meets (s.irqState irq).level cm)

/-! ## Outputs -/

variable (cpu irq : Nat)

/-- The interrupt is enabled, pending and targeted at the CPU. -/
def candidate : Bool :=
  meets (s.irqState irq).enabled (cpuMask cpu) && s.gicTestPending g irq (cpuMask cpu) &&
    (decide (irq < gicInternal) || meets (s.irqTarget irq) (cpuMask cpu))

/-- The search of `gic_update`: the best priority so far and its interrupt. -/
def bestIrq (cpu : Nat) : Nat × Nat := (List.range g.numIrq).foldl (fun best irq =>
      if s.candidate g cpu irq ∧ (s.getPriority irq cpu).toNat < best.1
      then ((s.getPriority irq cpu).toNat, irq) else best)
    (0x100, 1023)

/-- What a round of the loop of `gic_update` computes: `current_pending`, `irq_level` and
`fiq_level`. -/
def outputsOf (cpu : Nat) : Nat × Bool × Bool :=
  if s.ctlr &&& 3 = 0 ∨ s.cpuCtlr cpu &&& 3 = 0 then (1023, false, false)
  else
    let best := s.bestIrq g cpu
    if best.1 < s.priorityMask cpu then
      if best.1 < s.runningPriority cpu then
        let group := (s.testGroup best.2 cpu).toNat
        if s.ctlr.getLsbD group ∧ (s.cpuCtlr cpu).getLsbD group then
          if group = 0 ∧ (s.cpuCtlr cpu).getLsbD 3 then (best.2, false, true)
            else (best.2, true, false)
        else (best.2, false, false)
      else (best.2, false, false)
    else (1023, false, false)

/-- One round of the loop of `gic_update`. -/
def updateCpu (cpu : Nat) : GicState :=
  { s with
    currentPending := update s.currentPending cpu (s.outputsOf g cpu).1
    parentIrq := update s.parentIrq cpu (s.outputsOf g cpu).2.1
    parentFiq := update s.parentFiq cpu (s.outputsOf g cpu).2.2 }

def gicUpdate : GicState := (List.range g.numCpu).foldl (fun s cpu => s.updateCpu g cpu) s

/-! ## Input lines -/

def gicSetPendingPrivate : GicState :=
  if s.gicTestPending g irq (cpuMask cpu) then s else (s.setPending irq (cpuMask cpu)).gicUpdate g

def gicSetIrq11mpcore (irq : Nat) (level : Int) (cm target : CpuMask) : GicState :=
  s.modifyIrq irq fun st =>
    if level ≠ 0 then
      { st with
        level := st.level ||| cm
        pending := if st.edgeTrigger || meets st.enabled cm then st.pending ||| target
          else st.pending }
    else { st with level := st.level &&& ~~~cm }

def gicSetIrqGeneric (irq : Nat) (level : Int) (cm target : CpuMask) : GicState :=
  s.modifyIrq irq fun st =>
    if level ≠ 0 then
      { st with
        level := st.level ||| cm
        pending := if st.edgeTrigger then st.pending ||| target else st.pending }
    else { st with level := st.level &&& ~~~cm }

/-- The part of `gic_set_irq` after the input line is decoded. -/
def setInput (irq : Nat) (level : Int) (cm target : CpuMask) : GicState :=
  if level = (meets (s.irqState irq).level cm).toNat then s
  else
    (if g.legacy then s.gicSetIrq11mpcore irq level cm target
      else s.gicSetIrqGeneric irq level cm target).gicUpdate g

def gicSetIrq (line : Nat) (level : Int) : Except Fault GicState :=
  if line < g.numIrq - gicInternal then
    let irq := line + gicInternal
    .ok (s.setInput g irq level allCpuMask (s.irqTarget irq))
  else
    let line := line - (g.numIrq - gicInternal)
    let irq := line % gicInternal
    let cm := cpuMask (line / gicInternal)
    if gicNrSgis ≤ irq then .ok (s.setInput g irq level cm cm) else .error .assertion

/-! ## CPU interface -/

def gicGetCurrentPendingIrq (cpu : Nat) (secure : Bool) : Nat :=
  let pendingIrq := s.currentPending cpu
  if pendingIrq < gicMaxirq ∧ g.gicHasGroups then
    let group := s.testGroup pendingIrq cpu
    let secure := !g.securityExtn || secure
    if !group && !secure then 1023
    else if group && secure && !(s.cpuCtlr cpu).getLsbD 2 then 1022
    else pendingIrq
  else pendingIrq

def gicSetRunningIrq : GicState :=
  { s with
    runningIrq := update s.runningIrq cpu irq
    runningPriority := update s.runningPriority cpu
      (if irq = 1023 then 0x100 else (s.getPriority irq cpu).toNat) }.gicUpdate g

def ctz32 (m : CpuMask) : Nat := ((List.range 8).find? m.getLsbD).getD 32

/-- `GIC_TEST_MODEL(irq) ? ALL_CPU_MASK : cm`. -/
def modelMask (irq cpu : Nat) : CpuMask := if (s.irqState irq).model then allCpuMask
    else cpuMask cpu

/-- The pending state that `gic_acknowledge_irq` clears, and the value that it returns. -/
def takePending : Except Fault (Nat × GicState) :=
  if !g.legacy && decide (irq < gicNrSgis) then
    if s.sgiPending irq cpu = 0 then .error .assertion
    else
      let src := ctz32 (s.sgiPending irq cpu)
      let rest := s.sgiPending irq cpu &&& ~~~cpuMask src
      let s := { s with sgiPending := store2 s.sgiPending irq cpu rest }
      .ok (irq ||| ((src &&& 0x7) <<< 10), if rest = 0 then s.clearPending irq (s.modelMask irq cpu)
        else s)
  else .ok (irq, s.clearPending irq (s.modelMask irq cpu))

def gicAcknowledgeIrq (cpu : Nat) (secure : Bool) : Except Fault (Nat × GicState) :=
  let irq := s.gicGetCurrentPendingIrq g cpu secure
  if gicMaxirq ≤ irq then .ok (irq, s)
  else if s.runningPriority cpu ≤ (s.getPriority irq cpu).toNat then .ok (1023, s)
  else
    let s := { s with lastActive := store2 s.lastActive irq cpu (s.runningIrq cpu) }
    (s.takePending g cpu irq).map fun (ret, s) => (ret, s.gicSetRunningIrq g cpu irq)

def gicSetPriority (val : BitVec 8) (secure : Bool) : GicState :=
  if g.nonSecure secure && !s.testGroup irq cpu then s
  else
    let val := if g.nonSecure secure then 0x80 ||| (val >>> 1) else val
    if irq < gicInternal then { s with priority1 := store2 s.priority1 irq cpu val }
    else { s with priority2 := update s.priority2 (irq - gicInternal) val }

def gicSetPriorityMask (cpu : Nat) (pmask : BitVec 8) (secure : Bool) : GicState :=
  if g.nonSecure secure then
    if (s.priorityMask cpu).testBit 7 then
      { s with priorityMask := update s.priorityMask cpu (0x80 ||| (pmask >>> 1)).toNat }
    else s
  else { s with priorityMask := update s.priorityMask cpu pmask.toNat }

def gicGetPriorityMask (cpu : Nat) (secure : Bool) : Nat :=
  let pmask := s.priorityMask cpu
  if g.nonSecure secure then if pmask.testBit 7 then (pmask <<< 1) &&& 0xff else 0 else pmask

def gicGetCpuControl (cpu : Nat) (secure : Bool) : BitVec 32 :=
  if g.nonSecure secure then (s.cpuCtlr cpu &&& 0x402) >>> 1 else s.cpuCtlr cpu

def gicSetCpuControl (cpu : Nat) (value : BitVec 32) (secure : Bool) : GicState :=
  if g.nonSecure secure then
    let mask : BitVec 32 := if g.revision = 2 then 0x402 else 0x2
    { s with
      cpuCtlr := update s.cpuCtlr cpu
        ((s.cpuCtlr cpu &&& ~~~mask) ||| ((value <<< 1) &&& mask)) }
  else
    let mask : BitVec 32 :=
      if g.revision = 2 then if g.securityExtn then 0x61f else 0x21f
      else if g.securityExtn then 0x1f else 0x1
    { s with cpuCtlr := update s.cpuCtlr cpu (value &&& mask) }

def gicGetRunningPriority (cpu : Nat) (secure : Bool) : BitVec 8 :=
  if g.nonSecure secure then
    if (s.runningPriority cpu).testBit 7 then BitVec.ofNat 8 (s.runningPriority cpu <<< 1) else 0
  else BitVec.ofNat 8 (s.runningPriority cpu)

/-- The loop of `gic_complete_irq`: the interrupt right above `irq`, `some none` when `irq` is not
below `tmp`. -/
def findAbove (next : Nat → Nat) (irq : Nat) : Nat → Nat → Option (Option Nat)
  | 0, _ => none
  | fuel + 1, tmp =>
    if next tmp = 1023 then some none
    else if next tmp = irq then some (some tmp)
    else findAbove next irq fuel (next tmp)

/-- The end of `gic_complete_irq`, when the write counts.  There are `GIC_MAXIRQ` interrupts, so a
loop that has not ended after one round more does not end. -/
def complete (update : Bool) : Except Fault GicState :=
  if irq ≠ s.runningIrq cpu then
    match findAbove (s.lastActive · cpu) irq (gicMaxirq + 1) (s.runningIrq cpu) with
    | none => .error .hang
    | some above =>
      let s := match above with
        | none => s
        | some tmp => { s with lastActive := store2 s.lastActive tmp cpu (s.lastActive irq cpu) }
      .ok (if update then s.gicUpdate g else s)
  else .ok (s.gicSetRunningIrq g cpu (s.lastActive (s.runningIrq cpu) cpu))

def gicCompleteIrq (secure : Bool) : Except Fault GicState :=
  if g.numIrq ≤ irq then .ok s
  else if s.runningIrq cpu = 1023 then .ok s
  else
    -- a level-triggered interrupt that is still raised is pending again
    let update :=
      g.legacy && (!(s.irqState irq).edgeTrigger && meets (s.irqState irq).enabled (cpuMask cpu) &&
        meets (s.irqState irq).level (cpuMask cpu) && meets (s.irqTarget irq) (cpuMask cpu))
    let s := if update then s.setPending irq (cpuMask cpu) else s
    if g.nonSecure secure && !s.testGroup irq cpu then .ok s
    else s.complete g cpu irq update

/-- `gic_cpu_read`; `none` for a bad offset. -/
def gicCpuRead (cpu offset : Nat) (secure : Bool) : Except Fault (Option Nat × GicState) :=
  match offset with
  | 0x00 => .ok (some (s.gicGetCpuControl g cpu secure).toNat, s)
  | 0x04 => .ok (some (s.gicGetPriorityMask g cpu secure), s)
  | 0x08 => .ok (some (if g.nonSecure secure then s.abpr cpu else s.bpr cpu), s)
  | 0x0c => (s.gicAcknowledgeIrq g cpu secure).map fun (irq, s) => (some irq, s)
  | 0x14 => .ok (some (s.gicGetRunningPriority g cpu secure).toNat, s)
  | 0x18 => .ok (some (s.gicGetCurrentPendingIrq g cpu secure), s)
  | 0x1c => .ok (some (if !g.gicHasGroups || g.nonSecure secure then 0 else s.abpr cpu), s)
  | 0xd0 | 0xd4 | 0xd8 | 0xdc => .ok (some (s.apr ((offset - 0xd0) / 4) cpu).toNat, s)
  | _ => .ok (none, s)

def gicCpuWrite (cpu offset : Nat) (value : BitVec 32) (secure : Bool) : Except Fault GicState :=
  match offset with
  | 0x00 => .ok ((s.gicSetCpuControl g cpu value secure).gicUpdate g)
  | 0x04 => .ok ((s.gicSetPriorityMask g cpu (value.setWidth 8) secure).gicUpdate g)
  | 0x08 =>
    .ok ((if g.nonSecure secure then
        { s with abpr := update s.abpr cpu (max (value &&& 7).toNat 1) }
      else { s with bpr := update s.bpr cpu (value &&& 7).toNat }).gicUpdate g)
  | 0x10 => s.gicCompleteIrq g cpu (value &&& 0x3ff).toNat secure
  | 0x1c =>
    if !g.gicHasGroups || g.nonSecure secure then .ok s
    else .ok (gicUpdate g { s with abpr := update s.abpr cpu (max (value &&& 7).toNat 1) })
  | 0xd0 | 0xd4 | 0xd8 | 0xdc => .ok (s.gicUpdate g)
  | _ => .ok s

/-! ## Distributor -/

/-- The CPUs whose bits a register of the distributor holds for an interrupt. -/
def bankMask : CpuMask := if irq < gicInternal then cpuMask cpu else allCpuMask

def writeCtlr (value : BitVec 32) (secure : Bool) : GicState :=
  if g.nonSecure secure then
    { s with ctlr := (s.ctlr &&& ~~~(2 : BitVec 32)) ||| ((value &&& 1) <<< 1) }
  else { s with ctlr := value &&& if g.gicHasGroups then 3 else 1 }

def writeGroups (value : BitVec 32) : GicState := s.forIrqs irq 8 fun i st =>
    { st with group :=
        if value.getLsbD i then st.group ||| bankMask cpu irq
          else st.group &&& ~~~bankMask cpu irq }

def writeSetEnable (value : BitVec 32) : GicState :=
  let value := if irq < gicNrSgis then 0xff else value
  s.forIrqs irq 8 fun i st =>
    if value.getLsbD i then
      let mask := if irq < gicInternal then cpuMask cpu else s.irqTarget (irq + i)
      { st with
        enabled := st.enabled ||| bankMask cpu irq
        pending := if meets st.level mask && !st.edgeTrigger then st.pending ||| mask
          else st.pending }
    else st

def writeClearEnable (value : BitVec 32) : GicState :=
  let value := if irq < gicNrSgis then 0 else value
  s.forIrqs irq 8 fun i st =>
    if value.getLsbD i then { st with enabled := st.enabled &&& ~~~bankMask cpu irq } else st

def writeSetPending (irq : Nat) (value : BitVec 32) : GicState :=
  let value := if irq < gicNrSgis then 0 else value
  s.forIrqs irq 8 fun i st =>
    if value.getLsbD i then { st with pending := st.pending ||| s.irqTarget (irq + i) } else st

/-- Interrupt Clear Pending: for all CPUs, also where the interrupt is private to each. -/
def writeClearPending (irq : Nat) (value : BitVec 32) : GicState :=
  let value := if irq < gicNrSgis then 0 else value
  s.forIrqs irq 8 fun i st =>
    if value.getLsbD i then { st with pending := st.pending &&& ~~~allCpuMask } else st

def writeTarget (irq : Nat) (value : BitVec 32) : GicState :=
  let value : CpuMask :=
    if irq < 29 then 0 else if irq < gicInternal then allCpuMask else value.setWidth 8
  { s with irqTarget := update s.irqTarget irq value }

def writeConfig (irq : Nat) (value : BitVec 32) : GicState :=
  let value := if irq < gicNrSgis then value ||| 0xaa else value
  s.forIrqs irq 4 fun i st =>
    { st with
      model := if g.legacy then value.getLsbD (2 * i) else st.model
      edgeTrigger := value.getLsbD (2 * i + 1) }

def writeCpendsgir (value : BitVec 32) : GicState :=
  let rest := s.sgiPending irq cpu &&& ~~~value.setWidth 8
  let s := { s with sgiPending := store2 s.sgiPending irq cpu rest }
  if rest = 0 then s.clearPending irq (cpuMask cpu) else s

def writeSpendsgir (value : BitVec 32) : GicState :=
  let s := s.setPending irq (cpuMask cpu)
  { s with sgiPending := store2 s.sgiPending irq cpu (s.sgiPending irq cpu ||| value.setWidth 8) }

/-- The store of `gic_dist_writeb` to a register. -/
def writeReg (cpu : Nat) (value : BitVec 32) (secure : Bool) : DistReg → GicState
  | .ctlr => s.writeCtlr g value secure
  | .ignored => s
  | .group irq => s.writeGroups cpu irq value
  | .setEnable irq => s.writeSetEnable cpu irq value
  | .clearEnable irq => s.writeClearEnable cpu irq value
  | .setPending irq => s.writeSetPending irq value
  | .clearPending irq => s.writeClearPending irq value
  | .priority irq => s.gicSetPriority g cpu irq (value.setWidth 8) secure
  | .target irq => s.writeTarget irq value
  | .config irq => s.writeConfig g irq value
  | .cpendsgir irq => s.writeCpendsgir cpu irq value
  | .spendsgir irq => s.writeSpendsgir cpu irq value

def gicDistWriteb (cpu offset : Nat) (value : BitVec 32) (secure : Bool) : GicState :=
  match distReg g offset secure with
  | none => s
  | some r => (s.writeReg g cpu value secure r).gicUpdate g

def gicDistWritew (cpu offset : Nat) (value : BitVec 32) (secure : Bool) : GicState :=
  (s.gicDistWriteb g cpu offset (value &&& 0xff) secure).gicDistWriteb g cpu (offset + 1)
    (value >>> 8) secure

/-- The CPUs that a write to `GICD_SGIR` targets. -/
def sgirMask (cpu : Nat) (value : BitVec 32) : CpuMask :=
  match ((value >>> 24) &&& 3).toNat with
  | 0 => (value >>> 16).setWidth 8
  | 1 => allCpuMask ^^^ cpuMask cpu
  | 2 => cpuMask cpu
  | _ => allCpuMask

/-- The loop over the targets of a software interrupt. -/
def sgiTargets (irq cpu : Nat) : Nat → CpuMask → (Nat → Nat → CpuMask) → Nat → Nat → CpuMask
  | 0, _, sgi => sgi
  | fuel + 1, mask, sgi =>
    let target := ctz32 mask
    if target < gicNcpu then
      sgiTargets irq cpu fuel (mask &&& ~~~cpuMask target)
        (store2 sgi irq target (sgi irq target ||| cpuMask cpu))
    else sgi

def writeSgir (cpu : Nat) (value : BitVec 32) : Except Fault GicState :=
  let irq := (value &&& 0x3ff).toNat
  let mask := sgirMask cpu value
  -- `irq_state` and `sgi_pending` have an entry for `irq`
  if gicMaxirq ≤ irq ∨ gicNrSgis ≤ irq ∧ mask ≠ 0 then .error .outOfBounds
  else
    let s := s.setPending irq mask
    .ok (gicUpdate g { s with sgiPending := sgiTargets irq cpu gicNcpu mask s.sgiPending })

def gicDistWritel (cpu offset : Nat) (value : BitVec 32) (secure : Bool) : Except Fault GicState :=
  if offset = 0xf00 then s.writeSgir g cpu value
  else
    .ok ((s.gicDistWritew g cpu offset (value &&& 0xffff) secure).gicDistWritew g cpu (offset + 2)
      (value >>> 16) secure)

def gicDistWrite (cpu offset : Nat) (data : BitVec 64) (size : Nat) (secure : Bool) :
    Except Fault GicState :=
  match size with
  | 1 => .ok (s.gicDistWriteb g cpu offset (data.setWidth 32) secure)
  | 2 => .ok (s.gicDistWritew g cpu offset (data.setWidth 32) secure)
  | 4 => s.gicDistWritel g cpu offset (data.setWidth 32) secure
  | _ => .ok s

/-! ## The device -/

def armGicCommonReset : GicState :=
  let each {α : Type} (a : Nat → α) (v : α) : Nat → α :=
    fun cpu => if cpu < g.numCpu then v else a cpu
  { s with
    irqState := fun i =>
      { enabled := if i < gicNrSgis then allCpuMask else 0, pending := 0, active := 0, level := 0,
        model := false, edgeTrigger := decide (i < gicNrSgis), group := 0 }
    priorityMask := each s.priorityMask (if g.revision = rev11mpcore then 0xf0 else 0)
    currentPending := each s.currentPending 1023
    runningIrq := each s.runningIrq 1023
    runningPriority := each s.runningPriority 0x100
    cpuCtlr := each s.cpuCtlr 0
    bpr := each s.bpr 0
    abpr := each s.abpr 1
    priority1 := fun i => each (s.priority1 i) 0
    sgiPending := fun i => each (s.sgiPending i) 0
    priority2 := fun _ => 0
    irqTarget := fun _ => if g.numCpu = 1 then 1 else 0
    ctlr := 0 }

/-- The zeroed memory that a device is made in. -/
def zeroed : GicState where
  parentIrq _ := false
  parentFiq _ := false
  ctlr := 0
  cpuCtlr _ := 0
  irqState _ := ⟨0, 0, 0, 0, false, false, 0⟩
  irqTarget _ := 0
  priority1 _ _ := 0
  priority2 _ := 0
  lastActive _ _ := 0
  sgiPending _ _ := 0
  priorityMask _ := 0
  runningIrq _ := 0
  runningPriority _ := 0
  currentPending _ := 0
  bpr _ := 0
  abpr _ := 0
  apr _ _ := 0

/-- A new device: `arm_gic_common_reset`, and for the NVIC what `armv7m_nvic_reset` adds. -/
def poweredOn : GicState :=
  let s := zeroed.armGicCommonReset g
  if g.revision = revNvic then
    { s with
      cpuCtlr := update s.cpuCtlr 0 1
      priorityMask := update s.priorityMask 0 0x100
      ctlr := 1 }
  else s

end GicState

/-- An access of the guest, through the interface of a CPU. -/
inductive Access
  | distWrite (offset : Nat) (data : BitVec 64) (size : Nat)
  | cpuRead (offset : Nat)
  | cpuWrite (offset : Nat) (value : BitVec 32)
deriving DecidableEq, Repr

inductive Event
  | access (cpu : Nat) (secure : Bool) (a : Access)
  | setIrq (line : Nat) (level : Int)
  /-- The NVIC makes an exception pending. -/
  | setPendingPrivate (irq : Nat)
deriving DecidableEq, Repr

def GicState.access (g : GicConfig) (s : GicState) (cpu : Nat) (secure : Bool) :
    Access → Except Fault GicState
  | .distWrite offset data size => s.gicDistWrite g cpu offset data size secure
  | .cpuRead offset => (s.gicCpuRead g cpu offset secure).map Prod.snd
  | .cpuWrite offset value => s.gicCpuWrite g cpu offset value secure

/-- The event can happen: the CPU has an interface, and the line is one of the inputs. -/
def Event.Possible (g : GicConfig) : Event → Prop
  | .access cpu _ _ => cpu < g.numCpu
  | .setIrq line _ =>
    line < g.numIrq - gicInternal + if g.revision = revNvic then 0 else gicInternal * g.numCpu
  | .setPendingPrivate irq => g.revision = revNvic ∧ irq < g.numIrq ∧ 0 < g.numCpu

instance (g : GicConfig) : DecidablePred (Event.Possible g)
  | .access _ _ _ => inferInstanceAs (Decidable (_ < _))
  | .setIrq _ _ => inferInstanceAs (Decidable (_ < _))
  | .setPendingPrivate _ => inferInstanceAs (Decidable (_ ∧ _))

def GicState.step (g : GicConfig) (s : GicState) : Event → Except Fault GicState
  | .access cpu secure a => s.access g cpu secure a
  | .setIrq line level => s.gicSetIrq g line level
  | .setPendingPrivate irq => .ok (s.gicSetPendingPrivate g 0 irq)

def gicMachine (g : GicConfig) : Machine GicState Event where
  init s := s = .poweredOn g
  step s e := if e.Possible g then (s.step g e).toOption else none

end QemuAndroid.Gic
