import QemuAndroid.Memory.Model

/-!
# An address in two words

`int128.h` keeps a 128-bit integer as a low and a high word, and derives carries and borrows
from comparisons.  Its operations are those of the two's complement integer that the two
words make up, which is what the model of the memory map takes an address to be.
-/

namespace QemuAndroid.Memory

open BitVec

structure Int128 where
  lo : BitVec 64
  hi : BitVec 64
deriving DecidableEq, Repr

namespace Int128

def make64 (a : BitVec 64) : Int128 := ⟨a, 0⟩

/-- `int128_get64`, which asserts that the high word is zero. -/
def get64 (a : Int128) : Option (BitVec 64) := if a.hi = 0#64 then some a.lo else none

def exts64 (a : BitVec 64) : Int128 := ⟨a, if a.slt 0#64 then -1 else 0⟩

def and (a b : Int128) : Int128 := ⟨a.lo &&& b.lo, a.hi &&& b.hi⟩

def rshift (a : Int128) (n : Nat) : Int128 :=
  if n = 0 then a
  else
    let h := a.hi.sshiftRight (n % 64)
    if 64 ≤ n then ⟨h, h.sshiftRight 63⟩
    else ⟨a.lo >>> n ||| a.hi <<< (64 - n), h⟩

def add (a b : Int128) : Int128 :=
  let lo := a.lo + b.lo
  ⟨lo, a.hi + b.hi + if lo < a.lo then 1 else 0⟩

def neg (a : Int128) : Int128 :=
  let lo := -a.lo
  ⟨lo, ~~~a.hi + if lo = 0 then 1 else 0⟩

def sub (a b : Int128) : Int128 :=
  ⟨a.lo - b.lo, a.hi - b.hi - if a.lo < b.lo then 1 else 0⟩

def nonneg (a : Int128) : Bool := (0#64).sle a.hi

def eq (a b : Int128) : Bool := a.lo = b.lo ∧ a.hi = b.hi

def ne (a b : Int128) : Bool := !eq a b

def ge (a b : Int128) : Bool := b.hi.slt a.hi ∨ a.hi = b.hi ∧ b.lo ≤ a.lo

def lt (a b : Int128) : Bool := !ge a b

def le (a b : Int128) : Bool := ge b a

def gt (a b : Int128) : Bool := !le a b

def nz (a : Int128) : Bool := a.lo ≠ 0 ∨ a.hi ≠ 0

def min (a b : Int128) : Int128 := if le a b then a else b

def max (a b : Int128) : Int128 := if ge a b then a else b

/-- What `int128_addto` stores through its pointer. -/
def addto (a b : Int128) : Int128 := add a b

/-- What `int128_subfrom` stores through its pointer. -/
def subfrom (a b : Int128) : Int128 := sub a b

/-! ## The integer that the words make up -/

def bits (a : Int128) : BitVec 128 := a.hi ++ a.lo

def toInt (a : Int128) : Int := a.bits.toInt

variable (a b : Int128)

theorem toNat_bits : a.bits.toNat = a.hi.toNat * 2 ^ 64 + a.lo.toNat := by
  rw [bits, toNat_append, ← Nat.shiftLeft_add_eq_or_of_lt a.lo.isLt, Nat.shiftLeft_eq]

theorem toInt_eq : a.toInt = a.hi.toInt * 2 ^ 64 + a.lo.toNat := by
  simp only [toInt, toInt_eq_toNat_cond, toNat_bits]
  omega

theorem eq_iff : eq a b ↔ a.toInt = b.toInt := by
  have hlo : a.lo = b.lo ↔ a.lo.toNat = b.lo.toNat := toNat_inj.symm
  have hhi : a.hi = b.hi ↔ a.hi.toInt = b.hi.toInt := toInt_inj.symm
  simp only [eq, toInt_eq, decide_eq_true_eq, hlo, hhi]
  omega

theorem ge_iff : ge a b ↔ b.toInt ≤ a.toInt := by
  simp only [ge, toInt_eq, decide_eq_true_eq, slt_iff_toInt_lt, ← toInt_inj,
    le_def]
  omega

theorem bits_add : (add a b).bits = a.bits + b.bits := by
  apply eq_of_toNat_eq
  simp only [toNat_bits, toNat_add, add, lt_def]
  split <;> simp <;> omega

theorem bits_sub : (sub a b).bits = a.bits - b.bits := by
  apply eq_of_toNat_eq
  simp only [toNat_bits, toNat_sub, sub, lt_def]
  split <;> simp <;> omega

theorem bits_neg : (neg a).bits = -a.bits := by
  apply eq_of_toNat_eq
  simp only [toNat_bits, toNat_neg, neg, toNat_add, toNat_not, ← toNat_inj]
  split <;> simp at * <;> omega

theorem bits_rshift {n : Nat} (hn : n < 128) : (rshift a n).bits = a.bits.sshiftRight n := by
  apply eq_of_getLsbD_eq
  intro i hi
  rw [rshift]
  split
  · simp [*]
  split
  · have hmod : n % 64 = n - 64 := by omega
    simp only [bits, hmod, getLsbD_append, getLsbD_sshiftRight, msb_append,
      msb_sshiftRight]
    grind
  · have hmod : n % 64 = n := by omega
    simp only [bits, hmod, getLsbD_append, getLsbD_sshiftRight, msb_append,
      getLsbD_or, getLsbD_ushiftRight, getLsbD_shiftLeft]
    grind

/-- **The two words are one integer.**  For all operands the arithmetic is that of the 128-bit
two's complement integers, the comparisons are those of the signed values, and `int128_get64` reads
a value exactly where the model of the memory map does. -/
theorem operations_twosComplement :
    ((∀ x, (make64 x).bits = x.setWidth 128) ∧ (∀ x, (exts64 x).bits = x.signExtend 128) ∧
      (add a b).bits = a.bits + b.bits ∧ (sub a b).bits = a.bits - b.bits ∧
      (neg a).bits = -a.bits ∧ (and a b).bits = a.bits &&& b.bits ∧
      (∀ n < 128, (rshift a n).bits = a.bits.sshiftRight n) ∧
      (addto a b).bits = a.bits + b.bits ∧ (subfrom a b).bits = a.bits - b.bits) ∧
    ((eq a b ↔ a.toInt = b.toInt) ∧ (ne a b ↔ a.toInt ≠ b.toInt) ∧
      (ge a b ↔ b.toInt ≤ a.toInt) ∧ (lt a b ↔ a.toInt < b.toInt) ∧
      (le a b ↔ a.toInt ≤ b.toInt) ∧ (gt a b ↔ b.toInt < a.toInt) ∧
      (nonneg a ↔ 0 ≤ a.toInt) ∧ (nz a ↔ a.toInt ≠ 0) ∧
      (min a b).toInt = Min.min a.toInt b.toInt ∧ (max a b).toInt = Max.max a.toInt b.toInt) ∧
    a.get64.map BitVec.toNat = int128Get64 a.toInt := by
  have hle : le a b ↔ a.toInt ≤ b.toInt := ge_iff b a
  refine ⟨⟨fun x => ?_, fun x => ?_, bits_add a b, bits_sub a b, bits_neg a, ?_,
    fun n hn => bits_rshift a hn, bits_add a b, bits_sub a b⟩,
    ⟨eq_iff a b, ?_, ge_iff a b, ?_, hle, ?_, ?_, ?_, ?_, ?_⟩, ?_⟩
  · exact (setWidth_eq_append (by decide)).symm
  · rw [signExtend_eq_append_of_le (by decide)]
    simp only [exts64, slt_zero_iff_msb_cond]
    rfl
  · exact and_append.symm
  · rw [ne, Bool.not_eq_true', ← Bool.not_eq_true, eq_iff]
  · rw [lt, Bool.not_eq_true', ← Bool.not_eq_true, ge_iff, not_le]
  · rw [gt, Bool.not_eq_true', ← Bool.not_eq_true, hle, not_le]
  · rw [nonneg, sle_iff_toInt_le, toInt_eq, toInt_zero]
    omega
  · rw [nz, decide_eq_true_eq, ← not_and_or, not_iff_not]
    exact decide_eq_true_iff.symm.trans (eq_iff a ⟨0, 0⟩)
  · simp only [min, min_def, apply_ite toInt, hle]
  · simp only [max, max_comm a.toInt, max_def, apply_ite toInt, ge_iff]
  · simp only [get64, int128Get64, toInt_eq, ← toInt_inj, toInt_zero]
    split <;> split
    all_goals simp
    all_goals omega

end Int128

end QemuAndroid.Memory
