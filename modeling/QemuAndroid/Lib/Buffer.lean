import Mathlib.Data.BitVec

/-!
# Byte buffers

A buffer is a function from offsets to bytes; that a program stays inside a buffer
of a given length is a property of what it reads and writes.  `AgreeOn` compares two
buffers on an interval, `memcpy` copies a run of bytes.
-/

namespace QemuAndroid.Lib

/-- The bytes from some address on. -/
abbrev Buffer := Nat → UInt8

def AgreeOn (a b : Buffer) (lo hi : Nat) : Prop := ∀ k, lo ≤ k → k < hi → a k = b k

namespace AgreeOn

variable {a b c : Buffer} {lo mid hi : Nat}

theorem refl (a : Buffer) (lo hi : Nat) : AgreeOn a a lo hi := fun _ _ _ => rfl

theorem mono (h : AgreeOn a b lo hi) {lo' hi' : Nat} (hlo : lo ≤ lo') (hhi : hi' ≤ hi) :
    AgreeOn a b lo' hi' :=
  fun k h₁ h₂ => h k (Nat.le_trans hlo h₁) (Nat.lt_of_lt_of_le h₂ hhi)

theorem append (h₁ : AgreeOn a b lo mid) (h₂ : AgreeOn a b mid hi) : AgreeOn a b lo hi := by
  intro k hlo hhi
  rcases lt_or_ge k mid with h | h
  · exact h₁ k hlo h
  · exact h₂ k h hhi

end AgreeOn

/-! ## Writing -/

/-- `dst[i] = x`. -/
def Buffer.set (dst : Buffer) (i : Nat) (x : UInt8) : Buffer := fun k => if k = i then x else dst k

@[simp] theorem Buffer.set_self (dst : Buffer) (i : Nat) (x : UInt8) : dst.set i x i = x :=
  if_pos rfl

theorem Buffer.set_of_ne {dst : Buffer} {i k : Nat} (x : UInt8) (h : k ≠ i) :
    dst.set i x k = dst k := if_neg h

/-- `memcpy(dst + d, src + i, n)`. -/
def memcpy (dst : Buffer) (d : Nat) (src : Buffer) (i n : Nat) : Buffer :=
  fun k => if d ≤ k ∧ k < d + n then src (i + (k - d)) else dst k

theorem memcpy_of_mem {dst src : Buffer} {d i n k : Nat} (h₁ : d ≤ k) (h₂ : k < d + n) :
    memcpy dst d src i n k = src (i + (k - d)) := if_pos ⟨h₁, h₂⟩

theorem memcpy_of_notMem {dst src : Buffer} {d i n k : Nat} (h : ¬ (d ≤ k ∧ k < d + n)) :
    memcpy dst d src i n k = dst k := if_neg h

theorem memcpy_congr {dst src src' : Buffer} {d i n : Nat} (h : AgreeOn src' src i (i + n)) :
    memcpy dst d src' i n = memcpy dst d src i n := by
  funext k
  exact ite_congr rfl (fun hk => h _ (by omega) (by omega)) fun _ => rfl

end QemuAndroid.Lib
