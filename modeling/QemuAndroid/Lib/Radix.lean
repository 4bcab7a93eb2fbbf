import Mathlib.Algebra.Order.Group.Nat

/-!
# Blocks of a radix tree

In a radix tree of base `b`, the entry with prefix `q` at height `h` stands for the
block of the numbers `x` with `x / b ^ h = q`.  The blocks of a height are disjoint,
and each block of height `h + 1` is cut into `b` blocks of height `h`.  A node is
labelled with the block it stands for; `Under` says that a label lies inside a block,
and is what keeps the nodes of different subtrees apart.

`fill` is a map with an interval overwritten.
-/

namespace QemuAndroid.Lib

/-! ## Blocks -/

variable {x h q : Nat}

section Blocks

variable {b j : Nat}

theorem div_pow_succ (x h : Nat) : x / b ^ (h + 1) = x / b ^ h / b := by
  rw [Nat.div_div_eq_div_mul, pow_succ]

/-- A number lies in one of the `b` parts of its block. -/
theorem div_pow_eq_child (hx : x / b ^ (h + 1) = q) : x / b ^ h = b * q + x / b ^ h % b := by
  rw [← hx, div_pow_succ, Nat.div_add_mod]

/-- A part of a block lies in the block. -/
theorem div_pow_of_child (hj : j < b) (hx : x / b ^ h = b * q + j) :
    x / b ^ (h + 1) = q := by
  rw [div_pow_succ, hx, Nat.mul_add_div (by omega), Nat.div_eq_of_lt hj, add_zero]

theorem div_pow_eq_iff (hb : 0 < b) : x / b ^ h = q ↔ q * b ^ h ≤ x ∧ x < q * b ^ h + b ^ h := by
  have hpos : 0 < b ^ h := Nat.pow_pos hb
  rw [Nat.div_eq_iff hpos]
  omega

end Blocks

/-! ## Labels -/

/-- The block with the label `l` lies in the block with prefix `q` at height `h`. -/
def Under (b h q : Nat) (l : Nat × Nat) : Prop := l.1 ≤ h ∧ l.2 / b ^ (h - l.1) = q

theorem under_self (b h q : Nat) : Under b h q (h, q) := by
  simp [Under]

variable {b lo hi v : Nat} {l : Nat × Nat} {m : Nat → Nat}

/-- What lies under a part of a block lies under the block. -/
theorem Under.parent {j : Nat} (hj : j < b) (hu : Under b h (b * q + j) l) :
    Under b (h + 1) q l := by
  obtain ⟨hle, hq⟩ := hu
  refine ⟨by omega, ?_⟩
  rw [show h + 1 - l.1 = h - l.1 + 1 by omega]
  exact div_pow_of_child hj hq

theorem Under.trans {l' : Nat × Nat} (h₁ : Under b h q l) (h₂ : Under b l.1 l.2 l') :
    Under b h q l' := by
  obtain ⟨hle, hq⟩ := h₁
  obtain ⟨hle', hq'⟩ := h₂
  refine ⟨hle'.trans hle, ?_⟩
  rw [show h - l'.1 = (l.1 - l'.1) + (h - l.1) by omega, pow_add, ← Nat.div_div_eq_div_mul, hq', hq]

/-- A label lies under one part of a block at most. -/
theorem Under.eq {q' : Nat} (h₁ : Under b h q l) (h₂ : Under b h q' l) : q = q' :=
  h₁.2.symm.trans h₂.2

/-- A block does not lie under its parts. -/
theorem not_under_succ (b h q q' : Nat) : ¬ Under b h q (h + 1, q') := by
  rintro ⟨hle, -⟩
  simp at hle

/-! ## Intervals of a map -/

/-- The map `m` with the value `v` from `lo` up to `hi`. -/
def fill (m : Nat → Nat) (lo hi v : Nat) : Nat → Nat :=
  fun x => if lo ≤ x ∧ x < hi then v else m x

theorem fill_of_mem (h₁ : lo ≤ x) (h₂ : x < hi) : fill m lo hi v x = v := if_pos ⟨h₁, h₂⟩

theorem fill_of_notMem (h : ¬ (lo ≤ x ∧ x < hi)) : fill m lo hi v x = m x := if_neg h

theorem fill_empty (h : hi ≤ lo) : fill m lo hi v = m := by
  funext x
  exact fill_of_notMem (by omega)

theorem fill_fill {mid : Nat} (h₁ : lo ≤ mid) (h₂ : mid ≤ hi) :
    fill (fill m lo mid v) mid hi v = fill m lo hi v := by
  funext x
  simp only [fill]
  split
  · next h => rw [if_pos (by omega)]
  · next h =>
    split
    · next h' => rw [if_pos (by omega)]
    · next h' => rw [if_neg (by omega)]

end QemuAndroid.Lib
