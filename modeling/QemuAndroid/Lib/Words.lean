import Mathlib.Algebra.Order.BigOperators.Group.Finset

/-!
# Arrays of 64-bit words

A bitmap in memory is an array of words.  `wordAt` and `bitAt` read an array as if
it went on with zeros, `bits` is the finite set of its set bits.  The lemmas turn
the word operations that C bitmap code is written with into statements about
single bits: the mask of a range of bits, the mask of the bits from some bit on,
clearing the lowest set bit, and counting bits.
-/

namespace QemuAndroid.Lib

open BitVec Nat Finset

/-- An `unsigned long` of a 64-bit host. -/
abbrev Word := BitVec 64

/-! ## Words -/

/-- The bits from `lo` to `hi`, both included: `(2UL << hi) - (1UL << lo)`. -/
def rangeMask (lo hi : Nat) : Word := (2#64 <<< hi) - (1#64 <<< lo)

/-- The bits below `k`: `(1UL << k) - 1`. -/
def lowMask64 (k : Nat) : Word := (1#64 <<< k) - 1#64

theorem rangeMask_toNat {lo hi : Nat} (hle : lo ≤ hi) (hlt : hi < 64) :
    (rangeMask lo hi).toNat = (2 ^ (hi + 1 - lo) - 1) <<< lo := by
  have hlo : 2 ^ lo < 2 ^ 64 := Nat.pow_lt_pow_right (by decide) (by omega)
  have hmono : 2 ^ lo ≤ 2 ^ (hi + 1) := Nat.pow_le_pow_right (by decide) (by omega)
  have hsplit : (2 ^ (hi + 1 - lo) - 1) <<< lo = 2 ^ (hi + 1) - 2 ^ lo := by
    rw [Nat.shiftLeft_eq, Nat.sub_mul, one_mul, ← Nat.pow_add, Nat.sub_add_cancel (by omega)]
  have htwo : 2 * 2 ^ hi = 2 ^ (hi + 1) := by rw [pow_succ, mul_comm]
  rw [rangeMask, toNat_sub, toNat_shiftLeft, toNat_shiftLeft, toNat_ofNat, toNat_ofNat]
  have hpos : 0 < 2 ^ lo := Nat.two_pow_pos lo
  rcases lt_or_ge (hi + 1) 64 with h | h
  · have hhi : 2 ^ (hi + 1) < 2 ^ 64 := Nat.pow_lt_pow_right (by decide) h
    omega
  · obtain rfl : hi = 63 := by omega
    omega

@[simp] theorem getLsbD_rangeMask {lo hi : Nat} (hle : lo ≤ hi) (hlt : hi < 64) (k : Nat) :
    (rangeMask lo hi).getLsbD k = (decide (lo ≤ k) && decide (k ≤ hi)) := by
  rw [getLsbD, rangeMask_toNat hle hlt, testBit_shiftLeft, testBit_two_pow_sub_one]
  rw [Bool.eq_iff_iff]
  simp only [ge_iff_le, Bool.and_eq_true, decide_eq_true_eq]
  omega

variable {k j n i : Nat} {w : Word} {a : Array Word}

@[simp] theorem getLsbD_lowMask64 (hk : k < 64) (i : Nat) :
    (lowMask64 k).getLsbD i = decide (i < k) := by
  have hlt : 2 ^ k < 2 ^ 64 := Nat.pow_lt_pow_right (by decide) hk
  have hpos : 0 < 2 ^ k := Nat.two_pow_pos k
  have hval : (lowMask64 k).toNat = 2 ^ k - 1 := by
    rw [lowMask64, toNat_sub, toNat_shiftLeft, toNat_ofNat]
    omega
  rw [getLsbD, hval, testBit_two_pow_sub_one]

theorem getLsbD_one_shiftLeft (hk : k < 64) (i : Nat) :
    (1#64 <<< k).getLsbD i = decide (i = k) := by
  rw [← twoPow_eq, getLsbD_twoPow]
  rw [Bool.eq_iff_iff]
  simp only [Bool.and_eq_true, decide_eq_true_eq]
  omega

theorem word_eq_zero_iff : w = 0#64 ↔ ∀ k < 64, w.getLsbD k = false := by
  constructor
  · rintro rfl k -
    simp
  intro h
  refine eq_of_getLsbD_eq fun k hk => ?_
  rw [h k hk]
  simp

theorem word_ne_zero_iff : w ≠ 0#64 ↔ ∃ k < 64, w.getLsbD k = true := by
  rw [ne_eq, word_eq_zero_iff]
  simp

/-- `ctzl`: the index of the lowest set bit. -/
def ctzl (w : Word) : Nat := w.ctz.toNat

/-- `ctpopl`: the number of set bits. -/
def ctpopl (w : Word) : Nat := w.cpop.toNat

theorem ctzl_lt (h : w ≠ 0#64) : ctzl w < 64 := by
  have hlt := ctz_lt_iff_ne_zero.mpr h
  simpa [ctzl, lt_def] using hlt

theorem getLsbD_ctzl (h : w ≠ 0#64) : w.getLsbD (ctzl w) = true := getLsbD_true_ctz_of_ne_zero h

theorem getLsbD_of_lt_ctzl (h : k < ctzl w) : w.getLsbD k = false := getLsbD_false_of_lt_ctz h

theorem ctzl_le (h : w.getLsbD k = true) : ctzl w ≤ k := by
  by_contra hlt
  rw [getLsbD_of_lt_ctzl (Nat.lt_of_not_le hlt)] at h
  cases h

/-- `w & (w - 1)` clears the lowest set bit. -/
theorem getLsbD_and_sub_one (h : w ≠ 0#64) (k : Nat) :
    (w &&& (w - 1#64)).getLsbD k = (w.getLsbD k && decide (k ≠ ctzl w)) := by
  set c := ctzl w with hc
  -- `w` is `2 ^ (c + 1) * q + 2 ^ c`
  have hbits : ∀ i, w.toNat.testBit i =
      (2 ^ (c + 1) * (w.toNat / 2 ^ (c + 1)) + 2 ^ c).testBit i := by
    intro i
    rw [testBit_two_pow_mul_add _ (Nat.pow_lt_pow_right (by decide) (by omega))]
    split
    · next hi =>
      rw [testBit_two_pow]
      rcases lt_or_ge i c with hlt | hge
      · rw [← getLsbD, getLsbD_of_lt_ctzl hlt]
        simp
        omega
      · obtain rfl : i = c := by omega
        rw [← getLsbD, getLsbD_ctzl h]
        simp
    · next hi =>
      rw [testBit_div_two_pow, Nat.sub_add_cancel (by omega)]
  have hw : w.toNat = 2 ^ (c + 1) * (w.toNat / 2 ^ (c + 1)) + 2 ^ c := eq_of_testBit_eq hbits
  have hpos : 0 < 2 ^ c := Nat.two_pow_pos c
  have hsub : (w - 1#64).toNat = 2 ^ (c + 1) * (w.toNat / 2 ^ (c + 1)) + (2 ^ c - 1) := by
    rw [toNat_sub, toNat_ofNat]
    omega
  have hlow : 2 ^ c - 1 < 2 ^ (c + 1) := by
    omega
  have hsubBit : (w - 1#64).getLsbD k =
      if k < c + 1 then decide (k < c) else (w.toNat / 2 ^ (c + 1)).testBit (k - (c + 1)) := by
    rw [getLsbD, hsub, testBit_two_pow_mul_add _ hlow, testBit_two_pow_sub_one]
  rw [getLsbD_and, hsubBit]
  split
  · next hk =>
    rcases lt_or_ge k c with hlt | hge
    · simp [getLsbD_of_lt_ctzl hlt]
    · obtain rfl : k = c := by omega
      simp
  · next hk =>
    rw [testBit_div_two_pow, Nat.sub_add_cancel (by omega), ← getLsbD]
    have hne : k ≠ c := by omega
    simp [hne]

theorem ctpopl_eq_card (w : Word) :
    ctpopl w = ((range 64).filter fun k => w.getLsbD k = true).card := by
  have hrec : ∀ n, w.cpopNatRec n 0 =
      ((range n).filter fun k => w.getLsbD k = true).card := by
    intro n
    induction n with
    | zero => simp
    | succ n ih =>
      rw [cpopNatRec_succ, cpopNatRec_add, ih, range_add_one, filter_insert]
      split
      · next h =>
        simp [h]
      · next h => simp [h]
  rw [ctpopl, toNat_cpop, hrec]

/-! ## Arrays of words -/

/-- The word at index `j`, zero past the end. -/
def wordAt (a : Array Word) (j : Nat) : Word := a[j]?.getD 0#64

def bitAt (a : Array Word) (n : Nat) : Bool := (wordAt a (n / 64)).getLsbD (n % 64)

def bits (a : Array Word) : Finset Nat := (range (64 * a.size)).filter fun n => bitAt a n

theorem wordAt_of_size_le (h : a.size ≤ j) : wordAt a j = 0#64 := by
  simp [wordAt, Array.getElem?_eq_none h]

theorem getElem?_eq_wordAt (h : j < a.size) : a[j]? = some (wordAt a j) := by
  simp [wordAt, h]

theorem bitAt_of_size_le (h : 64 * a.size ≤ n) : bitAt a n = false := by
  rw [bitAt, wordAt_of_size_le (by omega)]
  simp

@[simp] theorem mem_bits : n ∈ bits a ↔ bitAt a n = true := by
  rw [bits, mem_filter, mem_range]
  constructor
  · rintro ⟨-, h⟩
    exact h
  intro h
  refine ⟨?_, h⟩
  by_contra hge
  rw [bitAt_of_size_le (by omega)] at h
  cases h

@[simp] theorem bitAt_add (hk : k < 64) : bitAt a (64 * j + k) = (wordAt a j).getLsbD k := by
  rw [bitAt, show (64 * j + k) / 64 = j by omega, show (64 * j + k) % 64 = k by omega]

theorem wordAt_ne_zero_iff : wordAt a j ≠ 0#64 ↔ ∃ n, n / 64 = j ∧ bitAt a n = true := by
  rw [word_ne_zero_iff]
  constructor
  · rintro ⟨k, hk, hbit⟩
    exact ⟨64 * j + k, by omega, by rwa [bitAt_add hk]⟩
  · rintro ⟨n, rfl, hbit⟩
    exact ⟨n % 64, mod_lt _ (by decide), hbit⟩

theorem wordAt_eq_of_bitAt {b : Array Word} (h : ∀ n, n / 64 = j → bitAt a n = bitAt b n) :
    wordAt a j = wordAt b j := by
  refine eq_of_getLsbD_eq fun k hk => ?_
  have hn := h (64 * j + k) (by omega)
  rwa [bitAt_add hk, bitAt_add hk] at hn

theorem wordAt_setIfInBounds (h : i < a.size) (w : Word) (j : Nat) :
    wordAt (a.setIfInBounds i w) j = if i = j then w else wordAt a j := by
  rw [wordAt, Array.getElem?_setIfInBounds]
  split
  · simp
  · rfl

theorem bitAt_setIfInBounds (h : i < a.size) (w : Word) (n : Nat) :
    bitAt (a.setIfInBounds i w) n = if n / 64 = i then w.getLsbD (n % 64) else bitAt a n := by
  rw [bitAt, wordAt_setIfInBounds h]
  rcases eq_or_ne (n / 64) i with heq | hne
  · rw [if_pos heq.symm, if_pos heq]
  · rw [if_neg hne.symm, if_neg hne, bitAt]

@[simp] theorem wordAt_replicate_zero (n j : Nat) : wordAt (Array.replicate n 0#64) j = 0#64 := by
  rw [wordAt, Array.getElem?_replicate]
  split <;> rfl

end QemuAndroid.Lib
