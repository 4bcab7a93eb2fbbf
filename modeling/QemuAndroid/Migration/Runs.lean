import QemuAndroid.Migration.Xbzrle
import Mathlib.Tactic.IntervalCases

/-!
# Runs and lengths of the XBZRLE codec

The loops that look for the end of a run work a word at a time; here they are shown
to find the ends of runs of bytes.  The only arithmetic is in the test for a zero
byte in a word: if it succeeds, then there is one (`exists_eq_of_hasZeroByte`), and
the inner loop of the encoder, which has no bound, ends inside the word.
-/

namespace QemuAndroid.Migration

open Lib Nat
open UInt8 hiding not_not
open BitVec hiding not_not

variable {oldBuf newBuf : Buffer} {slen n i : Nat}

/-! ## Words -/

theorem toNat_longAt_succ (buf : Buffer) (n i : Nat) :
    (longAt buf (n + 1) i).toNat = (longAt buf n (i + 1)).toNat * 2 ^ 8 + (buf i).toNat := by
  have happend : (longAt buf (n + 1) i).toNat =
      (longAt buf n (i + 1)).toNat <<< 8 ||| (buf i).toNat := toNat_append ..
  rw [happend, Nat.shiftLeft_eq, Nat.mul_comm, two_pow_add_eq_or_of_lt (buf i).toNat_lt]

theorem longAt_byte (buf : Buffer) (i : Nat) {k : Nat} (hk : k < n) :
    (longAt buf n i).toNat / 2 ^ (8 * k) % 2 ^ 8 = (buf (i + k)).toNat := by
  induction n generalizing i k with
  | zero => exact absurd hk (not_lt_zero k)
  | succ n ih =>
    have hbyte := (buf i).toNat_lt
    rw [toNat_longAt_succ]
    cases k with
    | zero =>
      rw [show i + 0 = i from rfl]
      omega
    | succ k =>
      have hdiv : ((longAt buf n (i + 1)).toNat * 2 ^ 8 + (buf i).toNat) / 2 ^ 8 =
          (longAt buf n (i + 1)).toNat := by omega
      rw [Nat.mul_succ, Nat.add_comm (8 * k), Nat.pow_add, ← Nat.div_div_eq_div_mul, hdiv,
        ih (i + 1) (lt_of_succ_lt_succ hk), show i + 1 + k = i + (k + 1) by omega]

/-- Equal words have equal bytes. -/
theorem eq_of_longAt_eq {a b : Buffer} (h : longAt a n i = longAt b n i) :
    AgreeOn a b i (i + n) := by
  intro x h₁ h₂
  obtain ⟨k, rfl⟩ := Nat.exists_eq_add_of_le h₁
  have hk : k < n := by omega
  apply UInt8.toNat_inj.1
  rw [← longAt_byte a i hk, ← longAt_byte b i hk, h]

def byteOnes : Nat → Nat
  | 0 => 0
  | n + 1 => byteOnes n * 2 ^ 8 + 1

/-- Subtracting 1 from each byte: if no byte is zero, then none borrows from the next one. -/
theorem sub_byteOnes {x : Nat} (hx : ∀ k < n, x / 2 ^ (8 * k) % 2 ^ 8 ≠ 0) : byteOnes n ≤ x ∧
      ∀ k < n, (x - byteOnes n) / 2 ^ (8 * k) % 2 ^ 8 = x / 2 ^ (8 * k) % 2 ^ 8 - 1 := by
  induction n generalizing x with
  | zero => exact ⟨zero_le x, fun k hk => absurd hk (not_lt_zero k)⟩
  | succ n ih =>
    have hshift (y k : Nat) : y / 2 ^ (8 * (k + 1)) = y / 2 ^ 8 / 2 ^ (8 * k) := by
      rw [Nat.mul_succ, Nat.add_comm (8 * k), Nat.pow_add, Nat.div_div_eq_div_mul]
    have hlow : x % 2 ^ 8 ≠ 0 := by simpa using hx 0 (succ_pos n)
    obtain ⟨hle, hbytes⟩ := ih (x := x / 2 ^ 8) fun k hk => by
      rw [← hshift]
      exact hx (k + 1) (succ_lt_succ hk)
    have hdiv : (x - byteOnes (n + 1)) / 2 ^ 8 = x / 2 ^ 8 - byteOnes n := by
      rw [byteOnes]
      omega
    refine ⟨by rw [byteOnes]; omega, fun k hk => ?_⟩
    cases k with
    | zero =>
      rw [byteOnes]
      omega
    | succ k => rw [hshift, hshift, hdiv, hbytes k (lt_of_succ_lt_succ hk)]

theorem toNat_mask (hn : n ≤ 8) : (BitVec.ofNat (8 * n) 0x0101010101010101).toNat = byteOnes n := by
  interval_cases n <;> rfl

/-- A word without a zero byte passes the test: a byte of which the top bit is set after the
subtraction had it set before. -/
theorem hasZeroByte_eq_false (hn : n ≤ 8) {x : BitVec (8 * n)}
    (hx : ∀ k < n, x.toNat / 2 ^ (8 * k) % 2 ^ 8 ≠ 0) : hasZeroByte x = false := by
  have hmask : ∀ i < 64, testBit 0x0101010101010101 i = true → i % 8 = 0 := by decide
  obtain ⟨hle, hsub⟩ := sub_byteOnes hx
  have hdiff : (x - BitVec.ofNat (8 * n) 0x0101010101010101).toNat = x.toNat - byteOnes n := by
    rw [← toNat_mask hn] at hle ⊢
    exact toNat_sub_of_le hle
  rw [hasZeroByte, decide_eq_false_iff_not, not_not]
  apply eq_of_getLsbD_eq
  intro i hi
  rw [getLsbD_and, getLsbD_and, getLsbD_not, getLsbD_shiftLeft,
    getLsbD_ofNat, getLsbD_zero]
  by_contra h
  simp only [Bool.not_eq_false, Bool.and_eq_true, Bool.not_eq_true', decide_eq_true_eq,
    decide_eq_false_iff_not] at h
  obtain ⟨⟨hafter, -, hbefore⟩, ⟨-, hseven⟩, -, hm⟩ := h
  have hi7 := hmask (i - 7) (by omega) hm
  obtain ⟨k, rfl⟩ : ∃ k, i = 8 * k + 7 := ⟨i / 8, by omega⟩
  have hbyte := hsub k (by omega)
  rw [getLsbD, hdiff, testBit_eq_decide_div_mod_eq, Nat.pow_add,
    ← Nat.div_div_eq_div_mul, decide_eq_true_iff] at hafter
  rw [getLsbD, testBit_eq_decide_div_mod_eq, Nat.pow_add, ← Nat.div_div_eq_div_mul,
    decide_eq_false_iff_not] at hbefore
  omega

/-- If the test finds a zero byte in the difference of two words, then they have an equal byte. -/
theorem exists_eq_of_hasZeroByte (hn : n ≤ 8)
    (h : hasZeroByte (longAt oldBuf n i ^^^ longAt newBuf n i) = true) :
    ∃ k < n, oldBuf (i + k) = newBuf (i + k) := by
  by_contra hno
  rw [hasZeroByte_eq_false hn] at h
  · exact absurd h (by decide)
  intro k hk hzero
  rw [toNat_xor, xor_div_two_pow, xor_mod_two_pow, longAt_byte _ _ hk,
    longAt_byte _ _ hk] at hzero
  exact hno ⟨k, hk, UInt8.xor_eq_zero_iff.1 (UInt8.toNat_inj.1 hzero)⟩

/-- The bytes left are whole words: another word fits. -/
theorem word_fits (hi : i < slen) (halign : (slen - i) % n = 0) :
    0 < n ∧ i + n ≤ slen ∧ (slen - (i + n)) % n = 0 := by
  obtain ⟨m, hm⟩ := dvd_of_mod_eq_zero halign
  have hm₀ : m ≠ 0 := by
    rintro rfl
    omega
  have hn₀ : n ≠ 0 := by
    rintro rfl
    omega
  have hle : n ≤ slen - i := hm ▸ Nat.le_mul_of_pos_right n (pos_of_ne_zero hm₀)
  refine ⟨pos_of_ne_zero hn₀, by omega, ?_⟩
  rw [← Nat.sub_sub, mod_eq_zero_of_dvd]
  exact dvd_sub (dvd_of_mod_eq_zero halign) (dvd_refl n)

/-- After the bytes before the first whole word. -/
theorem words_after_head (n : Nat) (hi : i ≤ slen) :
    i + (slen - i) % n ≤ slen ∧ (slen - (i + (slen - i) % n)) % n = 0 := by
  have hle := mod_le (slen - i) n
  refine ⟨by omega, ?_⟩
  rw [← Nat.sub_sub]
  exact mod_eq_zero_of_dvd (dvd_sub_mod (slen - i))

/-! ## Runs of equal bytes -/

theorem zrunHead_spec {res res' i' : Nat} (h : zrunHead oldBuf newBuf res i = (res', i')) :
    i' + res' = i + res ∧ i ≤ i' ∧ AgreeOn oldBuf newBuf i i' ∧
      (res' ≠ 0 → oldBuf i' ≠ newBuf i') := by
  fun_induction zrunHead oldBuf newBuf res i with
  | case1 =>
    obtain ⟨rfl, rfl⟩ := Prod.mk.inj h
    exact ⟨rfl, le_refl _, fun k h₁ h₂ => by omega, fun h => absurd rfl h⟩
  | case2 res i heq ih =>
    obtain ⟨hsum, hle, hagree, hne⟩ := ih h
    refine ⟨by omega, by omega, ?_, hne⟩
    intro k h₁ h₂
    rcases eq_or_lt_of_le h₁ with rfl | hlt
    · exact heq
    · exact hagree k hlt h₂
  | case3 res i hne =>
    obtain ⟨rfl, rfl⟩ := Prod.mk.inj h
    exact ⟨rfl, le_refl _, fun k h₁ h₂ => by omega, fun _ => hne⟩

theorem zrunWords_spec (oldBuf newBuf : Buffer) (fuel : Nat) (hi : i ≤ slen)
    (halign : (slen - i) % n = 0) :
    i ≤ zrunWords n oldBuf newBuf slen fuel i ∧ zrunWords n oldBuf newBuf slen fuel i ≤ slen ∧
      AgreeOn oldBuf newBuf i (zrunWords n oldBuf newBuf slen fuel i) := by
  fun_induction zrunWords n oldBuf newBuf slen fuel i with
  | case2 fuel i h ih =>
    obtain ⟨-, hfits, hrest⟩ := word_fits h.1 halign
    obtain ⟨hle, hend, hagree⟩ := ih hfits hrest
    exact ⟨by omega, hend, (eq_of_longAt_eq h.2).append hagree⟩
  | _ => exact ⟨le_refl _, hi, fun k h₁ h₂ => absurd h₂ (not_lt.2 h₁)⟩

theorem zrunRest_spec (oldBuf newBuf : Buffer) (fuel : Nat) (hi : i ≤ slen)
    (hfuel : slen - i ≤ fuel) :
    i ≤ zrunRest oldBuf newBuf slen fuel i ∧ zrunRest oldBuf newBuf slen fuel i ≤ slen ∧
      AgreeOn oldBuf newBuf i (zrunRest oldBuf newBuf slen fuel i) ∧
      (zrunRest oldBuf newBuf slen fuel i < slen →
        oldBuf (zrunRest oldBuf newBuf slen fuel i) ≠
        newBuf (zrunRest oldBuf newBuf slen fuel i)) := by
  fun_induction zrunRest oldBuf newBuf slen fuel i with
  | case1 => exact ⟨le_refl _, hi, fun k h₁ h₂ => by omega, fun h => by omega⟩
  | case2 fuel i h ih =>
    obtain ⟨hle, hend, hagree, hne⟩ := ih (by omega) (by omega)
    refine ⟨by omega, hend, AgreeOn.append (fun k h₁ h₂ => ?_) hagree, hne⟩
    rw [show k = i by omega]
    exact h.2
  | case3 fuel i h =>
    exact ⟨le_refl _, hi, fun k h₁ h₂ => by omega, fun hlt heq => h ⟨hlt, heq⟩⟩

/-- `zrun` is the end of the run of equal bytes. -/
theorem zrun_spec (n : Nat) (oldBuf newBuf : Buffer) (hi : i ≤ slen) :
    i ≤ zrun n oldBuf newBuf slen i ∧ zrun n oldBuf newBuf slen i ≤ slen ∧
      AgreeOn oldBuf newBuf i (zrun n oldBuf newBuf slen i) ∧ (zrun n oldBuf newBuf slen i < slen →
        oldBuf (zrun n oldBuf newBuf slen i) ≠ newBuf (zrun n oldBuf newBuf slen i)) := by
  rcases hhead : zrunHead oldBuf newBuf ((slen - i) % n) i with ⟨res, i'⟩
  obtain ⟨hsum, hle, hagree, hne⟩ := zrunHead_spec hhead
  obtain ⟨hfits, hwords⟩ := words_after_head n hi
  simp only [zrun, hhead]
  split
  · next hres =>
    rw [← hsum, hres, add_zero] at hfits hwords
    obtain ⟨hle₁, hend₁, hagree₁⟩ := zrunWords_spec oldBuf newBuf slen hfits hwords
    obtain ⟨hle₂, hend₂, hagree₂, hne₂⟩ := zrunRest_spec oldBuf newBuf slen hend₁
      (by omega)
    exact ⟨by omega, hend₂, hagree.append (hagree₁.append hagree₂), hne₂⟩
  · next hres => exact ⟨hle, by omega, hagree, fun _ => hne hres⟩

/-! ## Runs of new bytes -/

theorem nzrunHead_spec {res res' i' : Nat} (h : nzrunHead oldBuf newBuf res i = (res', i')) :
    i' + res' = i + res ∧ i ≤ i' ∧ (res' ≠ 0 → oldBuf i' = newBuf i') := by
  fun_induction nzrunHead oldBuf newBuf res i with
  | case1 =>
    obtain ⟨rfl, rfl⟩ := Prod.mk.inj h
    exact ⟨rfl, le_refl _, fun h => absurd rfl h⟩
  | case2 res i _ ih =>
    obtain ⟨hsum, hle, heq⟩ := ih h
    exact ⟨by omega, by omega, heq⟩
  | case3 res i heq =>
    obtain ⟨rfl, rfl⟩ := Prod.mk.inj h
    exact ⟨rfl, le_refl _, fun _ => not_not.1 heq⟩

/-- The inner loop ends at the first equal byte. -/
theorem nzrunEnd_spec {fuel : Nat} (h : ∃ k < fuel, oldBuf (i + k) = newBuf (i + k)) :
    ∃ j, nzrunEnd oldBuf newBuf fuel i = some j ∧ i ≤ j ∧ j < i + fuel ∧ oldBuf j = newBuf j := by
  fun_induction nzrunEnd oldBuf newBuf fuel i with
  | case1 => omega
  | case2 fuel i hne ih =>
    obtain ⟨k, hk, heq⟩ := h
    have hpos : k ≠ 0 := by
      rintro rfl
      exact hne heq
    obtain ⟨j, hj, hle, hlt, heq'⟩ := ih
      ⟨k - 1, by omega, by rw [show i + 1 + (k - 1) = i + k by omega]; exact heq⟩
    exact ⟨j, hj, by omega, by omega, heq'⟩
  | case3 fuel i heq => exact ⟨i, rfl, le_refl _, by omega, not_not.1 heq⟩

theorem nzrunWords_spec (oldBuf newBuf : Buffer) (fuel : Nat) (hn : n ≤ 8) (hi : i ≤ slen)
    (halign : (slen - i) % n = 0) (hfuel : slen - i ≤ fuel) :
    ∃ j, nzrunWords n oldBuf newBuf slen fuel i = some j ∧ i ≤ j ∧ j ≤ slen ∧
      (j < slen → oldBuf j = newBuf j) := by
  fun_induction nzrunWords n oldBuf newBuf slen fuel i with
  | case2 fuel i hlt hzero =>
    obtain ⟨hpos, hfits, hrest⟩ := word_fits hlt halign
    obtain ⟨j, hj, hle, hj', heq⟩ := nzrunEnd_spec (exists_eq_of_hasZeroByte hn hzero)
    exact ⟨j, hj, hle, by omega, fun _ => heq⟩
  | case3 fuel i hlt _ ih =>
    obtain ⟨hpos, hfits, hrest⟩ := word_fits hlt halign
    obtain ⟨j, hj, hle, hend, heq⟩ := ih hfits hrest (by omega)
    exact ⟨j, hj, by omega, hend, heq⟩
  | _ => exact ⟨_, rfl, le_refl _, hi, fun h => by omega⟩

/-- `nzrun` ends at an equal byte or at the end of the buffer, and is not empty. -/
theorem nzrun_spec (hn : n ≤ 8) (hi : i < slen) (hne : oldBuf i ≠ newBuf i) :
    ∃ j, nzrun n oldBuf newBuf slen i = some j ∧ i < j ∧ j ≤ slen ∧
      (j < slen → oldBuf j = newBuf j) := by
  rcases hhead : nzrunHead oldBuf newBuf ((slen - i) % n) i with ⟨res, i'⟩
  obtain ⟨hsum, hle, heq⟩ := nzrunHead_spec hhead
  obtain ⟨hfits, hwords⟩ := words_after_head n (le_of_lt hi)
  simp only [nzrun, hhead]
  split
  · next hres =>
    rw [← hsum, hres] at hfits hwords
    obtain ⟨j, hj, hle', hend, heq'⟩ := nzrunWords_spec oldBuf newBuf slen hn hfits hwords
      (by omega)
    refine ⟨j, hj, lt_of_le_of_ne (by omega) ?_, hend, heq'⟩
    rintro rfl
    exact hne (heq' hi)
  · next hres =>
    refine ⟨i', rfl, lt_of_le_of_ne hle ?_, by omega, fun _ => heq hres⟩
    rintro rfl
    exact hne (heq hres)

/-! ## Lengths -/

/-- The low and the high byte of a length that takes two bytes. -/
theorem uleb128_bytes {n : Nat} (hn : n ≤ 0x3fff) :
    (ofNat (n &&& 0x7f ||| 0x80)).toNat = n % 128 + 128 ∧
      (ofNat (n >>> 7)).toNat = n / 128 := by
  have hlow : ∀ a < 128, a ||| 0x80 = a + 128 := by decide
  have hand : n &&& 0x7f = n % 128 := and_two_pow_sub_one_eq_mod n 7
  have hshift : n >>> 7 = n / 128 := shiftRight_eq_div_pow n 7
  rw [hand, hlow _ (mod_lt _ (by decide)), toNat_ofNat', toNat_ofNat']
  omega

/-- The number that a low and a high byte stand for. -/
theorem uleb128_value (a b : Nat) : a &&& 0x7f ||| b <<< 7 = a % 128 + 128 * b := by
  have hand : a &&& 0x7f = a % 128 := and_two_pow_sub_one_eq_mod a 7
  rw [hand, Nat.shiftLeft_eq, Nat.mul_comm, Nat.or_comm,
    ← two_pow_add_eq_or_of_lt (mod_lt a (by decide)), Nat.add_comm]

/-- The top bit of a byte. -/
theorem and_80_eq_zero_iff (b : UInt8) : b &&& 0x80 = 0 ↔ b.toNat < 128 := by
  have h : ∀ a < 256, ofNat a &&& 0x80 = 0 ↔ a < 128 := by decide +kernel
  have hb := h b.toNat b.toNat_lt
  rwa [UInt8.ofNat_toNat] at hb

/-- A length is written in one or two bytes, and read back from them. -/
theorem uleb128EncodeSmall_spec (out : Buffer) (d : Nat) {n : Nat} (hn : n ≤ 0x3fff) :
    ∃ out' len, uleb128EncodeSmall out d n = some (out', len) ∧ 1 ≤ len ∧ len ≤ 2 ∧
      (∀ k, k < d ∨ d + len ≤ k → out' k = out k) ∧
      ∀ src, AgreeOn src out' d (d + len) → uleb128DecodeSmall src d = some (n, len) := by
  rw [uleb128EncodeSmall, if_neg (not_lt.2 hn)]
  split
  · next hsmall =>
    have htoNat : (ofNat n).toNat = n := by
      rw [toNat_ofNat']
      omega
    refine ⟨_, 1, rfl, le_refl _, by decide, fun k hk => ?_, fun src hsrc => ?_⟩
    · exact Buffer.set_of_ne _ (by omega)
    · have hd := hsrc d (le_refl _) (by omega)
      rw [Buffer.set_self] at hd
      rw [uleb128DecodeSmall, hd, if_pos ((and_80_eq_zero_iff _).2 (by omega)), htoNat]
  · next hbig =>
    obtain ⟨hlow, hhigh⟩ := uleb128_bytes hn
    refine ⟨_, 2, rfl, by decide, le_refl _, fun k hk => ?_, fun src hsrc => ?_⟩
    · rw [Buffer.set_of_ne _ (by omega), Buffer.set_of_ne _ (by omega)]
    have hd := hsrc d (le_refl _) (by omega)
    have hd' := hsrc (d + 1) (by omega) (by omega)
    rw [Buffer.set_of_ne _ (by omega), Buffer.set_self] at hd
    rw [Buffer.set_self] at hd'
    have hvalue : (n % 128 + 128) % 128 + 128 * (n / 128) = n := by omega
    rw [uleb128DecodeSmall, if_neg (by rw [and_80_eq_zero_iff, hd]; omega),
      if_neg (by rw [not_not, and_80_eq_zero_iff, hd']; omega), hd, hd', hlow, hhigh,
      uleb128_value, hvalue]

end QemuAndroid.Migration
