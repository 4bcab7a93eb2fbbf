import QemuAndroid.Lib.Words

/-!
# Bitmaps

The bit operations of `bitops.h`, `bitops.c` and `bitmap.c` on bitmaps in memory.  A
bitmap is given by its words; how many of them there are is a matter of its user.
Each operation has one lemma, which says what it does to the bits.
-/

namespace QemuAndroid.Util

open Lib Function Nat
open Bool hiding eq_iff_iff false_or not_not or_assoc
open BitVec hiding not_not or_assoc

abbrev Bitmap := Nat → Word

def testBit (m : Bitmap) (nr : Nat) : Bool := (m (nr / 64)).getLsbD (nr % 64)

def orWord (m : Bitmap) (p : Nat) (mask : Word) : Bitmap := update m p (m p ||| mask)

def andNotWord (m : Bitmap) (p : Nat) (mask : Word) : Bitmap := update m p (m p &&& ~~~mask)

def bitMask (nr : Nat) : Word := 1#64 <<< (nr % 64)

def setBit (nr : Nat) (m : Bitmap) : Bitmap := orWord m (nr / 64) (bitMask nr)

def clearBit (nr : Nat) (m : Bitmap) : Bitmap := andNotWord m (nr / 64) (bitMask nr)

def testAndSetBit (nr : Nat) (m : Bitmap) : Bitmap × Bool :=
  (setBit nr m, m (nr / 64) &&& bitMask nr ≠ 0#64)

section Bits

variable {m : Bitmap} {p nr : Nat} {mask : Word}

theorem testBit_orWord (m : Bitmap) (p : Nat) (mask : Word) (n : Nat) :
    testBit (orWord m p mask) n =
      (testBit m n || (decide (n / 64 = p) && mask.getLsbD (n % 64))) := by
  unfold testBit orWord
  rcases eq_or_ne (n / 64) p with rfl | hne
  · rw [update_self, getLsbD_or, decide_eq_true rfl, Bool.true_and]
  · rw [update_of_ne hne, decide_eq_false hne, Bool.false_and, Bool.or_false]

theorem testBit_andNotWord (m : Bitmap) (p : Nat) (mask : Word) (n : Nat) :
    testBit (andNotWord m p mask) n =
      (testBit m n && !(decide (n / 64 = p) && mask.getLsbD (n % 64))) := by
  unfold testBit andNotWord
  rcases eq_or_ne (n / 64) p with rfl | hne
  · rw [update_self, getLsbD_and, getLsbD_not, decide_eq_true rfl,
      Bool.true_and, decide_eq_true (mod_lt n (by decide)), Bool.true_and]
  · rw [update_of_ne hne, decide_eq_false hne, Bool.false_and, Bool.not_false, Bool.and_true]

theorem getLsbD_bitMask (nr i : Nat) : (bitMask nr).getLsbD i = decide (i = nr % 64) :=
  getLsbD_one_shiftLeft (mod_lt nr (by decide)) i

@[simp] theorem testBit_setBit (m : Bitmap) (nr n : Nat) :
    testBit (setBit nr m) n = (testBit m n || decide (n = nr)) := by
  rw [setBit, testBit_orWord, getLsbD_bitMask, ← decide_and]
  simp only [← ext_div_mod_iff]

@[simp] theorem testBit_clearBit (m : Bitmap) (nr n : Nat) :
    testBit (clearBit nr m) n = (testBit m n && !decide (n = nr)) := by
  rw [clearBit, testBit_andNotWord, getLsbD_bitMask, ← decide_and]
  simp only [← ext_div_mod_iff]

theorem testAndSetBit_snd (m : Bitmap) (nr : Nat) : (testAndSetBit nr m).2 = testBit m nr := by
  rw [testAndSetBit, Bool.eq_iff_iff, decide_eq_true_iff, word_ne_zero_iff]
  simp only [getLsbD_and, getLsbD_bitMask, and_eq_true, decide_eq_true_eq]
  constructor
  · rintro ⟨k, -, hk, rfl⟩
    exact hk
  · exact fun h => ⟨nr % 64, mod_lt nr (by decide), h, rfl⟩

end Bits

/-! ## Looking for a bit -/

/-- The label `found_first` of `find_next_bit`: the last word. -/
def foundFirst (tmp : Word) (result size : Nat) : Nat :=
  let tmp := tmp &&& (allOnes 64 >>> (64 - size))
  if tmp = 0#64 then result + size else result + ctzl tmp

/-- The loop over whole words, and the last word. -/
def findWords (addr : Bitmap) : Nat → Nat → Nat → Nat → Nat
  | 0, _, result, _ => result
  | fuel + 1, p, result, size =>
    if 64 ≤ size then
      if addr p ≠ 0#64 then result + ctzl (addr p)
      else findWords addr fuel (p + 1) (result + 64) (size - 64)
    else if size = 0 then result
    else foundFirst (addr p) result size

/-- The loop over four words at a time. -/
def findQuads (addr : Bitmap) : Nat → Nat → Nat → Nat → Nat
  | 0, _, result, _ => result
  | fuel + 1, p, result, size =>
    if 4 * 64 ≤ size then
      if addr p ≠ 0#64 then result + ctzl (addr p)
      else if addr (p + 1) ||| addr (p + 2) ||| addr (p + 3) ≠ 0#64 then
        findWords addr (size + 1) p result size
      else findQuads addr fuel (p + 4) (result + 4 * 64) (size - 4 * 64)
    else findWords addr (size + 1) p result size

def findNextBit (addr : Bitmap) (size offset : Nat) : Nat :=
  let p := offset / 64
  let result := offset / 64 * 64
  if size ≤ offset then size
  else
    let size := size - result
    let offset := offset % 64
    if offset ≠ 0 then
      let tmp := addr p &&& (allOnes 64 <<< offset)
      if size < 64 then foundFirst tmp result size
      else if tmp ≠ 0#64 then result + ctzl tmp
      else findQuads addr (size + 1) (p + 1) (result + 64) (size - 64)
    else findQuads addr (size + 1) p result size

/-- `n` is the first set bit from `offset` on, or `size` if there is none below `size`. -/
structure IsNextBit (addr : Bitmap) (size offset n : Nat) : Prop where
  le : offset ≤ n
  le_size : n ≤ size
  set : n < size → testBit addr n = true
  clear : ∀ k, offset ≤ k → k < n → testBit addr k = false

variable {i fuel : Nat}

section Find

variable {addr : Bitmap} {p result size offset n : Nat}

theorem testBit_word (addr : Bitmap) (p : Nat) (hi : i < 64) :
    testBit addr (64 * p + i) = (addr p).getLsbD i := by
  rw [testBit, show (64 * p + i) / 64 = p by omega, show (64 * p + i) % 64 = i by omega]

theorem IsNextBit.skip {offset' : Nat} (h : IsNextBit addr size offset' n) (hle : offset ≤ offset')
    (hclear : ∀ k, offset ≤ k → k < offset' → testBit addr k = false) :
    IsNextBit addr size offset n := by
  refine ⟨hle.trans h.le, h.le_size, h.set, fun k hk hkn => ?_⟩
  rcases lt_or_ge k offset' with hlt | hge
  · exact hclear k hk hlt
  · exact h.clear k hge hkn

/-- `tmp` has the bits of a word from `lo` up to `hi`. -/
def MaskedWord (addr : Bitmap) (p lo hi : Nat) (tmp : Word) : Prop :=
  ∀ i < 64, tmp.getLsbD i = ((addr p).getLsbD i && decide (lo ≤ i ∧ i < hi))

variable {lo hi : Nat} {tmp : Word}

theorem MaskedWord.testBit_eq (h : MaskedWord addr p lo hi tmp) (hlo : lo ≤ i) (hhi : i < hi)
    (hi' : i < 64) : testBit addr (64 * p + i) = tmp.getLsbD i := by
  rw [testBit_word addr p hi', h i hi', decide_eq_true ⟨hlo, hhi⟩, Bool.and_true]

theorem MaskedWord.isNextBit (h : MaskedWord addr p lo hi tmp) (htmp : tmp ≠ 0#64)
    (hsize : 64 * p + hi ≤ size) : IsNextBit addr size (64 * p + lo) (64 * p + ctzl tmp) := by
  have hlt := ctzl_lt htmp
  have hset := getLsbD_ctzl htmp
  have hin := hset
  rw [h _ hlt, and_eq_true, decide_eq_true_iff] at hin
  refine ⟨by omega, by omega, fun _ => ?_, fun k hk hkn => ?_⟩
  · rw [h.testBit_eq hin.2.1 hin.2.2 hlt, hset]
  · obtain ⟨j, rfl⟩ := Nat.exists_eq_add_of_le (show 64 * p ≤ k by omega)
    rw [h.testBit_eq (by omega) (by omega) (by omega)]
    exact getLsbD_of_lt_ctzl (by omega)

theorem MaskedWord.clear (h : MaskedWord addr p lo hi 0#64) (hhi : hi ≤ 64) (k : Nat)
    (hk : 64 * p + lo ≤ k) (hk' : k < 64 * p + hi) : testBit addr k = false := by
  obtain ⟨j, rfl⟩ := Nat.exists_eq_add_of_le (show 64 * p ≤ k by omega)
  rw [h.testBit_eq (by omega) (by omega) (by omega), getLsbD_zero]

theorem foundFirst_spec (h : MaskedWord addr p lo 64 tmp) (hsize : size < 64) (hlo : lo ≤ size) :
    IsNextBit addr (64 * p + size) (64 * p + lo) (foundFirst tmp (64 * p) size) := by
  have hlow : MaskedWord addr p lo size (tmp &&& (allOnes 64 >>> (64 - size))) := by
    intro i hi
    rw [getLsbD_and, getLsbD_ushiftRight, getLsbD_allOnes, h i hi, Bool.and_assoc,
      ← decide_and]
    congr 2
    rw [eq_iff_iff]
    omega
  unfold foundFirst
  dsimp only
  split
  · next hzero =>
    rw [hzero] at hlow
    exact ⟨by omega, le_refl _, fun h => absurd h (by omega), hlow.clear (by omega)⟩
  · next hne => exact hlow.isNextBit hne (le_refl _)

theorem maskedWord_self (addr : Bitmap) (p : Nat) : MaskedWord addr p 0 64 (addr p) := by
  intro i hi
  rw [decide_eq_true ⟨zero_le i, hi⟩, Bool.and_true]

/-- A word without set bits is skipped. -/
theorem IsNextBit.skipWord (hzero : addr p = 0#64) (h : IsNextBit addr size (64 * (p + 1)) n) :
    IsNextBit addr size (64 * p) n := by
  exact h.skip (by omega) (MaskedWord.clear (hzero ▸ maskedWord_self addr p) (le_refl _))

theorem isNextBit_word (hne : addr p ≠ 0#64) (hsize : 64 * p + 64 ≤ size) :
    IsNextBit addr size (64 * p) (64 * p + ctzl (addr p)) :=
  (maskedWord_self addr p).isNextBit hne hsize

theorem findWords_spec (hfuel : size < fuel) :
    IsNextBit addr (64 * p + size) (64 * p) (findWords addr fuel p (64 * p) size) := by
  induction fuel generalizing p size with
  | zero => omega
  | succ fuel ih =>
    rw [findWords]
    split
    · next hle =>
      split
      · next hne => exact isNextBit_word hne (by omega)
      · next hzero =>
        have h := ih (p := p + 1) (show size - 64 < fuel by omega)
        rw [show 64 * (p + 1) + (size - 64) = 64 * p + size by omega] at h
        exact IsNextBit.skipWord (not_not.1 hzero)
          (by rwa [show 64 * (p + 1) = 64 * p + 64 by omega])
    · next hlt =>
      split
      · next hzero =>
        subst hzero
        exact ⟨le_refl _, le_refl _, fun h => absurd h (by omega), fun k h₁ h₂ => by omega⟩
      · exact foundFirst_spec (maskedWord_self addr p) (by omega) (zero_le _)

theorem findQuads_spec (hfuel : size < fuel) :
    IsNextBit addr (64 * p + size) (64 * p) (findQuads addr fuel p (64 * p) size) := by
  induction fuel generalizing p size with
  | zero => omega
  | succ fuel ih =>
    rw [findQuads]
    split
    · next hle =>
      split
      · next hne => exact isNextBit_word hne (by omega)
      · next hzero =>
        split
        · exact findWords_spec (by omega)
        · next hzeros =>
          rw [not_not, BitVec.or_eq_zero_iff, BitVec.or_eq_zero_iff] at hzeros
          have h := ih (p := p + 4) (show size - 4 * 64 < fuel by omega)
          rw [show 64 * (p + 4) + (size - 4 * 64) = 64 * p + size by omega] at h
          refine .skipWord (not_not.1 hzero) (.skipWord hzeros.1.1 (.skipWord hzeros.1.2
            (.skipWord hzeros.2 ?_)))
          rwa [show 64 * (p + 1 + 1 + 1 + 1) = 64 * p + 4 * 64 by omega]
    · exact findWords_spec (by omega)

theorem findNextBit_spec (addr : Bitmap) (h : offset < size) :
    IsNextBit addr size offset (findNextBit addr size offset) := by
  have hsplit : 64 * (offset / 64) + offset % 64 = offset := div_add_mod offset 64
  have hsize : 64 * (offset / 64) + (size - 64 * (offset / 64)) = size := by omega
  have hquads (p : Nat) (hp : 64 * p ≤ size) (fuel : Nat) (hfuel : size - 64 * p < fuel) :
      IsNextBit addr size (64 * p) (findQuads addr fuel p (64 * p) (size - 64 * p)) := by
    have h : IsNextBit addr (64 * p + (size - 64 * p)) (64 * p) _ := findQuads_spec hfuel
    rwa [show 64 * p + (size - 64 * p) = size by omega] at h
  unfold findNextBit
  simp only [mul_comm (offset / 64) 64]
  rw [if_neg (not_le.2 h)]
  split
  · next hne =>
    have hbits : MaskedWord addr (offset / 64) (offset % 64) 64
        (addr (offset / 64) &&& (allOnes 64 <<< (offset % 64))) := by
      intro i hi
      rw [getLsbD_and, getLsbD_shiftLeft, getLsbD_allOnes]
      congr 1
      rw [Bool.eq_iff_iff]
      simp only [and_eq_true, decide_eq_true_eq, not_eq_true', decide_eq_false_iff_not]
      omega
    split
    · next hlt =>
      have h := foundFirst_spec hbits hlt (show offset % 64 ≤ size - 64 * (offset / 64) by omega)
      rwa [hsplit, hsize] at h
    · next hge =>
      split
      · next htmp =>
        have h : IsNextBit addr size _ _ := hbits.isNextBit htmp (by omega)
        rwa [hsplit] at h
      · next hzero =>
        have h := hquads (offset / 64 + 1) (by omega) (size - 64 * (offset / 64) + 1) (by omega)
        rw [not_not.1 hzero] at hbits
        have hclear := hbits.clear (le_refl _)
        rw [hsplit] at hclear
        exact h.skip (by omega) hclear
  · next hzero =>
    have h := hquads (offset / 64) (by omega) (size - 64 * (offset / 64) + 1) (by omega)
    rwa [show 64 * (offset / 64) = offset by omega] at h ⊢

theorem findNextBit_of_le (addr : Bitmap) (h : size ≤ offset) :
    findNextBit addr size offset = size :=
  if_pos h

end Find

/-! ## Ranges of bits -/

def firstWordMask (start : Nat) : Word := allOnes 64 <<< (start % 64)

def lastWordMask (nbits : Nat) : Word :=
  if nbits % 64 ≠ 0 then (1#64 <<< (nbits % 64)) - 1#64 else allOnes 64

/-- The loop of `bitmap_set` and `bitmap_clear`, and the last word: `op` is what is done to a word
and the mask of its bits in the range. -/
def bitmapRangeLoop (op : Bitmap → Nat → Word → Bitmap) (size : Nat) :
    Nat → Bitmap → Nat → Nat → Nat → Word → Bitmap
  | 0, map, _, _, _, _ => map
  | fuel + 1, map, p, nr, bitsToDo, mask =>
    if bitsToDo ≤ nr then
      bitmapRangeLoop op size fuel (op map p mask) (p + 1) (nr - bitsToDo) 64 (allOnes 64)
    else if nr ≠ 0 then op map p (mask &&& lastWordMask size)
    else map

def bitmapSet (map : Bitmap) (start nr : Nat) : Bitmap :=
  bitmapRangeLoop orWord (start + nr) (nr + 1) map (start / 64) nr (64 - start % 64)
    (firstWordMask start)

def bitmapClear (map : Bitmap) (start nr : Nat) : Bitmap :=
  bitmapRangeLoop andNotWord (start + nr) (nr + 1) map (start / 64) nr (64 - start % 64)
    (firstWordMask start)

/-- The loop of `bitmap_set_atomic` over full words. -/
def setFullWords : Nat → Bitmap → Nat → Nat → Bitmap × Nat × Nat
  | 0, map, p, nr => (map, p, nr)
  | fuel + 1, map, p, nr =>
    if 64 ≤ nr then setFullWords fuel (update map p (allOnes 64)) (p + 1) (nr - 64)
    else (map, p, nr)

def bitmapSetAtomic (map : Bitmap) (start nr : Nat) : Bitmap :=
  let size := start + nr
  let bitsToSet := 64 - start % 64
  -- the first word
  let (map, p, nr, bitsToSet, maskToSet) :=
    if bitsToSet < nr then
      (orWord map (start / 64) (firstWordMask start), start / 64 + 1, nr - bitsToSet, 64,
        allOnes 64)
    else (map, start / 64, nr, bitsToSet, firstWordMask start)
  -- the full words
  let (map, p, nr) := if bitsToSet = 64 then setFullWords nr map p nr else (map, p, nr)
  -- the last word
  if nr ≠ 0 then orWord map p (maskToSet &&& lastWordMask size) else map

/-- The loop of `bitmap_test_and_clear_atomic` over full words: the words that were cleared, what
is left of `nr`, and `dirty`. -/
def clearFullWords : Nat → Bitmap → Nat → Nat → Word → Bitmap × Nat × Nat × Word
  | 0, map, p, nr, dirty => (map, p, nr, dirty)
  | fuel + 1, map, p, nr, dirty =>
    if 64 ≤ nr then
      if map p ≠ 0#64 then
        clearFullWords fuel (update map p 0#64) (p + 1) (nr - 64) (dirty ||| map p)
      else clearFullWords fuel map (p + 1) (nr - 64) dirty
    else (map, p, nr, dirty)

/-- The end of `bitmap_test_and_clear_atomic`: the last word, whose mask ends with the range. -/
def clearLastWord (size : Nat) (map : Bitmap) (p nr : Nat) (maskToClear dirty : Word) :
    Bitmap × Word :=
  if nr ≠ 0 then
    let maskToClear := maskToClear &&& lastWordMask size
    (andNotWord map p maskToClear, dirty ||| (map p &&& maskToClear))
  else (map, dirty)

/-- The words of `bitmap_test_and_clear_atomic`: the map, and the bits that were cleared of it, one
word over the other. -/
def clearWords (map : Bitmap) (start nr : Nat) : Bitmap × Word :=
  let size := start + nr
  let bitsToClear := 64 - start % 64
  -- the first word
  let (map, p, nr, bitsToClear, maskToClear, dirty) :=
    if bitsToClear < nr then
      (andNotWord map (start / 64) (firstWordMask start), start / 64 + 1, nr - bitsToClear, 64,
        allOnes 64, map (start / 64) &&& firstWordMask start)
    else (map, start / 64, nr, bitsToClear, firstWordMask start, 0#64)
  -- the full words
  let (map, p, nr, dirty) :=
    if bitsToClear = 64 then clearFullWords nr map p nr dirty else (map, p, nr, dirty)
  clearLastWord size map p nr maskToClear dirty

def bitmapTestAndClearAtomic (map : Bitmap) (start nr : Nat) : Bitmap × Bool :=
  let (map, dirty) := clearWords map start nr
  (map, dirty ≠ 0#64)

section Ranges

variable {size start : Nat}

theorem getLsbD_firstWordMask (start : Nat) (hi : i < 64) :
    (firstWordMask start).getLsbD i = decide (start % 64 ≤ i) := by
  rw [firstWordMask, getLsbD_shiftLeft, getLsbD_allOnes, Bool.eq_iff_iff]
  simp only [and_eq_true, decide_eq_true_eq, not_eq_true', decide_eq_false_iff_not]
  omega

theorem getLsbD_lastWordMask (nbits : Nat) (hi : i < 64) :
    (lastWordMask nbits).getLsbD i = decide (nbits % 64 = 0 ∨ i < nbits % 64) := by
  rw [lastWordMask]
  split
  · next hne =>
    have hlow := getLsbD_lowMask64 (mod_lt nbits (by decide : 64 > 0)) i
    rw [lowMask64] at hlow
    rw [hlow]
    simp only [hne, false_or]
  · next hzero =>
    rw [getLsbD_allOnes, decide_eq_true hi, decide_eq_true (.inl (not_not.1 hzero))]

variable {nr lo p : Nat} {map map' : Bitmap} {dirty mask : Word}

/-- What the range loop does to the bits, when `op` combines each bit of the word with the mask by a
`comb` that leaves it alone where the mask is not set. -/
theorem bitmapRangeLoop_spec {op : Bitmap → Nat → Word → Bitmap} (comb : Bool → Bool → Bool)
    (hop : ∀ m p mask n, testBit (op m p mask) n =
      comb (testBit m n) (decide (n / 64 = p) && mask.getLsbD (n % 64)))
    (hfalse : ∀ b, comb b false = b) (hcomb : ∀ b c d, comb (comb b c) d = comb b (c || d))
    (hsize : start + nr = size) (hfuel : nr < fuel) (map : Bitmap) (n : Nat) :
    testBit (bitmapRangeLoop op size fuel map (start / 64) nr (64 - start % 64)
        (firstWordMask start)) n = comb (testBit map n) (decide (start ≤ n ∧ n < size)) := by
  have hi := mod_lt n (by decide : 64 > 0)
  induction fuel generalizing map start nr with
  | zero => omega
  | succ fuel ih =>
    rw [bitmapRangeLoop]
    split
    · next hle =>
      -- the next word starts at a multiple of 64
      have hmask : firstWordMask (64 * (start / 64 + 1)) = allOnes 64 := by
        rw [firstWordMask, mul_mod_right, BitVec.shiftLeft_zero]
      have h := ih (show 64 * (start / 64 + 1) + (nr - (64 - start % 64)) = size by omega)
        (by omega) (op map (start / 64) (firstWordMask start))
      rw [Nat.mul_div_cancel_left _ (by decide), mul_mod_right, hmask] at h
      rw [h, hop, getLsbD_firstWordMask start hi, hcomb]
      congr 1
      rw [Bool.eq_iff_iff]
      simp only [or_eq_true, and_eq_true, decide_eq_true_eq]
      omega
    · next hlt =>
      split
      · next hne =>
        rw [hop, getLsbD_and, getLsbD_firstWordMask start hi, getLsbD_lastWordMask size hi]
        congr 1
        rw [Bool.eq_iff_iff]
        simp only [and_eq_true, decide_eq_true_eq]
        omega
      · next hzero =>
        rw [decide_eq_false (by omega), hfalse]

@[simp] theorem testBit_bitmapSet (map : Bitmap) (start nr n : Nat) :
    testBit (bitmapSet map start nr) n = (testBit map n || decide (start ≤ n ∧ n < start + nr)) :=
  bitmapRangeLoop_spec or testBit_orWord Bool.or_false (fun _ _ _ => Bool.or_assoc _ _ _) rfl
    (lt_succ_self nr) map n

/-- What clearing the bits of `map` from `lo` up to `hi` does; `dirty` is 0 unless one of them was
set or it was not 0 before. -/
structure Cleared (map map' : Bitmap) (dirty dirty' : Word) (lo hi : Nat) : Prop where
  bits : ∀ n, testBit map' n = (testBit map n && !decide (lo ≤ n ∧ n < hi))
  dirty : dirty' ≠ 0#64 ↔ dirty ≠ 0#64 ∨ ∃ n, (lo ≤ n ∧ n < hi) ∧ testBit map n = true

theorem Cleared.refl (map : Bitmap) (dirty : Word) (lo : Nat) :
    Cleared map map dirty dirty lo lo := by
  refine ⟨fun n => ?_, ?_⟩
  · rw [decide_eq_false (by omega), Bool.not_false, Bool.and_true]
  · rw [iff_self_or]
    omega

theorem Cleared.trans {map₁ map₂ map₃ : Bitmap} {d₁ d₂ d₃ : Word} {mid hi : Nat}
    (h₁ : Cleared map₁ map₂ d₁ d₂ lo mid) (h₂ : Cleared map₂ map₃ d₂ d₃ mid hi) (hlo : lo ≤ mid)
    (hhi : mid ≤ hi) : Cleared map₁ map₃ d₁ d₃ lo hi := by
  refine ⟨fun n => ?_, ?_⟩
  · rw [h₂.bits, h₁.bits, Bool.and_assoc, ← Bool.not_or]
    congr 2
    rw [Bool.eq_iff_iff]
    simp only [or_eq_true, decide_eq_true_eq]
    omega
  rw [h₂.dirty, h₁.dirty, or_assoc]
  refine or_congr_right ⟨?_, ?_⟩
  · rintro (⟨n, hn, hset⟩ | ⟨n, hn, hset⟩)
    · exact ⟨n, by omega, hset⟩
    · rw [h₁.bits, and_eq_true] at hset
      exact ⟨n, by omega, hset.1⟩
  rintro ⟨n, hn, hset⟩
  rcases lt_or_ge n mid with hlt | hge
  · exact .inl ⟨n, by omega, hset⟩
  · refine .inr ⟨n, by omega, ?_⟩
    rw [h₁.bits, hset, decide_eq_false (by omega)]
    rfl

theorem cleared_word (map : Bitmap) (dirty mask : Word) {hi : Nat}
    (hmask : ∀ i < 64, mask.getLsbD i = decide (lo ≤ 64 * p + i ∧ 64 * p + i < hi))
    (hlo : 64 * p ≤ lo) (hhi : hi ≤ 64 * p + 64) :
    Cleared map (andNotWord map p mask) dirty (dirty ||| (map p &&& mask)) lo hi := by
  refine ⟨fun n => ?_, ?_⟩
  · rw [testBit_andNotWord, hmask _ (mod_lt n (by decide)), ← decide_and]
    congr 3
    rw [eq_iff_iff]
    omega
  have hor : dirty ||| (map p &&& mask) ≠ 0#64 ↔ dirty ≠ 0#64 ∨ map p &&& mask ≠ 0#64 := by
    rw [ne_eq, BitVec.or_eq_zero_iff, not_and_or]
  rw [hor, word_ne_zero_iff (w := map p &&& mask)]
  refine or_congr_right ⟨?_, ?_⟩
  · rintro ⟨i, hi, hset⟩
    rw [getLsbD_and, and_eq_true, hmask i hi, decide_eq_true_iff] at hset
    exact ⟨64 * p + i, hset.2, by rw [testBit_word map p hi, hset.1]⟩
  rintro ⟨n, hn, hset⟩
  obtain ⟨i, rfl⟩ := Nat.exists_eq_add_of_le (show 64 * p ≤ n by omega)
  have hi : i < 64 := by omega
  rw [testBit_word map p hi] at hset
  refine ⟨i, hi, ?_⟩
  rw [getLsbD_and, hset, hmask i hi, decide_eq_true hn]
  rfl

theorem clearFullWords_spec {p' nr' : Nat} {dirty' : Word} (hfuel : nr ≤ fuel)
    (h : clearFullWords fuel map p nr dirty = (map', p', nr', dirty')) :
    Cleared map map' dirty dirty' (64 * p) (64 * p') ∧ p ≤ p' ∧ nr' < 64 ∧
      64 * p' + nr' = 64 * p + nr := by
  have hword (map : Bitmap) (p : Nat) (dirty : Word) :
      Cleared map (andNotWord map p (allOnes 64)) dirty (dirty ||| (map p &&& allOnes 64)) (64 * p)
      (64 * (p + 1)) := by
    refine cleared_word map dirty _ (fun i hi => ?_) (le_refl _) (by omega)
    rw [getLsbD_allOnes, decide_eq_true hi, decide_eq_true (by omega)]
  fun_induction clearFullWords fuel map p nr dirty with
  | case2 fuel map p nr dirty _ _ ih =>
    obtain ⟨hcleared, hp, hnr, hsum⟩ := ih (by omega) h
    have hword := hword map p dirty
    rw [andNotWord, not_allOnes, BitVec.and_zero, and_allOnes] at hword
    exact ⟨hword.trans hcleared (by omega) (by omega), by omega, hnr, by omega⟩
  | case3 fuel map p nr dirty _ hzero ih =>
    -- a word that is zero is left as it is
    obtain ⟨hcleared, hp, hnr, hsum⟩ := ih (by omega) h
    have hword := hword map p dirty
    have h0 := not_not.1 hzero
    rw [andNotWord, not_allOnes, BitVec.and_zero, ← h0, update_eq_self, h0, BitVec.zero_and,
      BitVec.or_zero] at hword
    exact ⟨hword.trans hcleared (by omega) (by omega), by omega, hnr, by omega⟩
  | _ =>
    obtain ⟨rfl, rfl, rfl, rfl⟩ := by simpa using h
    exact ⟨.refl _ _ _, le_refl _, by omega, rfl⟩

theorem clearLastWord_spec (hcleared : Cleared map map' 0#64 dirty start lo)
    (hp : lo / 64 = p) (hnr : lo % 64 + nr ≤ 64) (hend : lo + nr = size) (hstart : start ≤ lo)
    (hmask : ∀ i < 64, mask.getLsbD i = decide (lo % 64 ≤ i)) :
    Cleared map (clearLastWord size map' p nr mask dirty).1 0#64
      (clearLastWord size map' p nr mask dirty).2 start size := by
  rw [clearLastWord]
  split
  · next hne =>
    refine hcleared.trans (cleared_word map' dirty _ (fun i hi => ?_) ?_ ?_) hstart ?_
    · rw [getLsbD_and, hmask i hi, getLsbD_lastWordMask _ hi, ← decide_and]
      congr 1
      rw [eq_iff_iff]
      omega
    · omega
    · omega
    · omega
  · next hzero =>
    rwa [show size = lo by omega]

/-- The full words from a word boundary on, and the last word. -/
theorem clearFullWords_clearLastWord {r : Bitmap × Nat × Nat × Word}
    (hr : clearFullWords nr map' p nr dirty = r)
    (hcleared : Cleared map map' 0#64 dirty start (64 * p)) (hend : 64 * p + nr = size)
    (hstart : start ≤ 64 * p) (hmask : mask = allOnes 64) :
    Cleared map (clearLastWord size r.1 r.2.1 r.2.2.1 mask r.2.2.2).1 0#64
      (clearLastWord size r.1 r.2.1 r.2.2.1 mask r.2.2.2).2 start size := by
  obtain ⟨map'', p', nr', dirty'⟩ := r
  obtain ⟨hwords, hp, hlt, hsum⟩ := clearFullWords_spec (le_refl nr) hr
  refine clearLastWord_spec (hcleared.trans hwords hstart (by omega)) ?_ ?_ ?_ ?_ ?_
  · exact Nat.mul_div_cancel_left p' (by decide)
  · show 64 * p' % 64 + nr' ≤ 64
    omega
  · show 64 * p' + nr' = size
    omega
  · omega
  · intro i hi
    rw [hmask, getLsbD_allOnes, mul_mod_right, decide_eq_true hi,
      decide_eq_true (zero_le i)]

theorem clearWords_spec (map : Bitmap) (start nr : Nat) :
    Cleared map (clearWords map start nr).1 0#64 (clearWords map start nr).2 start
      (start + nr) := by
  rw [clearWords]
  by_cases hfirst : 64 - start % 64 < nr
  · -- the range goes on after its first word
    simp only [hfirst, if_true]
    refine clearFullWords_clearLastWord rfl ?_ ?_ ?_ rfl
    · have h := cleared_word map 0#64 (firstWordMask start)
        (fun i hi => (getLsbD_firstWordMask start hi).trans ?_)
        (show 64 * (start / 64) ≤ start by omega)
        (show 64 * (start / 64 + 1) ≤ 64 * (start / 64) + 64 by omega)
      · rwa [BitVec.zero_or] at h
      · congr 1
        rw [eq_iff_iff]
        omega
    · omega
    · omega
  · simp only [hfirst, if_false]
    by_cases hstart : start % 64 = 0
    · simp only [show 64 - start % 64 = 64 by omega, if_true]
      refine clearFullWords_clearLastWord rfl ?_ ?_ ?_ ?_
      · rw [show 64 * (start / 64) = start by omega]
        exact .refl _ _ _
      · omega
      · omega
      · rw [firstWordMask, hstart, BitVec.shiftLeft_zero]
    · simp only [show ¬64 - start % 64 = 64 by omega, if_false]
      refine clearLastWord_spec (.refl _ _ _) rfl ?_ rfl (le_refl _)
        fun i hi => getLsbD_firstWordMask start hi
      omega

/-- `bitmap_test_and_clear_atomic` clears the bits of its range, and says whether one of them was
set. -/
theorem bitmapTestAndClearAtomic_spec (map : Bitmap) (start nr : Nat) :
    (∀ n, testBit (bitmapTestAndClearAtomic map start nr).1 n =
      (testBit map n && !decide (start ≤ n ∧ n < start + nr))) ∧
    ((bitmapTestAndClearAtomic map start nr).2 = true ↔
      ∃ n, (start ≤ n ∧ n < start + nr) ∧ testBit map n = true) := by
  have h := clearWords_spec map start nr
  refine ⟨h.bits, ?_⟩
  rw [bitmapTestAndClearAtomic, decide_eq_true_iff, h.dirty]
  simp only [ne_eq, not_true_eq_false, false_or]

theorem not_orWord (map : Bitmap) (p : Nat) (mask : Word) :
    (~~~·) ∘ orWord map p mask = andNotWord ((~~~·) ∘ map) p mask := by
  rw [orWord, comp_update, BitVec.not_or, andNotWord]
  rfl

/-- Setting words is clearing the words of the complement. -/
theorem not_setFullWords (fuel : Nat) (map : Bitmap) (p nr : Nat) (dirty : Word) : ∃ dirty',
    clearFullWords fuel ((~~~·) ∘ map) p nr dirty = ((~~~·) ∘ (setFullWords fuel map p nr).1,
      (setFullWords fuel map p nr).2.1, (setFullWords fuel map p nr).2.2, dirty') := by
  induction fuel generalizing map p nr dirty with
  | zero => exact ⟨dirty, rfl⟩
  | succ fuel ih =>
    have hword : update ((~~~·) ∘ map) p 0#64 = (~~~·) ∘ update map p (allOnes 64) := by
      rw [comp_update, not_allOnes]
    rw [clearFullWords, setFullWords]
    split
    · split
      · rw [hword]
        exact ih ..
      · next hzero =>
        -- a word that is 0 already is not written
        rw [← update_eq_self p ((~~~·) ∘ map), not_not.1 hzero, hword]
        exact ih ..
    · exact ⟨dirty, rfl⟩

theorem testBit_bitmapSetAtomic (map : Bitmap) (start nr n : Nat) :
    testBit (bitmapSetAtomic map start nr) n =
      (testBit map n || decide (start ≤ n ∧ n < start + nr)) := by
  have hnot : (clearWords ((~~~·) ∘ map) start nr).1 = (~~~·) ∘ bitmapSetAtomic map start nr := by
    have hfull m p k d := (not_setFullWords k m p k d).choose_spec
    have hlast (m : Bitmap) (p k : Nat) (mask d : Word) :
        (clearLastWord (start + nr) ((~~~·) ∘ m) p k mask d).1 =
          (~~~·) ∘ (if k ≠ 0 then orWord m p (mask &&& lastWordMask (start + nr)) else m) := by
      rw [clearLastWord]
      split
      · exact (not_orWord ..).symm
      · rfl
    unfold clearWords bitmapSetAtomic
    rw [← not_orWord]
    dsimp only
    split
    · rw [if_pos rfl, if_pos rfl, hfull]
      exact hlast ..
    · split
      · rw [hfull]
        exact hlast ..
      · exact hlast ..
  have hbit (m : Bitmap) : testBit ((~~~·) ∘ m) n = !testBit m n := by
    rw [testBit, comp_apply, getLsbD_not, decide_eq_true (mod_lt n (by decide)), Bool.true_and,
      testBit]
  have h := (clearWords_spec ((~~~·) ∘ map) start nr).bits n
  rw [hnot, hbit, hbit, ← Bool.not_or, not_inj_iff] at h
  exact h

/-- The range operations set or clear the bits of their range and no other bits, wherever the range
starts and ends in its words; the one that tests says whether a bit of the range was set. -/
theorem bitmap_ranges_exact (map : Bitmap) (start nr : Nat) :
    (∀ n, testBit (bitmapSet map start nr) n =
        (testBit map n || decide (start ≤ n ∧ n < start + nr)) ∧
      testBit (bitmapSetAtomic map start nr) n =
        (testBit map n || decide (start ≤ n ∧ n < start + nr)) ∧
      testBit (bitmapClear map start nr) n =
        (testBit map n && !decide (start ≤ n ∧ n < start + nr)) ∧
      testBit (bitmapTestAndClearAtomic map start nr).1 n =
        (testBit map n && !decide (start ≤ n ∧ n < start + nr))) ∧
    ((bitmapTestAndClearAtomic map start nr).2 = true ↔
      ∃ n, (start ≤ n ∧ n < start + nr) ∧ testBit map n = true) := by
  obtain ⟨hbits, hdirty⟩ := bitmapTestAndClearAtomic_spec map start nr
  refine ⟨fun n => ⟨testBit_bitmapSet map start nr n, testBit_bitmapSetAtomic map start nr n, ?_,
    hbits n⟩, hdirty⟩
  exact bitmapRangeLoop_spec (fun b c => b && !c) testBit_andNotWord Bool.and_true
    (fun b c d => by rw [Bool.not_or, Bool.and_assoc]) rfl (lt_succ_self nr) map n

end Ranges

/-! ## Whole bitmaps -/

def bitsToLongs (nr : Nat) : Nat := (nr + 63) / 64

def bitmapNew : Bitmap := fun _ => 0#64

def bitmapCopy (dst src : Bitmap) (nbits : Nat) : Bitmap :=
  fun k => if k < bitsToLongs nbits then src k else dst k

/-- `bitmap_zero_extend`; `fresh` is what the memory behind the old words holds after
`g_realloc`. -/
def bitmapZeroExtend (old fresh : Bitmap) (oldNbits newNbits : Nat) : Bitmap :=
  bitmapClear (bitmapCopy fresh old oldNbits) oldNbits (newNbits - oldNbits)

theorem testBit_bitmapCopy (dst src : Bitmap) {nbits n : Nat} (h : n < nbits) :
    testBit (bitmapCopy dst src nbits) n = testBit src n := by
  have hk : n / 64 < bitsToLongs nbits := by
    unfold bitsToLongs
    omega
  unfold testBit
  rw [bitmapCopy, if_pos hk]

end QemuAndroid.Util
