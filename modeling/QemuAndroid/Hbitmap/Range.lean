import QemuAndroid.Hbitmap.Model

/-!
# Setting and resetting a range

What `hb_set_between` and `hb_reset_between` do to the bits of the levels.  On its
own level a range of bits is set or cleared, and the levels above go on saying
which words are not zero (`Linked`).

The two directions differ in what has to be propagated.  A range of words that is
set may be set in the level above as a whole.  A range that is reset may leave bits
in its first and last word, so `hb_reset_between` trims the range: every word it
propagates is zero, and every word that became zero is propagated
(`resetLevel_spec`).
-/

namespace QemuAndroid.Hbitmap

open Lib Function Nat
open Option hiding or_assoc

/-! ## One word -/

variable {a : Array Word} {i start last k lastpos : Nat} {levels : Nat → Array Word}

theorem storeWord_of_lt (h : i < a.size) (w : Word) :
    storeWord a i w = some (a.setIfInBounds i w) := if_pos h

/-- The bits of a range have become `c`, the others are as before. -/
structure Ranged (c : Bool) (start last : Nat) (a a' : Array Word) : Prop where
  size : a'.size = a.size
  bit : ∀ n, bitAt a' n = if start ≤ n ∧ n ≤ last then c else bitAt a n

variable {c : Bool} {a' : Array Word}

theorem Ranged.wordAt_eq {j : Nat} (h : Ranged c start last a a')
    (hj : j < start / 64 ∨ last / 64 < j) : wordAt a' j = wordAt a j :=
  wordAt_eq_of_bitAt fun n hn => by rw [h.bit, if_neg (by omega)]

theorem ranged_word {w : Word} (hi : i < a.size) (hstart : start / 64 = i) (hlast : last / 64 = i)
    (hw : ∀ k < 64, w.getLsbD k = if start % 64 ≤ k ∧ k ≤ last % 64 then c
      else (wordAt a i).getLsbD k) : Ranged c start last a (a.setIfInBounds i w) := by
  refine ⟨by simp, fun n => ?_⟩
  rw [bitAt_setIfInBounds hi]
  split
  · next hn =>
    rw [hw _ (mod_lt n (by decide)), bitAt, hn]
    congr 1
    rw [eq_iff_iff]
    omega
  · next hn => rw [if_neg (by omega)]

theorem hbSetElem_spec (a : Array Word) (start last : Nat) (hi : i < a.size)
    (hstart : start / 64 = i) (hlast : last / 64 = i) (hle : start ≤ last) :
    ∃ a', hbSetElem a i start last = some (a', decide (wordAt a i = 0#64)) ∧
      Ranged true start last a a' := by
  refine ⟨_, by simp [hbSetElem, hstart, hlast, hle, getElem?_eq_wordAt hi, storeWord_of_lt hi,
    beq_eq_decide]; rfl, ranged_word hi hstart hlast fun k hk => ?_⟩
  rw [BitVec.getLsbD_or, getLsbD_rangeMask (by omega) (by omega)]
  grind

theorem hbResetElem_spec (a : Array Word) (start last : Nat) (hi : i < a.size)
    (hstart : start / 64 = i) (hlast : last / 64 = i) (hle : start ≤ last) :
    ∃ a', hbResetElem a i start last =
        some (a', decide (wordAt a i ≠ 0#64) && decide (wordAt a' i = 0#64)) ∧
      Ranged false start last a a' := by
  refine ⟨a.setIfInBounds i (wordAt a i &&& ~~~rangeMask (start % 64) (last % 64)), ?_,
    ranged_word hi hstart hlast fun k hk => ?_⟩
  · simp [hbResetElem, hstart, hlast, hle, getElem?_eq_wordAt hi, storeWord_of_lt hi,
      wordAt_setIfInBounds hi, beq_eq_decide, bne]
  · rw [BitVec.getLsbD_and, BitVec.getLsbD_not, getLsbD_rangeMask (by omega) (by omega)]
    grind

/-! ## The words in between -/

theorem fillLoop_spec (fill : Word) (test : Word → Bool) {fuel : Nat} (a : Array Word)
    (changed : Bool) (hi : i < lastpos) (hlast : lastpos < a.size) (hfuel : lastpos - i ≤ fuel) :
    ∃ a' changed', fillLoop fill test lastpos fuel a i changed = some (a', changed') ∧
      a'.size = a.size ∧ (∀ j, wordAt a' j = if i < j ∧ j < lastpos then fill else wordAt a j) ∧
      (changed' = true ↔ changed = true ∨ ∃ j, i < j ∧ j < lastpos ∧ test (wordAt a j) = true) := by
  induction fuel generalizing a i changed with
  | zero => omega
  | succ fuel ih =>
    rcases eq_or_ne (i + 1) lastpos with heq | hne
    · refine ⟨a, changed, by simp [fillLoop, heq], rfl, fun j => ?_, ?_⟩
      · rw [if_neg (by omega)]
      constructor
      · exact .inl
      · rintro (h | ⟨j, hij, hj, -⟩)
        · exact h
        · omega
    have hlt : i + 1 < a.size := by omega
    obtain ⟨a', changed', hrun, hsize, hword, hchanged⟩ := ih (a.setIfInBounds (i + 1) fill)
      (changed || test (wordAt a (i + 1))) (i := i + 1) (by omega) (by simpa using hlast)
      (by omega)
    refine ⟨a', changed', ?_, by simpa using hsize, fun j => ?_, ?_⟩
    · simpa [fillLoop, hne, getElem?_eq_wordAt hlt, storeWord_of_lt hlt] using hrun
    · rw [hword, wordAt_setIfInBounds hlt]
      rcases eq_or_ne j (i + 1) with rfl | hj
      · rw [if_neg (by omega), if_pos rfl, if_pos (by omega)]
      rw [if_neg (Ne.symm hj)]
      congr 1
      rw [eq_iff_iff]
      omega
    rw [hchanged, Bool.or_eq_true, or_assoc]
    refine or_congr_right ?_
    constructor
    · rintro (h | ⟨j, hij, hj, h⟩)
      · exact ⟨i + 1, by omega, by omega, h⟩
      · rw [wordAt_setIfInBounds hlt, if_neg (by omega)] at h
        exact ⟨j, by omega, hj, h⟩
    rintro ⟨j, hij, hj, h⟩
    rcases eq_or_ne j (i + 1) with rfl | hne'
    · exact .inl h
    · refine .inr ⟨j, by omega, hj, ?_⟩
      rwa [wordAt_setIfInBounds hlt, if_neg (by omega)]

/-- `(start | 63) + 1` is the first bit of the next word. -/
theorem or_63_add_one (start : Nat) : (start ||| 63) + 1 = 64 * (start / 64 + 1) := by
  have h : start ||| (2 ^ 6 - 1) = 2 ^ 6 * (start / 2 ^ 6) + (2 ^ 6 - 1) := by
    refine eq_of_testBit_eq fun j => ?_
    rw [testBit_or, testBit_two_pow_mul_add _ (by decide), testBit_two_pow_sub_one]
    split
    · next hj => simp [hj]
    · next hj =>
      rw [testBit_div_two_pow, Nat.sub_add_cancel (by omega)]
      simp [hj]
  have h' : start ||| 63 = 64 * (start / 64) + 63 := h
  omega

/-! ## One level -/

theorem bitAt_of_fill {fill : Word}
    (h : ∀ j, wordAt a' j = if i < j ∧ j < lastpos then fill else wordAt a j) (n : Nat) :
    bitAt a' n = if i < n / 64 ∧ n / 64 < lastpos then fill.getLsbD (n % 64) else bitAt a n := by
  rw [bitAt, h]
  split <;> rfl

/-- A range over several words, from what is done to the first, to those in between and to the
last. -/
theorem Ranged.words {a₁ a₂ : Array Word} {fill : Word} {mid next : Nat}
    (h : Ranged c start mid a a₁) (hsize : a₂.size = a₁.size)
    (hword : ∀ j, wordAt a₂ j = if start / 64 < j ∧ j < last / 64 then fill else wordAt a₁ j)
    (hfill : ∀ k < 64, fill.getLsbD k = c) (h' : Ranged c next last a₂ a')
    (hmid : mid + 1 = 64 * (start / 64 + 1)) (hnext : next = 64 * (last / 64))
    (hlt : start / 64 < last / 64) : Ranged c start last a a' := by
  refine ⟨by rw [h'.size, hsize, h.size], fun n => ?_⟩
  rw [h'.bit, bitAt_of_fill hword, h.bit, hfill _ (mod_lt n (by decide))]
  split_ifs <;> first | rfl | omega

/-- If a word of the range was zero, that is reported. -/
theorem setLevel_spec (hle : start ≤ last) (hlast : last / 64 < a.size) :
    ∃ a' changed, setLevel a start last = some (a', changed) ∧ Ranged true start last a a' ∧
      ∀ j, start / 64 ≤ j → j ≤ last / 64 → wordAt a j = 0#64 → changed = true := by
  rcases lt_or_ge (start / 64) (last / 64) with hlt | hge
  · have hnext := or_63_add_one start
    obtain ⟨a₁, h₁, hr₁⟩ := hbSetElem_spec a (i := start / 64) start
      ((start ||| 63) + 1 - 1) (by omega) rfl (by omega) (by omega)
    have hsize₁ := hr₁.size
    obtain ⟨a₂, changed, h₂, hsize₂, hword₂, hchanged⟩ := fillLoop_spec (~~~0#64) (· == 0#64) a₁
      (decide (wordAt a (start / 64) = 0#64)) hlt (by omega) (le_refl (last / 64 - start / 64))
    obtain ⟨a₃, h₃, hr₃⟩ := hbSetElem_spec a₂ (i := last / 64)
      ((start ||| 63) + 1 + 64 * (last / 64 - start / 64 - 1)) last (by omega) (by omega) rfl
      (by omega)
    refine ⟨a₃, changed || decide (wordAt a₂ (last / 64) = 0#64), ?_,
      hr₁.words hsize₂ hword₂ (fun k hk => by rw [BitVec.getLsbD_not]; simp [hk]) hr₃ (by omega)
      (by omega) hlt,
      fun j hij hj hz => ?_⟩
    · simp only [setLevel, hlt, if_true, h₁, h₂, h₃, bind_eq_bind, bind_some,
        Option.pure_def]
    rw [Bool.or_eq_true, hchanged, hword₂, if_neg (by omega), decide_eq_true_eq, decide_eq_true_eq]
    rcases eq_or_ne j (start / 64) with rfl | hfirst
    · exact .inl (.inl hz)
    -- past the first word nothing has changed before the loop
    rw [← hr₁.wordAt_eq (by omega)] at hz
    rcases eq_or_ne j (last / 64) with rfl | hlastj
    · exact .inr hz
    · exact .inl (.inr ⟨j, by omega, by omega, by rw [hz]; rfl⟩)
  · have heq : last / 64 = start / 64 := by omega
    obtain ⟨a', h, hr⟩ := hbSetElem_spec a (i := start / 64) start last (by omega) rfl heq hle
    refine ⟨a', decide (wordAt a (start / 64) = 0#64), ?_, hr, fun j hij hj hz => ?_⟩
    · rw [setLevel, if_neg (not_lt.2 hge), h]
    · obtain rfl : j = start / 64 := by omega
      exact decide_eq_true hz

theorem blanked_iff {w w' : Word} :
    (decide (w ≠ 0#64) && decide (w' = 0#64)) = true ↔ w ≠ 0#64 ∧ w' = 0#64 := by
  rw [Bool.and_eq_true, decide_eq_true_eq, decide_eq_true_eq]

/-- The words that `hb_reset_between` propagates are zero, and contain all those
that became zero. -/
theorem resetLevel_spec (hle : start ≤ last) (hlast : last / 64 < a.size) :
    ∃ a' changed pos lastpos, resetLevel a start last = some (a', changed, pos, lastpos) ∧
      Ranged false start last a a' ∧ (changed = true → pos ≤ lastpos ∧ lastpos ≤ last / 64 ∧
        ∀ j, pos ≤ j → j ≤ lastpos → wordAt a' j = 0#64) ∧
      ∀ j, wordAt a j ≠ 0#64 → wordAt a' j = 0#64 → changed = true ∧ pos ≤ j ∧ j ≤ lastpos := by
  have hpos : start / 64 ≤ last / 64 := Nat.div_le_div_right hle
  rcases lt_or_ge (start / 64) (last / 64) with hlt | hge
  · have hnext := or_63_add_one start
    obtain ⟨a₁, h₁, hr₁⟩ := hbResetElem_spec a (i := start / 64) start
      ((start ||| 63) + 1 - 1) (by omega) rfl (by omega) (by omega)
    have hsize₁ := hr₁.size
    set first := decide (wordAt a (start / 64) ≠ 0#64) && decide (wordAt a₁ (start / 64) = 0#64)
    obtain ⟨a₂, changed, h₂, hsize₂, hword₂, hchanged⟩ :=
      fillLoop_spec 0#64 (· != 0#64) a₁ first hlt (by omega) (le_refl (last / 64 - start / 64))
    obtain ⟨a₃, h₃, hr₃⟩ := hbResetElem_spec a₂ (i := last / 64)
      ((start ||| 63) + 1 + 64 * (last / 64 - start / 64 - 1)) last (by omega) (by omega) rfl
      (by omega)
    set blanked := decide (wordAt a₂ (last / 64) ≠ 0#64) && decide (wordAt a₃ (last / 64) = 0#64)
    have hw₁ : ∀ j, j ≠ start / 64 → wordAt a₁ j = wordAt a j :=
      fun j hj => hr₁.wordAt_eq (by omega)
    have hw₃ : ∀ j, j ≠ last / 64 → wordAt a₃ j = wordAt a₂ j :=
      fun j hj => hr₃.wordAt_eq (by omega)
    have hfirstWord : wordAt a₃ (start / 64) = wordAt a₁ (start / 64) := by
      rw [hw₃ _ (by omega), hword₂, if_neg (by omega)]
    have hmidWord : ∀ j, start / 64 < j → j < last / 64 → wordAt a₃ j = 0#64 := by
      intro j hj hj'
      rw [hw₃ _ (by omega), hword₂, if_pos ⟨hj, hj'⟩]
    have hlastWord : wordAt a₂ (last / 64) = wordAt a (last / 64) := by
      rw [hword₂, if_neg (by omega), hw₁ _ (by omega)]
    refine ⟨a₃, changed || blanked, if first then start / 64 else start / 64 + 1,
      if blanked then last / 64 else last / 64 - 1, ?_,
      hr₁.words hsize₂ hword₂ (fun k _ => by simp) hr₃ (by omega) (by omega) hlt, ?_, ?_⟩
    · simp only [resetLevel, hlt, if_true, h₁, h₂, h₃, bind_eq_bind, bind_some,
        Option.pure_def]
    · intro h
      have hsome : first = true ∨ (∃ j, start / 64 < j ∧ j < last / 64) ∨ blanked = true := by
        rcases Bool.or_eq_true_iff.mp h with h | h
        · rcases hchanged.mp h with h | ⟨j, hj, hj', -⟩
          · exact .inl h
          · exact .inr (.inl ⟨j, hj, hj'⟩)
        · exact .inr (.inr h)
      refine ⟨?_, ?_, fun j hj hj' => ?_⟩
      · rcases hsome with h | ⟨j, hj, hj'⟩ | h
        · rw [if_pos h]
          split <;> omega
        · split <;> split <;> omega
        · split <;> omega
      · split <;> omega
      rcases lt_trichotomy j (start / 64) with hl | rfl | hg
      · split at hj <;> omega
      · by_cases hf : first = true
        · rw [hfirstWord]
          exact (blanked_iff.1 hf).2
        · rw [if_neg hf] at hj
          omega
      rcases lt_trichotomy j (last / 64) with hl | rfl | hg'
      · exact hmidWord j hg hl
      · by_cases hb : blanked = true
        · exact (blanked_iff.1 hb).2
        · rw [if_neg hb] at hj'
          omega
      · split at hj' <;> omega
    · intro j hne hz
      rcases eq_or_ne j (start / 64) with rfl | hj
      · have hf : first = true := blanked_iff.2 ⟨hne, hfirstWord ▸ hz⟩
        refine ⟨by rw [hchanged.mpr (.inl hf), Bool.true_or], by rw [if_pos hf], ?_⟩
        split <;> omega
      rcases eq_or_ne j (last / 64) with rfl | hj'
      · have hb : blanked = true := blanked_iff.2 ⟨hlastWord ▸ hne, hz⟩
        refine ⟨by rw [hb, Bool.or_true], ?_, by rw [if_pos hb]⟩
        split <;> omega
      -- any other word that became zero lies in between
      have hmid : start / 64 < j ∧ j < last / 64 := by
        by_contra hout
        rw [hw₃ _ hj', hword₂, if_neg hout, hw₁ _ hj] at hz
        exact hne hz
      refine ⟨?_, ?_, ?_⟩
      · rw [hchanged.mpr (.inr ⟨j, hmid.1, hmid.2, ?_⟩), Bool.true_or]
        rw [hw₁ _ hj, bne_iff_ne]
        exact hne
      · split <;> omega
      · split <;> omega
  · have heq : last / 64 = start / 64 := by omega
    obtain ⟨a', h, hr⟩ := hbResetElem_spec a (i := start / 64) start last (by omega) rfl heq hle
    set blanked := decide (wordAt a (start / 64) ≠ 0#64) && decide (wordAt a' (start / 64) = 0#64)
    refine ⟨a', blanked, start / 64, if blanked then last / 64 else last / 64 - 1, ?_, hr,
      fun hb => ?_, fun j hne hz => ?_⟩
    · simp only [resetLevel, if_neg (not_lt.2 hge), h, bind_eq_bind, bind_some,
        Option.pure_def]
    · rw [if_pos hb]
      refine ⟨hpos, le_refl _, fun j hj hj' => ?_⟩
      obtain rfl : j = start / 64 := by omega
      exact (blanked_iff.1 hb).2
    obtain rfl : j = start / 64 := by
      by_contra hj
      exact hne ((hr.wordAt_eq (by omega)).symm.trans hz)
    have hb : blanked = true := blanked_iff.2 ⟨hne, hz⟩
    exact ⟨hb, le_refl _, by rw [if_pos hb]; omega⟩

/-! ## All levels -/

/-- Below level `k`, every level says which words of the next one are not zero.
Level 0 also has the sentinel. -/
def Linked (levels : Nat → Array Word) (k : Nat) : Prop :=
  ∀ i < k, ∀ n, bitAt (levels i) n = true ↔ wordAt (levels (i + 1)) n ≠ 0#64 ∨ (i = 0 ∧ n = 63)

/-- Every level has a bit for each word of the next one, and level 0 has one to
spare. -/
structure Fits (levels : Nat → Array Word) : Prop where
  above : ∀ i < numLevels - 1, (levels (i + 1)).size ≤ 64 * (levels i).size
  spare : (levels 1).size ≤ 63

theorem Fits.of_size {levels' : Nat → Array Word} (h : Fits levels)
    (hsize : ∀ i, (levels' i).size = (levels i).size) : Fits levels' :=
  ⟨fun i hi => by rw [hsize, hsize]; exact h.above i hi, by rw [hsize]; exact h.spare⟩

theorem Linked.update {levels : Nat → Array Word} {k : Nat} (h : Linked levels k) (a : Array Word) :
    Linked (update levels (k + 1) a) k := by
  intro i hi n
  rw [update_of_ne (by omega), update_of_ne (by omega)]
  exact h i hi n

theorem Linked.mono {l : Nat} (h : Linked levels k) (hl : l ≤ k) :
    Linked levels l := fun i hi => h i (by omega)

theorem size_update (h : a.size = (levels k).size) (i : Nat) :
    (update levels k a i).size = (levels i).size := by
  rcases eq_or_ne i k with rfl | hne
  · rw [update_self, h]
  · rw [update_of_ne hne]

theorem Linked.succ (h : Linked levels k)
    (hk : ∀ n, bitAt (levels k) n = true ↔ wordAt (levels (k + 1)) n ≠ 0#64 ∨ (k = 0 ∧ n = 63)) :
    Linked levels (k + 1) := by
  exact forall_lt_succ_right.2 ⟨h, hk⟩

/-- A word is not zero after a range is set if it was not before or the range meets
it. -/
theorem Ranged.wordAt_ne_zero (h : Ranged true start last a a') (hle : start ≤ last) (j : Nat) :
    wordAt a' j ≠ 0#64 ↔ wordAt a j ≠ 0#64 ∨ (start / 64 ≤ j ∧ j ≤ last / 64) := by
  simp only [wordAt_ne_zero_iff, h.bit, ite_eq_left_iff, not_and]
  constructor
  · rintro ⟨n, rfl, hn⟩
    by_cases hin : start ≤ n ∧ n ≤ last
    · exact .inr ⟨Nat.div_le_div_right hin.1, Nat.div_le_div_right hin.2⟩
    · exact .inl ⟨n, rfl, hn fun hs => fun hl => hin ⟨hs, hl⟩⟩
  rintro (⟨n, rfl, hn⟩ | ⟨hs, hl⟩)
  · exact ⟨n, rfl, fun _ => hn⟩
  · rcases lt_or_ge (64 * j) start with hlt | hge
    · exact ⟨start, by omega, fun hout => absurd hle (hout (le_refl _))⟩
    · exact ⟨64 * j, by omega, fun hout => absurd (by omega) (hout hge)⟩

/-- The bits of a range of a level have become `c`, and the levels above are linked. -/
structure LevelsRanged (c : Bool) (level start last : Nat) (levels levels' : Nat → Array Word) :
    Prop where
  below : ∀ i, level < i → levels' i = levels i
  size : ∀ i, (levels' i).size = (levels i).size
  own : Ranged c start last (levels level) (levels' level)
  linked : Linked levels' level

variable {level : Nat} {levels' : Nat → Array Word}

theorem Ranged.lift (h : Ranged c start last (levels level) a)
    (hlinked : Linked (update levels level a) level) :
    LevelsRanged c level start last levels (update levels level a) :=
  ⟨fun i hi => update_of_ne (by omega) _ _, size_update h.size, by rwa [update_self], hlinked⟩

/-- A range of the level above follows. -/
theorem Ranged.lift_succ {pos : Nat} (h : Ranged c start last (levels (level + 1)) a)
    (hrec : LevelsRanged c level pos lastpos (update levels (level + 1) a) levels')
    (hlink : ∀ n, (if pos ≤ n ∧ n ≤ lastpos then c else bitAt (levels level) n) = true ↔
      wordAt a n ≠ 0#64 ∨ (level = 0 ∧ n = 63)) :
    LevelsRanged c (level + 1) start last levels levels' := by
  have hself : levels' (level + 1) = a := by
    rw [hrec.below _ (lt_succ_self _), update_self]
  refine ⟨fun i hi => ?_, fun i => (hrec.size i).trans (size_update h.size i), by rwa [hself],
    hrec.linked.succ fun n => ?_⟩
  · rw [hrec.below i (by omega), update_of_ne (by omega)]
  · rw [hrec.own.bit, update_of_ne (by omega), hlink, hself]

/-- `hb_set_between` sets a range of bits of its level and keeps the levels above
linked. -/
theorem hbSetBetween_spec (hlevel : level < numLevels) (hfits : Fits levels)
    (hlinked : Linked levels level) (hle : start ≤ last) (hlast : last / 64 < (levels level).size) :
    ∃ levels', hbSetBetween level levels start last = some levels' ∧
      LevelsRanged true level start last levels levels' := by
  induction level generalizing levels start last with
  | zero =>
    obtain ⟨a, changed, h, hr, -⟩ := setLevel_spec hle hlast
    exact ⟨_, by simp [hbSetBetween, h], hr.lift fun i hi => absurd hi (not_lt_zero i)⟩
  | succ level ih =>
    obtain ⟨a, changed, h, hr, hchanged⟩ := setLevel_spec hle hlast
    have hword := hr.wordAt_ne_zero hle
    have hlink := hlinked level (by omega)
    have hlinked₁ := (hlinked.mono (le_succ level)).update a
    simp only [hbSetBetween, h, bind_eq_bind, bind_some]
    by_cases hc : changed = true
    · obtain ⟨levels', hrec, hdone⟩ := ih (by omega) (hfits.of_size (size_update hr.size)) hlinked₁
        (Nat.div_le_div_right (c := 64) hle)
        (by have := hfits.above level (by omega); rw [size_update hr.size]; omega)
      refine ⟨levels', by rw [if_pos hc, hrec], hr.lift_succ hdone fun n => ?_⟩
      rw [hword, ite_eq_left_iff, hlink n]
      tauto
    refine ⟨_, if_neg hc, hr.lift (hlinked₁.succ fun n => ?_)⟩
    -- no word of the range was zero
    have hrange : start / 64 ≤ n ∧ n ≤ last / 64 → wordAt (levels (level + 1)) n ≠ 0#64 :=
      fun hn hz => hc (hchanged n hn.1 hn.2 hz)
    rw [update_of_ne (by omega), update_self, hword, hlink n, or_iff_left_of_imp hrange]

/-- `hb_reset_between` clears a range of bits of its level and keeps the levels above
linked.  The sentinel stays out of the range. -/
theorem hbResetBetween_spec (hlevel : level < numLevels) (hfits : Fits levels)
    (hlinked : Linked levels level) (hle : start ≤ last) (hlast : last / 64 < (levels level).size) :
    ∃ levels', hbResetBetween level levels start last = some levels' ∧
      LevelsRanged false level start last levels levels' := by
  induction level generalizing levels start last with
  | zero =>
    obtain ⟨a, changed, pos, lastpos, h, hr, -⟩ := resetLevel_spec hle hlast
    exact ⟨_, by simp [hbResetBetween, h], hr.lift fun i hi => absurd hi (not_lt_zero i)⟩
  | succ level ih =>
    obtain ⟨a, changed, pos, lastpos, h, hr, hzero, hblank⟩ := resetLevel_spec hle hlast
    have hlink := hlinked level (by omega)
    have hlinked₁ := (hlinked.mono (le_succ level)).update a
    have hsub : ∀ n, wordAt a n ≠ 0#64 → wordAt (levels (level + 1)) n ≠ 0#64 := by
      intro n hn
      obtain ⟨m, hm, hset⟩ := wordAt_ne_zero_iff.mp hn
      rw [hr.bit, ite_eq_iff] at hset
      exact wordAt_ne_zero_iff.mpr ⟨m, hm, (hset.resolve_left fun hf => Bool.false_ne_true hf.2).2⟩
    simp only [hbResetBetween, h, bind_eq_bind, bind_some]
    by_cases hc : changed = true
    · obtain ⟨hpos, hlastpos, hwords⟩ := hzero hc
      obtain ⟨levels', hrec, hdone⟩ := ih (by omega) (hfits.of_size (size_update hr.size)) hlinked₁
        hpos (by have := hfits.above level (by omega); rw [size_update hr.size]; omega)
      refine ⟨levels', by rw [if_pos hc, hrec], hr.lift_succ hdone fun n => ?_⟩
      split
      · -- the words of the range are zero, and none of them is the sentinel's
        have hspare : level = 0 → n ≠ 63 := by
          rintro rfl rfl
          have : (levels (0 + 1)).size ≤ 63 := hfits.spare
          omega
        tauto
      · rename_i hout
        rw [hlink n]
        exact or_congr_left ⟨fun hn hz => hout (hblank n hn hz).2, hsub n⟩
    · refine ⟨_, if_neg hc, hr.lift (hlinked₁.succ fun n => ?_)⟩
      -- no word became zero
      rw [update_of_ne (by omega), update_self, hlink n]
      exact or_congr_left ⟨fun hn hz => hc (hblank n hn hz).1, hsub n⟩

end QemuAndroid.Hbitmap
