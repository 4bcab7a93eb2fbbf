import QemuAndroid.Hbitmap.Iter

/-!
# The operations on a well-formed bitmap

`HBitmap.Wf` is what every function of `hbitmap.c` keeps: the levels have the sizes
that `hbitmap_alloc` gives them, every level says which words of the next one are
not zero, and no bit beyond the size is set.  `groups` is the set of groups that a
bitmap stands for.  Each operation is shown to be defined, to keep `Wf`, and to do
to `groups` what it should; `CountFollows` says that the cached count moves with
the number of set groups.
-/

namespace QemuAndroid.Hbitmap

open Lib Function Finset Nat
open Option hiding or_self
open BitVec hiding or_self shiftLeft_eq succ_mul

/-! ## Sizes of the levels -/

/-- The number of words that `n` bits take, at least one. -/
def wordsFor (n : Nat) : Nat := max ((n + 63) / 64) 1

/-- The number of words of level `i` of a bitmap of `size` groups. -/
def levelSize (size i : Nat) : Nat := wordsFor^[numLevels - i] size

theorem levelSize_last (size : Nat) : levelSize size 6 = wordsFor size := rfl

variable {i size n granularity : Nat} {hb : HBitmap} {start count : BitVec 64}
  {levels : Nat → Array Word}

theorem levelSize_succ (size : Nat) (hi : i < numLevels) :
    levelSize size i = wordsFor (levelSize size (i + 1)) := by
  rw [levelSize, levelSize, ← iterate_succ_apply' wordsFor]
  congr 1
  omega

theorem le_wordsFor (n : Nat) : n ≤ 64 * wordsFor n := by
  rw [wordsFor]
  omega

theorem wordsFor_mono : Monotone wordsFor := by
  intro n m h
  simp only [wordsFor]
  omega

/-- Level 1 has at most 32 words, so that level 0 has room for the sentinel. -/
theorem levelSize_one_le (h : size ≤ 2 ^ logMaxSize) : levelSize size 1 ≤ 32 := by
  have hmono : levelSize size 1 ≤ levelSize (2 ^ logMaxSize) 1 := wordsFor_mono.iterate 6 h
  exact hmono.trans (by decide)

theorem levelSize_zero (h : size ≤ 2 ^ logMaxSize) : levelSize size 0 = 1 := by
  have hone : levelSize size (0 + 1) ≤ 32 := levelSize_one_le h
  rw [levelSize_succ size (by decide), wordsFor]
  omega

/-! ## Well-formed bitmaps -/

structure HBitmap.Wf (hb : HBitmap) : Prop where
  granularity_lt : hb.granularity < 64
  size_le : hb.size.toNat ≤ 2 ^ logMaxSize
  no_wrap : hb.size.toNat * 2 ^ hb.granularity < 2 ^ 64
  sizes : ∀ i < numLevels, (hb.levels i).size = levelSize hb.size.toNat i
  linked : Linked hb.levels 6
  beyond : ∀ n, hb.size.toNat ≤ n → bitAt (hb.levels 6) n = false

def groups (hb : HBitmap) : Finset Nat := bits (hb.levels 6)

theorem mem_groups : n ∈ groups hb ↔ bitAt (hb.levels 6) n = true := mem_bits

/-- The cached count has changed by as much as the number of set groups. -/
def CountFollows (hb hb' : HBitmap) : Prop :=
  hb'.count + BitVec.ofNat 64 (groups hb).card = hb.count + BitVec.ofNat 64 (groups hb').card

namespace HBitmap.Wf

variable {hb : HBitmap} (h : hb.Wf)

include h

theorem fits : Fits hb.levels := by
  refine ⟨fun i hi => ?_, ?_⟩
  · have hi' : i < numLevels := by omega
    rw [h.sizes i hi', h.sizes (i + 1) (by omega), levelSize_succ _ hi']
    exact le_wordsFor _
  · have := levelSize_one_le h.size_le
    rw [h.sizes 1 (by decide)]
    omega

theorem size_le_last : hb.size.toNat ≤ 64 * (hb.levels 6).size := by
  rw [h.sizes 6 (by decide)]
  exact le_wordsFor _

theorem lt_size (hn : n ∈ groups hb) : n < hb.size.toNat := by
  by_contra hge
  have hbit := mem_groups.mp hn
  rw [h.beyond n (Nat.le_of_not_lt hge)] at hbit
  cases hbit

theorem card_le : (groups hb).card ≤ hb.size.toNat := by
  refine (card_le_card (t := range hb.size.toNat) fun n hn => ?_).trans_eq
    (card_range _)
  exact mem_range.mpr (h.lt_size hn)

theorem get (item : BitVec 64) (hitem : item.toNat / 2 ^ hb.granularity < hb.size.toNat) :
    hbitmapGet hb item = some (decide (item.toNat / 2 ^ hb.granularity ∈ groups hb)) := by
  have hlast := h.size_le_last
  have hpos : (item >>> hb.granularity).toNat = item.toNat / 2 ^ hb.granularity := by
    rw [toNat_ushiftRight, shiftRight_eq_div_pow]
  have hmod := mod_lt (item.toNat / 2 ^ hb.granularity) (show 64 > 0 by decide)
  have hword : (hb.levels (numLevels - 1))[item.toNat / 2 ^ hb.granularity / 64]? =
      some (wordAt (hb.levels 6) (item.toNat / 2 ^ hb.granularity / 64)) :=
    getElem?_eq_wordAt (a := hb.levels 6) (by omega)
  simp only [hbitmapGet, hpos, hword, bind_eq_bind, Option.pure_def, bind_some]
  congr 1
  rw [Bool.eq_iff_iff, decide_eq_true_eq, mem_groups, bne_iff_ne, word_ne_zero_iff]
  simp only [getLsbD_and, getLsbD_one_shiftLeft hmod, Bool.and_eq_true, decide_eq_true_eq]
  constructor
  · rintro ⟨k, -, hbit, rfl⟩
    exact hbit
  · intro hbit
    exact ⟨_, hmod, hbit, rfl⟩

end HBitmap.Wf

/-! ## Setting and resetting -/

def groupRange (granularity : Nat) (start count : BitVec 64) : Finset Nat :=
  Icc (start.toNat / 2 ^ granularity) ((start.toNat + count.toNat - 1) / 2 ^ granularity)

/-- A range of at least one element, inside the bitmap. -/
def HBitmap.InRange (hb : HBitmap) (start count : BitVec 64) : Prop :=
  1 ≤ count.toNat ∧ start.toNat + count.toNat ≤ hb.size.toNat * 2 ^ hb.granularity
deriving Decidable

/-- The bounds of the range of groups, as `hbitmap_set` and `hbitmap_reset` compute
them. -/
structure Bounds (hb : HBitmap) (start count lo hi : BitVec 64) : Prop where
  lo_eq : lo.toNat = start.toNat / 2 ^ hb.granularity
  hi_eq : hi.toNat = (start.toNat + count.toNat - 1) / 2 ^ hb.granularity
  le : lo.toNat ≤ hi.toNat
  lt_size : hi.toNat < hb.size.toNat
  shift : (lo <<< hb.granularity) >>> hb.granularity = lo

theorem bounds_of_inRange (h : hb.Wf) (hr : hb.InRange start count) :
    Bounds hb start count (start >>> hb.granularity)
      ((start + count - 1#64) >>> hb.granularity) := by
  obtain ⟨hpos, hle⟩ := hr
  have hwrap := h.no_wrap
  have hpow : 0 < 2 ^ hb.granularity := Nat.two_pow_pos _
  have hlast : (start + count - 1#64).toNat = start.toNat + count.toNat - 1 := by
    rw [toNat_sub, toNat_add, toNat_ofNat]
    omega
  have hlo : (start >>> hb.granularity).toNat = start.toNat / 2 ^ hb.granularity := by
    rw [toNat_ushiftRight, shiftRight_eq_div_pow]
  have hhi : ((start + count - 1#64) >>> hb.granularity).toNat =
      (start.toNat + count.toNat - 1) / 2 ^ hb.granularity := by
    rw [toNat_ushiftRight, shiftRight_eq_div_pow, hlast]
  refine ⟨hlo, hhi, ?_, ?_, ?_⟩
  · rw [hlo, hhi]
    exact Nat.div_le_div_right (by omega)
  · rw [hhi]
    exact Nat.div_lt_of_lt_mul (by rw [Nat.mul_comm]; omega)
  refine eq_of_toNat_eq ?_
  have hmul : start.toNat / 2 ^ hb.granularity * 2 ^ hb.granularity ≤ start.toNat :=
    div_mul_le_self _ _
  rw [toNat_ushiftRight, toNat_shiftLeft, hlo, shiftLeft_eq,
    mod_eq_of_lt (by omega), shiftRight_eq_div_pow, Nat.mul_div_cancel _ hpow]

/-- Levels with the same sizes, linked, and with no bit beyond the size. -/
theorem HBitmap.Wf.withLevels (h : hb.Wf) (count : BitVec 64)
    (hsize : ∀ i, (levels i).size = (hb.levels i).size) (hlinked : Linked levels 6)
    (hbeyond : ∀ n, hb.size.toNat ≤ n → bitAt (levels 6) n = false) :
    HBitmap.Wf { hb with count := count, levels := levels } :=
  ⟨h.granularity_lt, h.size_le, h.no_wrap, fun i hi => (hsize i).trans (h.sizes i hi), hlinked,
    hbeyond⟩

theorem count_set (cnt lo hi : BitVec 64) {a c u : Nat} (hle : lo.toNat ≤ hi.toNat)
    (hcard : u + c = a + (hi.toNat + 1 - lo.toNat)) :
    cnt + (hi - lo + 1#64 - BitVec.ofNat 64 c) + BitVec.ofNat 64 a = cnt + BitVec.ofNat 64 u := by
  refine eq_of_toNat_eq ?_
  simp only [toNat_add, toNat_sub, toNat_ofNat]
  omega

theorem count_reset (cnt : BitVec 64) {a c u : Nat} (hcard : u + c = a) :
    cnt - BitVec.ofNat 64 c + BitVec.ofNat 64 a = cnt + BitVec.ofNat 64 u := by
  refine eq_of_toNat_eq ?_
  simp only [toNat_add, toNat_sub, toNat_ofNat]
  omega

section range

variable {c : Bool} {lo hi : BitVec 64}

section

variable (hb₀ : Bounds hb start count lo hi)
include hb₀

theorem Bounds.mem_range (n : Nat) :
    n ∈ groupRange hb.granularity start count ↔ lo.toNat ≤ n ∧ n ≤ hi.toNat := by
  rw [groupRange, mem_Icc, ← hb₀.lo_eq, ← hb₀.hi_eq]

/-- The groups after a range of the last level has been set or reset. -/
theorem Bounds.mem_groups (cnt : BitVec 64)
    (hr : LevelsRanged c 6 lo.toNat hi.toNat hb.levels levels) (n : Nat) :
    n ∈ groups { hb with count := cnt, levels := levels } ↔
      if n ∈ groupRange hb.granularity start count then c = true else n ∈ groups hb := by
  simp only [Hbitmap.mem_groups, hb₀.mem_range, hr.own.bit]
  split <;> rfl

theorem Bounds.wf (h : hb.Wf) (cnt : BitVec 64)
    (hr : LevelsRanged c 6 lo.toNat hi.toNat hb.levels levels) :
    HBitmap.Wf { hb with count := cnt, levels := levels } := by
  refine h.withLevels _ hr.size hr.linked fun n hn => ?_
  have hlt := hb₀.lt_size
  rw [hr.own.bit, if_neg (by omega), h.beyond n hn]

theorem Bounds.between (h : hb.Wf) : hbCountBetween hb lo hi =
      some (BitVec.ofNat 64 (groups hb ∩ groupRange hb.granularity start count).card) := by
  rw [hbCountBetween_spec h.fits h.linked hb₀.shift hb₀.le hb₀.lt_size h.size_le_last]
  congr 3
  ext n
  rw [mem_filter, mem_inter, hb₀.mem_range]
  rfl

theorem Bounds.hi_lt (h : hb.Wf) : hi.toNat / 64 < (hb.levels 6).size := by
  have hlast := h.size_le_last
  have hlt := hb₀.lt_size
  omega

end

end range

theorem hbitmapSet_spec (h : hb.Wf) (hr : hb.InRange start count) :
    ∃ hb', hbitmapSet hb start count = some hb' ∧ hb'.Wf ∧ hb'.size = hb.size ∧
      hb'.granularity = hb.granularity ∧
      groups hb' = groups hb ∪ groupRange hb.granularity start count ∧ CountFollows hb hb' := by
  have hb₀ := bounds_of_inRange h hr
  obtain ⟨levels, hset, hdone⟩ := hbSetBetween_spec (by decide) h.fits h.linked hb₀.le (hb₀.hi_lt h)
  have hgroups : ∀ cnt, groups { hb with count := cnt, levels := levels } =
      groups hb ∪ groupRange hb.granularity start count := by
    intro cnt
    ext n
    rw [hb₀.mem_groups cnt hdone]
    split <;> simp [*]
  refine ⟨_, by simp only [hbitmapSet, hb₀.between h, bind_eq_bind, bind_some,
    Option.pure_def, show numLevels - 1 = 6 from rfl, hset]; rfl, hb₀.wf h _ hdone, rfl, rfl,
    hgroups _, ?_⟩
  refine count_set hb.count _ _ hb₀.le ?_
  rw [hgroups, card_union_add_card_inter, groupRange, card_Icc, ← hb₀.lo_eq, ← hb₀.hi_eq]

theorem hbitmapReset_spec (h : hb.Wf) (hr : hb.InRange start count) :
    ∃ hb', hbitmapReset hb start count = some hb' ∧ hb'.Wf ∧ hb'.size = hb.size ∧
      hb'.granularity = hb.granularity ∧
      groups hb' = groups hb \ groupRange hb.granularity start count ∧ CountFollows hb hb' := by
  have hb₀ := bounds_of_inRange h hr
  obtain ⟨levels, hset, hdone⟩ :=
    hbResetBetween_spec (by decide) h.fits h.linked hb₀.le (hb₀.hi_lt h)
  have hgroups : ∀ cnt, groups { hb with count := cnt, levels := levels } =
      groups hb \ groupRange hb.granularity start count := by
    intro cnt
    ext n
    rw [hb₀.mem_groups cnt hdone]
    split <;> simp [*]
  refine ⟨_, by simp only [hbitmapReset, hb₀.between h, bind_eq_bind, bind_some,
    Option.pure_def, show numLevels - 1 = 6 from rfl, hset]; rfl, hb₀.wf h _ hdone, rfl, rfl,
    hgroups _, ?_⟩
  refine count_reset hb.count ?_
  rw [hgroups, card_sdiff_add_card_inter]

theorem Linked.congr {levels' : Nat → Array Word} {k : Nat} (h : Linked levels k)
    (hword : ∀ i ≤ k, ∀ j, wordAt (levels' i) j = wordAt (levels i) j) : Linked levels' k := by
  intro i hi n
  rw [bitAt, hword i (by omega), hword (i + 1) hi]
  exact h i hi n

theorem linked_of_empty (htop : wordAt (levels 0) 0 = sentinel) (hone : (levels 0).size = 1)
    (hzero : ∀ i ≤ 6, i ≠ 0 → ∀ j, wordAt (levels i) j = 0#64) : Linked levels 6 := by
  intro i hi n
  rw [hzero (i + 1) hi (by omega)]
  rcases eq_or_ne i 0 with rfl | hne
  · rcases lt_or_ge n 64 with hlt | hge
    · rw [bitAt, show n / 64 = 0 by omega, htop, sentinel, getLsbD_one_shiftLeft (by decide),
        show n % 64 = n by omega]
      simp
    · rw [bitAt_of_size_le (by omega)]
      have hne : n ≠ 63 := by omega
      simp [hne]
  · rw [bitAt, hzero i (by omega) hne]
    simp [hne]

theorem hbitmapResetAll_spec (h : hb.Wf) :
    ∃ hb', hbitmapResetAll hb = some hb' ∧ hb'.Wf ∧ hb'.size = hb.size ∧
      hb'.granularity = hb.granularity ∧ groups hb' = ∅ ∧ hb'.count = 0#64 := by
  have hone : (hb.levels 0).size = 1 := (h.sizes 0 (by decide)).trans (levelSize_zero h.size_le)
  set levels : Nat → Array Word := fun i =>
    if i = 0 then (hb.levels 0).setIfInBounds 0 sentinel
      else Array.replicate (hb.levels i).size 0#64
    with hlevels
  have hzero : ∀ i ≤ 6, i ≠ 0 → ∀ j, wordAt (levels i) j = 0#64 := by
    intro i _ hi j
    simp [hlevels, hi]
  have hempty : ∀ n, bitAt (levels 6) n = false := by
    intro n
    rw [bitAt, hzero 6 (le_refl 6) (by decide)]
    simp
  refine ⟨{ hb with count := 0#64, levels := levels }, ?_, h.withLevels _ (fun i => ?_)
    (linked_of_empty ?_ ?_ hzero) fun n _ => hempty n, rfl, rfl, ?_, rfl⟩
  · simp only [hbitmapResetAll, storeWord_of_lt (show 0 < (hb.levels 0).size by omega),
      bind_eq_bind, bind_some, Option.pure_def, hlevels]
  · rcases eq_or_ne i 0 with rfl | hi <;> simp [levels, *]
  · simp [hlevels, wordAt_setIfInBounds (show 0 < (hb.levels 0).size by omega)]
  · simp [hlevels, hone]
  · ext n
    rw [mem_groups]
    simp [hempty]

/-! ## Allocation -/

theorem roundUp_toNat (size : BitVec 64) (hg : granularity < 64) :
    (roundUp size granularity).toNat =
      (size.toNat + 2 ^ granularity - 1) % 2 ^ 64 / 2 ^ granularity := by
  have hpow : 2 ^ granularity < 2 ^ 64 := Nat.pow_lt_pow_right (by decide) hg
  have hpos : 0 < 2 ^ granularity := Nat.two_pow_pos _
  rw [roundUp, toNat_ushiftRight, shiftRight_eq_div_pow, toNat_sub,
    toNat_add, toNat_shiftLeft, toNat_ofNat]
  congr 1
  omega

theorem roundUp_no_wrap (size : BitVec 64) (hg : granularity < 64) :
    (roundUp size granularity).toNat * 2 ^ granularity < 2 ^ 64 := by
  rw [roundUp_toNat size hg]
  have hle := div_mul_le_self ((size.toNat + 2 ^ granularity - 1) % 2 ^ 64) (2 ^ granularity)
  omega

theorem allocLoop_spec (i size : Nat) (levels : Nat → Array Word) :
    (allocLoop i size levels).2 = wordsFor^[i] size ∧
    (∀ j < i, (allocLoop i size levels).1 j = Array.replicate (wordsFor^[i - j] size) 0#64) ∧
    ∀ j, i ≤ j → (allocLoop i size levels).1 j = levels j := by
  induction i generalizing size levels with
  | zero => exact ⟨rfl, fun j hj => absurd hj (by omega), fun _ _ => rfl⟩
  | succ i ih =>
    obtain ⟨htop, hlow, hhigh⟩ := ih (wordsFor size)
      (update levels i (Array.replicate (wordsFor size) 0#64))
    refine ⟨htop, fun j hj => ?_, fun j hj => ?_⟩
    · rcases Nat.lt_succ_iff_lt_or_eq.mp hj with hlt | rfl
      · rw [show i + 1 - j = (i - j) + 1 by omega]
        exact hlow j hlt
      · rw [show j + 1 - j = 1 by omega]
        exact (hhigh j (le_refl j)).trans (update_self ..)
    · exact (hhigh j (by omega)).trans (update_of_ne (by omega) _ _)

theorem hbitmapAlloc_spec {size : BitVec 64} (hg : granularity < 64)
    (hmax : (roundUp size granularity).toNat ≤ 2 ^ logMaxSize) :
    ∃ hb, hbitmapAlloc size granularity = some hb ∧ hb.Wf ∧ hb.size = roundUp size granularity ∧
      hb.granularity = granularity ∧ groups hb = ∅ ∧ hb.count = 0#64 := by
  set n := (roundUp size granularity).toNat with hn
  obtain ⟨htop, hlow, -⟩ := allocLoop_spec numLevels n fun _ => #[]
  set levels₀ := (allocLoop numLevels n fun _ => #[]).1 with hlevels₀
  have htop1 : (allocLoop numLevels n fun _ => #[]).2 = 1 := htop.trans (levelSize_zero hmax)
  have h0 : levels₀ 0 = Array.replicate 1 0#64 := by
    exact congrArg (Array.replicate · 0#64) (levelSize_zero hmax)
  set levels := update levels₀ 0 ((levels₀ 0).setIfInBounds 0 (0#64 ||| sentinel))
    with hlevels
  have hsize : ∀ i < numLevels, (levels i).size = levelSize n i := by
    intro i hi
    rw [size_update (by simp), hlow i hi, Array.size_replicate, levelSize]
  have hzero : ∀ i ≤ 6, i ≠ 0 → ∀ j, wordAt (levels i) j = 0#64 := by
    intro i hlt hi j
    rw [hlevels, update_of_ne hi, hlow i (lt_succ_of_le hlt), wordAt_replicate_zero]
  have hempty : ∀ k, bitAt (levels 6) k = false := by
    intro k
    rw [bitAt, hzero 6 (le_refl 6) (by decide)]
    simp
  refine ⟨⟨roundUp size granularity, 0#64, granularity, levels⟩, ?_,
      ⟨hg, hmax, roundUp_no_wrap size hg, hsize,
      linked_of_empty ?_ ((hsize 0 (by decide)).trans (levelSize_zero hmax)) hzero,
      fun k _ => hempty k⟩, rfl, rfl, ?_, rfl⟩
  · have hword : (levels₀ 0)[0]? = some 0#64 := by
      rw [h0]
      rfl
    have hstore : storeWord (levels₀ 0) 0 (0#64 ||| sentinel) =
        some ((levels₀ 0).setIfInBounds 0 (0#64 ||| sentinel)) :=
      storeWord_of_lt (by rw [h0]; decide) _
    have hloop : allocLoop numLevels n (fun _ => #[]) = (levels₀, 1) := Prod.ext rfl htop1
    simp only [hbitmapAlloc, hg, hmax, ← hn, hloop, hword, hstore, not_true_eq_false, if_false,
      ne_eq, bind_eq_bind, bind_some, Option.pure_def, hlevels]
  · show wordAt (levels 0) 0 = sentinel
    rw [hlevels, update_self, wordAt_setIfInBounds (by rw [h0]; decide), if_pos rfl]
    decide
  · ext k
    rw [mem_groups]
    simp [hempty]

/-! ## Resizing -/

variable {shrink : Bool} {numElements : BitVec 64}

theorem reallocLevel_spec (a : Array Word) (hshrink : shrink = true → size ≤ a.size)
    (hgrow : shrink = false → a.size ≤ size) :
    ∃ a', reallocLevel shrink a size = some a' ∧ a'.size = size ∧
      ∀ j, wordAt a' j = if j < size then wordAt a j else 0#64 := by
  cases shrink with
  | true =>
    have hle := hshrink rfl
    refine ⟨a.take size, by simp [reallocLevel, hle], by simpa using hle, fun j => ?_⟩
    rw [wordAt, Array.getElem?_extract, Nat.sub_zero, Nat.min_eq_left hle, zero_add]
    split <;> rfl
  | false =>
    have hle := hgrow rfl
    refine ⟨a ++ Array.replicate (size - a.size) 0#64, by simp [reallocLevel, hle], by simp [hle],
      fun j => ?_⟩
    rw [wordAt, Array.getElem?_append]
    split
    · next hj => rw [if_pos (by omega), wordAt]
    · next hj =>
      have hz : wordAt a j = 0#64 := wordAt_of_size_le (by omega)
      rw [hz, ite_self]
      exact wordAt_replicate_zero _ _

theorem truncateLoop_spec {m : Nat}
    (hsize : ∀ j < i, (levels j).size = wordsFor^[i - j] m) (hshrink : shrink = true → n ≤ m)
    (hgrow : shrink = false → m ≤ n) : ∃ levels', truncateLoop shrink i n levels = some levels' ∧
      (∀ j < i, (levels' j).size = wordsFor^[i - j] n) ∧ (∀ j < i, ∀ k, wordAt (levels' j) k =
        if k < wordsFor^[i - j] n then wordAt (levels j) k else 0#64) ∧
      ∀ j, i ≤ j → levels' j = levels j := by
  induction i generalizing n m levels with
  | zero =>
    exact ⟨levels, rfl, fun j hj => absurd hj (by omega), fun j hj => absurd hj (by omega),
      fun _ _ => rfl⟩
  | succ i ih =>
    have hi : (levels i).size = wordsFor m := by
      rw [hsize i (by omega), show i + 1 - i = 1 by omega]
      rfl
    by_cases heq : wordsFor m = wordsFor n
    · have hsame : ∀ j < i + 1, wordsFor^[i + 1 - j] m = wordsFor^[i + 1 - j] n := by
        intro j hj
        rw [show i + 1 - j = (i - j) + 1 by omega, iterate_succ_apply, iterate_succ_apply, heq]
      refine ⟨levels, ?_, fun j hj => (hsize j hj).trans (hsame j hj), fun j hj k => ?_,
        fun _ _ => rfl⟩
      · exact if_pos (hi.trans heq)
      split
      · rfl
      · next hk =>
        refine wordAt_of_size_le ?_
        rw [hsize j hj, hsame j hj]
        omega
    · obtain ⟨a, hre, hasize, haword⟩ := reallocLevel_spec (levels i)
        (fun h : shrink = true => hi ▸ wordsFor_mono (hshrink h))
        (fun h : shrink = false => hi ▸ wordsFor_mono (hgrow h))
      have hsize' : ∀ j < i, (update levels i a j).size = wordsFor^[i - j] (wordsFor m) := by
        intro j hj
        rw [update_of_ne (by omega), hsize j (by omega),
          show i + 1 - j = (i - j) + 1 by omega, iterate_succ_apply]
      obtain ⟨levels', hrun, hsizes, hwords, hrest⟩ := ih hsize'
        (fun h => wordsFor_mono (hshrink h)) fun h => wordsFor_mono (hgrow h)
      have hself : levels' i = a := (hrest i (le_refl i)).trans (update_self ..)
      refine ⟨levels', ?_, fun j hj => ?_, fun j hj k => ?_, fun j hj => ?_⟩
      · rw [truncateLoop]
        have hne : ¬ (levels i).size = max ((n + 63) / 64) 1 := fun h => heq (hi.symm.trans h)
        simp only [hne, if_false]
        rw [show max ((n + 63) / 64) 1 = wordsFor n from rfl, hre]
        exact hrun
      · rcases Nat.lt_succ_iff_lt_or_eq.mp hj with hlt | rfl
        · rw [show i + 1 - j = (i - j) + 1 by omega]
          exact hsizes j hlt
        · rw [hself, hasize, show j + 1 - j = 1 by omega]
          rfl
      · rcases Nat.lt_succ_iff_lt_or_eq.mp hj with hlt | rfl
        · rw [show i + 1 - j = (i - j) + 1 by omega, iterate_succ_apply, hwords j hlt,
            update_of_ne (by omega)]
        · rw [hself, haword, show j + 1 - j = 1 by omega]
          rfl
      · rw [hrest j (by omega), update_of_ne (by omega)]

/-- With no bit from `n` on, no word lies beyond the sizes for `n` groups. -/
theorem wordAt_eq_zero_of_beyond (hlinked : Linked levels 6)
    (hbeyond : ∀ k, n ≤ k → bitAt (levels 6) k = false) (hi : i ≤ 6) :
    ∀ j, levelSize n i ≤ j → wordAt (levels i) j = 0#64 := by
  induction hi using decreasingInduction with
  | self =>
    intro j hj
    by_contra hne
    obtain ⟨k, rfl, hbit⟩ := wordAt_ne_zero_iff.mp hne
    have hle := le_wordsFor n
    rw [levelSize_last] at hj
    rw [hbeyond k (by omega)] at hbit
    cases hbit
  | of_succ i hi ih =>
    intro j hj
    by_contra hne
    obtain ⟨k, rfl, hbit⟩ := wordAt_ne_zero_iff.mp hne
    rw [levelSize_succ n (by simp only [numLevels]; omega)] at hj
    have hle := le_wordsFor (levelSize n (i + 1))
    have hpos : 1 ≤ wordsFor (levelSize n (i + 1)) := le_max_right _ _
    rcases (hlinked i hi k).mp hbit with h | ⟨-, rfl⟩
    · exact h (ih k (by omega))
    · omega

/-- Resizing the levels of a bitmap that has no bit beyond the new size. -/
theorem truncateLoop_wf (h : hb.Wf) {size : BitVec 64} (hmax : size.toNat ≤ 2 ^ logMaxSize)
    (hwrap : size.toNat * 2 ^ hb.granularity < 2 ^ 64)
    (hbeyond : ∀ n, size.toNat ≤ n → bitAt (hb.levels 6) n = false) :
    ∃ levels, truncateLoop (decide (size.toNat < hb.size.toNat)) numLevels size.toNat hb.levels =
        some levels ∧ HBitmap.Wf { hb with size := size, levels := levels } ∧
      groups { hb with size := size, levels := levels } = groups hb := by
  obtain ⟨levels, hrun, hsize, hword, -⟩ := truncateLoop_spec (m := hb.size.toNat)
    (n := size.toNat) h.sizes (fun hs => Nat.le_of_lt (of_decide_eq_true hs))
    (fun hs => Nat.le_of_not_lt (of_decide_eq_false hs))
  have hsame : ∀ i ≤ 6, ∀ j, wordAt (levels i) j = wordAt (hb.levels i) j := by
    intro i hi j
    rw [hword i (lt_succ_of_le hi)]
    split
    · rfl
    · next hj =>
      exact (wordAt_eq_zero_of_beyond h.linked hbeyond hi j (Nat.le_of_not_lt hj)).symm
  have hbit : ∀ n, bitAt (levels 6) n = bitAt (hb.levels 6) n := by
    intro n
    rw [bitAt, hsame 6 (le_refl 6), bitAt]
  refine ⟨levels, hrun, ⟨h.granularity_lt, hmax, hwrap, hsize, h.linked.congr hsame, ?_⟩, ?_⟩
  · intro n hn
    exact (hbit n).trans (hbeyond n hn)
  · ext n
    rw [mem_groups, mem_groups]
    exact Bool.eq_iff_iff.mp (hbit n)

/-- The elements that `hbitmap_truncate` resets when it shrinks the bitmap. -/
theorem truncate_range (h : hb.Wf) (numElements : BitVec 64)
    (hshrink : (roundUp numElements hb.granularity).toNat < hb.size.toNat) :
    let align := 1#64 <<< hb.granularity
    let start := (numElements + align - 1#64) / align * align
    start.toNat = (roundUp numElements hb.granularity).toNat * 2 ^ hb.granularity ∧
    ((hb.size <<< hb.granularity) - start).toNat =
      (hb.size.toNat - (roundUp numElements hb.granularity).toNat) * 2 ^ hb.granularity := by
  have hpow : 2 ^ hb.granularity < 2 ^ 64 := Nat.pow_lt_pow_right (by decide) h.granularity_lt
  have hpos : 0 < 2 ^ hb.granularity := Nat.two_pow_pos _
  have halign : (1#64 <<< hb.granularity).toNat = 2 ^ hb.granularity := by
    rw [toNat_shiftLeft, toNat_ofNat]
    omega
  have hsum : (numElements + 1#64 <<< hb.granularity - 1#64).toNat =
      (numElements.toNat + 2 ^ hb.granularity - 1) % 2 ^ 64 := by
    rw [toNat_sub, toNat_add, toNat_ofNat]
    omega
  have hround := roundUp_toNat numElements h.granularity_lt
  have hwrap := roundUp_no_wrap numElements h.granularity_lt
  have hstart : ((numElements + 1#64 <<< hb.granularity - 1#64) / 1#64 <<< hb.granularity *
      1#64 <<< hb.granularity).toNat =
        (roundUp numElements hb.granularity).toNat * 2 ^ hb.granularity := by
    rw [toNat_mul, toNat_udiv, halign, hsum, ← hround, mod_eq_of_lt hwrap]
  refine ⟨hstart, ?_⟩
  have hshift : (hb.size <<< hb.granularity).toNat = hb.size.toNat * 2 ^ hb.granularity := by
    rw [toNat_shiftLeft, shiftLeft_eq, mod_eq_of_lt h.no_wrap]
  have hle := mul_le_mul_right (2 ^ hb.granularity) (Nat.le_of_lt hshrink)
  rw [toNat_sub, Nat.sub_mul]
  omega

/-- What `hbitmap_truncate` resets is what lies beyond the new size. -/
theorem truncateReset_spec (h : hb.Wf)
    (hshrink : (roundUp numElements hb.granularity).toNat < hb.size.toNat)
    (hint : hb.granularity < 31) :
    ∃ hb', truncateReset hb numElements = some hb' ∧ hb'.Wf ∧ hb'.size = hb.size ∧
      hb'.granularity = hb.granularity ∧
      groups hb' = (groups hb).filter (· < (roundUp numElements hb.granularity).toNat) ∧
      CountFollows hb hb' := by
  obtain ⟨hstart, hfix⟩ := truncate_range h numElements hshrink
  set start := (numElements + 1#64 <<< hb.granularity - 1#64) / 1#64 <<< hb.granularity *
    1#64 <<< hb.granularity with hstart'
  set fixCount := (hb.size <<< hb.granularity) - start with hfix'
  have hpos : 0 < 2 ^ hb.granularity := Nat.two_pow_pos _
  have hfixpos : 1 ≤ fixCount.toNat := by
    rw [hfix]
    exact Nat.mul_pos (by omega) hpos
  have hsum : start.toNat + fixCount.toNat = hb.size.toNat * 2 ^ hb.granularity := by
    rw [hstart, hfix, ← Nat.add_mul, Nat.add_sub_cancel' (Nat.le_of_lt hshrink)]
  have hrange : hb.InRange start fixCount := ⟨hfixpos, hsum.le⟩
  obtain ⟨hb', hrun, hwf, hsize, hgran, hgroups, hcount⟩ := hbitmapReset_spec h hrange
  refine ⟨hb', ?_, hwf, hsize, hgran, ?_, hcount⟩
  · have hne : fixCount ≠ 0#64 := by
      intro heq
      rw [heq] at hfixpos
      simp at hfixpos
    simp only [truncateReset, hint, if_true, ← hstart', ← hfix', hne, if_false, hrun]
  rw [hgroups]
  ext k
  rw [mem_sdiff, mem_filter, groupRange, mem_Icc, hsum, hstart, Nat.mul_div_cancel _ hpos]
  refine and_congr_right fun hk => ?_
  have hlast : k ≤ (hb.size.toNat * 2 ^ hb.granularity - 1) / 2 ^ hb.granularity := by
    refine (le_div_iff_mul_le hpos).mpr ?_
    have hmul := mul_le_mul_right (2 ^ hb.granularity) (succ_le_of_lt (h.lt_size hk))
    rw [succ_mul] at hmul
    omega
  omega

theorem hbitmapTruncate_spec (h : hb.Wf)
    (hmax : (roundUp numElements hb.granularity).toNat ≤ 2 ^ logMaxSize)
    (hint : (roundUp numElements hb.granularity).toNat < hb.size.toNat → hb.granularity < 31) :
    ∃ hb', hbitmapTruncate hb numElements = some hb' ∧ hb'.Wf ∧ hb'.granularity = hb.granularity ∧
      groups hb' = (groups hb).filter (· < (roundUp numElements hb.granularity).toNat) ∧
      CountFollows hb hb' := by
  set size := roundUp numElements hb.granularity with hsize
  have hwrap := roundUp_no_wrap numElements h.granularity_lt
  by_cases heq : size = hb.size
  · refine ⟨hb, by simp [hbitmapTruncate, ← hsize, heq, h.size_le], h, rfl, ?_, rfl⟩
    refine (filter_true_of_mem fun k hk => ?_).symm
    rw [heq]
    exact h.lt_size hk
  -- the bitmap before the levels are resized
  obtain ⟨hb₁, hrun₁, hwf₁, hgran₁, hsize₁, hgroups₁, hcount₁⟩ : ∃ hb₁,
      (if size.toNat < hb.size.toNat then truncateReset hb numElements else some hb) = some hb₁ ∧
      hb₁.Wf ∧ hb₁.granularity = hb.granularity ∧ hb₁.size = hb.size ∧
      groups hb₁ = (groups hb).filter (· < size.toNat) ∧ CountFollows hb hb₁ := by
    by_cases hshrink : size.toNat < hb.size.toNat
    · rw [if_pos hshrink]
      obtain ⟨hb₁, hrun, hwf, hsz, hgran, hgroups, hcount⟩ :=
        truncateReset_spec h hshrink (hint hshrink)
      exact ⟨hb₁, hrun, hwf, hgran, hsz, hgroups, hcount⟩
    rw [if_neg hshrink]
    refine ⟨hb, rfl, h, rfl, rfl, (filter_true_of_mem fun k hk => ?_).symm, rfl⟩
    have := h.lt_size hk
    omega
  have hbeyond : ∀ n, size.toNat ≤ n → bitAt (hb₁.levels 6) n = false := by
    intro n hn
    by_contra hbit
    have hmem : n ∈ groups hb₁ := mem_groups.mpr (by simpa using hbit)
    rw [hgroups₁, mem_filter] at hmem
    omega
  obtain ⟨levels, hrun, hwf, hgroups⟩ := truncateLoop_wf hwf₁ hmax (by rw [hgran₁]; exact hwrap)
    hbeyond
  refine ⟨_, ?_, hwf, hgran₁, hgroups.trans hgroups₁, ?_⟩
  · rw [hsize₁] at hrun
    simp only [hbitmapTruncate, ← hsize, hmax, heq, not_true_eq_false, if_false,
      decide_eq_true_eq, hrun₁, bind_eq_bind, bind_some, hrun, Option.pure_def]
  · rw [CountFollows, hgroups]
    exact hcount₁

/-! ## Merging -/

theorem wordAt_orWords {a b : Array Word} (h : a.size = b.size) (j : Nat) :
    wordAt (orWords a b) j = wordAt a j ||| wordAt b j := by
  rw [orWords, wordAt, Array.getElem?_mapIdx]
  rcases lt_or_ge j a.size with hlt | hge
  · rw [getElem?_eq_wordAt hlt]
    rfl
  · rw [Array.getElem?_eq_none hge, wordAt_of_size_le hge, wordAt_of_size_le (h ▸ hge)]
    simp

theorem bitAt_orWords {a b : Array Word} (h : a.size = b.size) (n : Nat) :
    bitAt (orWords a b) n = (bitAt a n || bitAt b n) := by
  rw [bitAt, wordAt_orWords h, getLsbD_or, bitAt, bitAt]

theorem or_ne_zero {v w : Word} : v ||| w ≠ 0#64 ↔ v ≠ 0#64 ∨ w ≠ 0#64 := by
  rw [ne_eq, BitVec.or_eq_zero_iff, not_and_or]

theorem hbitmapMerge_spec {a b : HBitmap} (ha : a.Wf) (hb : b.Wf) (hsize : a.size = b.size)
    (hgran : a.granularity = b.granularity) (hcount : hbitmapCount b ≠ 0#64) :
    ∃ a', hbitmapMerge a b = some (a', true) ∧ a'.Wf ∧ a'.granularity = a.granularity ∧
      groups a' = groups a ∪ groups b ∧ a'.count = a.count := by
  have hsizes : ∀ i < numLevels, (a.levels i).size = (b.levels i).size := by
    intro i hi
    rw [ha.sizes i hi, hb.sizes i hi, hsize]
  have hbit := bitAt_orWords (hsizes 6 (by decide))
  have hlinked : Linked (fun i => orWords (a.levels i) (b.levels i)) 6 := by
    intro i hi n
    rw [bitAt_orWords (hsizes i (by simp only [numLevels]; omega)),
      wordAt_orWords (hsizes (i + 1) (by simp only [numLevels]; omega)), Bool.or_eq_true,
      ha.linked i hi, hb.linked i hi, or_ne_zero, or_or_or_comm, or_self]
  refine ⟨{ a with levels := fun i => orWords (a.levels i) (b.levels i) }, ?_,
    ha.withLevels _ (fun i => by simp [orWords]) hlinked fun n hn => ?_, rfl, ?_, rfl⟩
  · have hle : ∀ i < numLevels, (a.levels i).size ≤ (b.levels i).size :=
      fun i hi => (hsizes i hi).le
    simp only [hbitmapMerge, hsize, hgran, ne_eq, not_true_eq_false, or_self, if_false, hcount]
    rw [if_pos hle]
  · rw [hbit, ha.beyond n hn, hb.beyond n (hsize ▸ hn), Bool.or_false]
  · ext n
    rw [mem_union, mem_groups, mem_groups, mem_groups, ← Bool.or_eq_true]
    exact Bool.eq_iff_iff.mp (hbit n)

end QemuAndroid.Hbitmap
