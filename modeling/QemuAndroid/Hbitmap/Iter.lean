import QemuAndroid.Hbitmap.Range
import Mathlib.Order.Interval.Finset.Nat

/-!
# Iteration and counting

The iterator keeps a path from level 0 down to a word of the last level.  On every
level but the last, `cur` holds bits of the word on the path that lie behind the path.
They may be older than the bitmap: `CurAt` asks that each of them is set, and that
those above the words of a set `must` are there.  `hbitmap_iter_skip_words` goes up to
the first level with such a bit and down along lowest bits, and so finds a word that is
not zero, with no word of `must` before it (`hbitmapIterSkipWords_spec`).

`hb_count_between` adds up the words it meets: it counts the set bits of its range
(`hbCountBetween_spec`).
-/

namespace QemuAndroid.Hbitmap

open Lib Function Option Finset Nat
open BitVec hiding and_assoc lt_trichotomy

/-! ## Paths -/

/-- The index of the word of level `i` above word `p` of the last level. -/
def ancestor (i p : Nat) : Nat := p / 64 ^ (6 - i)

@[simp] theorem ancestor_last (p : Nat) : ancestor 6 p = p := by
  simp [ancestor]

variable {i p q j : Nat}

theorem ancestor_div (hi : i < 6) (p : Nat) : ancestor (i + 1) p / 64 = ancestor i p := by
  rw [ancestor, Nat.div_div_eq_div_mul, ← Nat.pow_succ]
  congr 2
  omega

theorem ancestor_mono (i : Nat) (h : p ≤ q) : ancestor i p ≤ ancestor i q := Nat.div_le_div_right h

theorem lt_of_ancestor_lt (h : ancestor i p < ancestor i q) : p < q := by
  by_contra hge
  have := ancestor_mono i (Nat.le_of_not_lt hge)
  omega

/-- Words with the same ancestor have the same ancestors further up. -/
theorem ancestor_eq_of_le (hij : i ≤ j) (hj : j ≤ 6) (h : ancestor j p = ancestor j q) :
    ancestor i p = ancestor i q := by
  induction j, hij using le_induction with
  | base => exact h
  | succ j hij ih =>
    refine ih (by omega) ?_
    rw [← ancestor_div (i := j) (by omega) p, ← ancestor_div (i := j) (by omega) q, h]

section Levels

variable {levels : Nat → Array Word} (hfits : Fits levels) (hlinked : Linked levels 6)

include hfits in
theorem ancestor_lt_size (hp : p < (levels 6).size) (hi : i ≤ 6) :
    ancestor i p < (levels i).size := by
  induction hi using decreasingInduction with
  | self => simpa using hp
  | of_succ i hi ih =>
    have := hfits.above i hi
    rw [← ancestor_div hi]
    omega

include hfits in
theorem ancestor_one_lt (hp : p < (levels 6).size) : ancestor 1 p < 63 := by
  have hlt := ancestor_lt_size hfits hp (show 1 ≤ 6 by decide)
  have := hfits.spare
  omega

include hfits in
theorem ancestor_zero (hp : p < (levels 6).size) : ancestor 0 p = 0 := by
  have hone : ancestor (0 + 1) p < 63 := ancestor_one_lt hfits hp
  rw [← ancestor_div (by decide)]
  omega

include hlinked in
theorem wordAt_ancestor_ne_zero (hq : wordAt (levels 6) q ≠ 0#64) (hi : i ≤ 6) :
    wordAt (levels i) (ancestor i q) ≠ 0#64 := by
  induction hi using decreasingInduction with
  | self => simpa using hq
  | of_succ i hi ih =>
    refine wordAt_ne_zero_iff.mpr ⟨ancestor (i + 1) q, ancestor_div hi q, ?_⟩
    exact (hlinked i hi _).mpr (.inl ih)

include hlinked in
theorem bitAt_ancestor (hq : wordAt (levels 6) q ≠ 0#64) (hi : i < 6) :
    bitAt (levels i) (ancestor (i + 1) q) = true :=
  (hlinked i hi _).mpr (.inl (wordAt_ancestor_ne_zero hlinked hq hi))

end Levels

theorem lt_size_of_ne_zero {a : Array Word} (h : wordAt a j ≠ 0#64) : j < a.size := by
  by_contra hge
  exact h (wordAt_of_size_le (Nat.le_of_not_lt hge))

/-! ## The iterator -/

/-- The bits of level `i` above the words of `must`, and the sentinel. -/
def Due (must : Set Nat) (i n : Nat) : Prop :=
  (∃ q ∈ must, ancestor (i + 1) q = n) ∨ (i = 0 ∧ n = 63)

/-- Bits of word `pos` of level `i` from `lo` on, with all that are due. -/
def BitsFrom (levels : Nat → Array Word) (must : Set Nat) (i pos lo : Nat) (w : Word) : Prop :=
  ∀ k < 64, (w.getLsbD k = true → bitAt (levels i) (64 * pos + k) = true ∧ lo ≤ 64 * pos + k) ∧
    (Due must i (64 * pos + k) → lo ≤ 64 * pos + k → w.getLsbD k = true)

/-- Bits of the word of level `i` above `p` that lie behind the path to `p`. -/
def CurAt (levels : Nat → Array Word) (must : Set Nat) (i p : Nat) (w : Word) : Prop :=
  BitsFrom levels must i (ancestor i p) (ancestor (i + 1) p + 1) w

/-- The iterator stands on a word of the last level, and has not passed the words of
`must` behind it. -/
structure IterInv (levels : Nat → Array Word) (must : Set Nat) (hbi : HBitmapIter) : Prop where
  pos_lt : hbi.pos < (levels 6).size
  used : ∀ q ∈ must, wordAt (levels 6) q ≠ 0#64
  cur : ∀ i < 6, CurAt levels must i hbi.pos (hbi.cur i)

section Due

variable {levels : Nat → Array Word} {must must' : Set Nat} {pos lo : Nat} {w : Word}

theorem Due.isSet {n : Nat} (hlinked : Linked levels 6)
    (hmust : ∀ q ∈ must, wordAt (levels 6) q ≠ 0#64) (h : Due must i n) (hi : i < 6) :
    bitAt (levels i) n = true := by
  rcases h with ⟨q, hq, rfl⟩ | h
  · exact bitAt_ancestor hlinked (hmust q hq) hi
  · exact (hlinked i hi n).mpr (.inr h)

theorem bitsFrom_of_iff (hdue : ∀ n, Due must i n → bitAt (levels i) n = true)
    (h : ∀ k < 64, w.getLsbD k = true ↔
      bitAt (levels i) (64 * pos + k) = true ∧ lo ≤ 64 * pos + k) :
    BitsFrom levels must i pos lo w :=
  fun k hk => ⟨(h k hk).mp, fun hn hlo => (h k hk).mpr ⟨hdue _ hn, hlo⟩⟩

/-- A word of `must` leaves a bit. -/
theorem BitsFrom.getLsbD_ancestor (h : BitsFrom levels must i pos lo w) (hi : i < 6) (hq : q ∈ must)
    (hpos : ancestor i q = pos) (hlo : lo ≤ ancestor (i + 1) q) :
    w.getLsbD (ancestor (i + 1) q % 64) = true := by
  have hn : 64 * pos + ancestor (i + 1) q % 64 = ancestor (i + 1) q := by
    rw [← hpos, ← ancestor_div hi, div_add_mod]
  refine (h _ (mod_lt _ (by decide))).2 ?_ ?_
  · rw [hn]
    exact .inl ⟨q, hq, rfl⟩
  · rwa [hn]

theorem BitsFrom.mono (h : BitsFrom levels must i pos lo w) (hsub : must' ⊆ must) :
    BitsFrom levels must' i pos lo w :=
  fun k hk => ⟨(h k hk).1,
    fun hdue => (h k hk).2 (hdue.imp_left fun ⟨q, hq, hn⟩ => ⟨q, hsub hq, hn⟩)⟩

variable {hbi : HBitmapIter}

theorem IterInv.mono (h : IterInv levels must hbi) (hsub : must' ⊆ must) :
    IterInv levels must' hbi :=
  ⟨h.pos_lt, fun q hq => h.used q (hsub hq), fun i hi => (h.cur i hi).mono hsub⟩

/-- The current word of the last level is not part of the path. -/
theorem IterInv.setWord (h : IterInv levels must hbi) (w : Word) :
    IterInv levels must { hbi with cur := update hbi.cur 6 w } := by
  refine ⟨h.pos_lt, h.used, fun i hi => ?_⟩
  show CurAt _ _ _ _ (update hbi.cur 6 w i)
  rw [update_of_ne (by omega)]
  exact h.cur i hi

end Due

section Skip

variable {hb : HBitmap} (hfits : Fits hb.levels) (hlinked : Linked hb.levels 6)

variable {hbi : HBitmapIter} {must : Set Nat} {n pos lo : Nat}

include hfits in
/-- The sentinel is always left, so the first loop ends at level 0. -/
theorem IterInv.cur_zero_ne (hinv : IterInv hb.levels must hbi) : hbi.cur 0 ≠ 0#64 := by
  have hone := ancestor_one_lt hfits hinv.pos_lt
  refine word_ne_zero_iff.mpr ⟨63, by decide, (hinv.cur 0 (by decide) 63 (by decide)).2 ?_ ?_⟩ <;>
    rw [ancestor_zero hfits hinv.pos_lt]
  · exact .inr ⟨rfl, rfl⟩
  · simpa using succ_le_of_lt hone

include hfits in
/-- The first loop finds a level with bits left, and every later word of `must` lies
behind the path on that level. -/
theorem skipUp_spec (hinv : IterInv hb.levels must hbi) (hi : i ≤ 6)
    (hlater : ∀ q ∈ must, hbi.pos < q → ancestor i hbi.pos < ancestor i q) (hpos : i ≠ 0) :
    ∃ j < 6, skipUp hbi.cur i (ancestor i hbi.pos) =
        some (j, ancestor j hbi.pos, hbi.cur j) ∧ hbi.cur j ≠ 0#64 ∧
      ∀ q ∈ must, hbi.pos < q → ancestor (j + 1) hbi.pos < ancestor (j + 1) q := by
  induction i with
  | zero => exact absurd rfl hpos
  | succ i ih =>
    rw [skipUp, ancestor_div hi]
    by_cases hcur : hbi.cur i = 0#64
    · have hi0 : i ≠ 0 := by
        rintro rfl
        exact hinv.cur_zero_ne hfits hcur
      rw [if_pos hcur]
      refine ih (by omega) (fun q hmem hq => ?_) hi0
      -- a later word in the same word of level `i` would still be in `cur`
      rcases lt_or_eq_of_le (ancestor_mono i (le_of_lt hq)) with h | h
      · exact h
      · have hbit := (hinv.cur i hi).getLsbD_ancestor hi hmem h.symm (hlater q hmem hq)
        rw [hcur] at hbit
        simp at hbit
    · rw [if_neg hcur]
      exact ⟨i, hi, rfl, hcur, hlater⟩

/-- Word `q` of the last level is below the bits from `lo` on of word `pos` of level `i`, with no
word of `must` before it there, and `cur'` is `cur` with the path to it. -/
structure Found (levels : Nat → Array Word) (must : Set Nat) (i pos lo : Nat)
    (cur cur' : Nat → Word) (q : Nat) : Prop where
  ne_zero : wordAt (levels 6) q ≠ 0#64
  anc : ancestor i q = pos
  lo_le : lo ≤ ancestor (i + 1) q
  least : ∀ q' ∈ must, ancestor i q' = pos → lo ≤ ancestor (i + 1) q' → q ≤ q'
  same : ∀ j < i, cur' j = cur j
  behind : ∀ j, i ≤ j → j < 6 → CurAt levels must j q (cur' j)

/-- One step of the second loop: with no word of `must` before it below the lowest bit, there is
none before it below the whole word. -/
theorem Found.down {i pos lo q : Nat} {w : Word} {cur cur' : Nat → Word} (hi : i < 6)
    (hw : w ≠ 0#64) (hbits : BitsFrom hb.levels must i pos lo w)
    (h : Found hb.levels must (i + 1) (64 * pos + ctzl w) 0
      (update cur i (w &&& (w - 1#64))) cur' q) : Found hb.levels must i pos lo cur cur' q := by
  have hc : ctzl w < 64 := ctzl_lt hw
  obtain ⟨hbit, hlo⟩ := (hbits _ hc).1 (getLsbD_ctzl hw)
  have hanc : ancestor i q = pos := by
    rw [← ancestor_div hi, h.anc]
    omega
  refine ⟨h.ne_zero, hanc, by rw [h.anc]; exact hlo, fun q' hq' hpos hle => ?_, fun j hj => ?_,
    fun j hij hj => ?_⟩
  · -- the ancestor of `q'` is one of the bits, so not below the lowest
    have hdiv := ancestor_div hi q'
    have hset := ctzl_le (hbits.getLsbD_ancestor hi hq' hpos hle)
    rcases lt_or_eq_of_le (show 64 * pos + ctzl w ≤ ancestor (i + 1) q' by omega) with hlt | heq
    · rw [← h.anc] at hlt
      exact le_of_lt (lt_of_ancestor_lt hlt)
    · exact h.least q' hq' heq.symm (zero_le _)
  · rw [h.same j (by omega), update_of_ne (by omega)]
  rcases lt_or_eq_of_le hij with hlt | rfl
  · exact h.behind j hlt hj
  intro k hk
  rw [h.same i (by omega), update_self, getLsbD_and_sub_one hw, hanc, h.anc,
    Bool.and_eq_true, decide_eq_true_eq]
  refine ⟨?_, fun hdue hk' => ⟨(hbits k hk).2 hdue (by omega), by omega⟩⟩
  rintro ⟨hset, hne⟩
  have := ctzl_le hset
  exact ⟨((hbits k hk).1 hset).1, by omega⟩

include hlinked in
/-- One step of the second loop is possible: the word below the lowest bit is not
zero. -/
theorem skipDown_step {w : Word} (cur : Nat → Word) (hi : i < 6) (hw : w ≠ 0#64)
    (hsent : i = 0 → w ≠ sentinel ∧ pos = 0) (hbits : BitsFrom hb.levels must i pos lo w) :
    wordAt (hb.levels (i + 1)) (64 * pos + ctzl w) ≠ 0#64 ∧
    skipDown hb (n + 1) i pos w cur = skipDown hb n (i + 1) (64 * pos + ctzl w)
      (wordAt (hb.levels (i + 1)) (64 * pos + ctzl w)) (update cur i (w &&& (w - 1#64))) := by
  have hc : ctzl w < 64 := ctzl_lt hw
  obtain ⟨hbit, -⟩ := (hbits _ hc).1 (getLsbD_ctzl hw)
  have hne : wordAt (hb.levels (i + 1)) (64 * pos + ctzl w) ≠ 0#64 := by
    rcases (hlinked i hi _).mp hbit with h | ⟨rfl, h⟩
    · exact h
    -- the lowest bit is the sentinel, so it is the only one
    obtain ⟨hs, rfl⟩ := hsent rfl
    have hc63 : ctzl w = 63 := by omega
    refine absurd (eq_of_getLsbD_eq fun k hk => ?_) hs
    rw [sentinel, getLsbD_one_shiftLeft (by decide)]
    rcases eq_or_ne k 63 with rfl | hk63
    · rw [← hc63, getLsbD_ctzl hw]
      simp [hc63]
    · rw [getLsbD_of_lt_ctzl (by omega)]
      simp [hk63]
  refine ⟨hne, ?_⟩
  simp only [skipDown, if_neg hw, getElem?_eq_wordAt (lt_size_of_ne_zero hne), bind_eq_bind,
    bind_some]

variable (hmust : ∀ q ∈ must, wordAt (hb.levels 6) q ≠ 0#64)

include hlinked hmust in
theorem skipDown_full (cur : Nat → Word) (hn : n + i = 6) (hi : i ≠ 0)
    (hne : wordAt (hb.levels i) pos ≠ 0#64) :
    ∃ q cur', skipDown hb n i pos (wordAt (hb.levels i) pos) cur =
      some (q, wordAt (hb.levels 6) q, cur') ∧ Found hb.levels must i pos 0 cur cur' q := by
  induction n generalizing i pos cur with
  | zero =>
    obtain rfl : i = 6 := by omega
    refine ⟨pos, cur, rfl, hne, ancestor_last pos, zero_le _, fun q' _ hq' _ => ?_,
      fun _ _ => rfl, fun j hj hj' => absurd hj (by omega)⟩
    rw [← hq', ancestor_last]
  | succ n ih =>
    have hbits : BitsFrom hb.levels must i pos 0 (wordAt (hb.levels i) pos) :=
      bitsFrom_of_iff (fun n hn => hn.isSet hlinked hmust (by omega)) fun k hk => by
        simp [bitAt_add hk]
    obtain ⟨hne', hstep⟩ := skipDown_step hlinked (n := n) cur (by omega) hne (absurd · hi) hbits
    obtain ⟨q, cur', hrun, hfound⟩ := ih _ (by omega) (by omega) hne'
    exact ⟨q, cur', hstep.trans hrun, hfound.down (by omega) hne hbits⟩

include hlinked hmust in
/-- The second loop follows lowest bits down to the first word of the last level. -/
theorem skipDown_spec {w : Word} (cur : Nat → Word) (hi : i < 6) (hw : w ≠ 0#64)
    (hsent : i = 0 → w ≠ sentinel ∧ pos = 0) (hbits : BitsFrom hb.levels must i pos lo w) :
    ∃ q cur', skipDown hb (6 - i) i pos w cur = some (q, wordAt (hb.levels 6) q, cur') ∧
      Found hb.levels must i pos lo cur cur' q := by
  obtain ⟨hne, hstep⟩ := skipDown_step hlinked (n := 6 - (i + 1)) cur hi hw hsent hbits
  obtain ⟨q, cur', hrun, hfound⟩ := skipDown_full hlinked hmust (n := 6 - (i + 1)) _ (by omega)
    (by omega) hne
  refine ⟨q, cur', ?_, hfound.down hi hw hbits⟩
  rw [show 6 - i = 6 - (i + 1) + 1 by omega, hstep, hrun]

include hfits hlinked in
/-- `hbitmap_iter_skip_words` moves to a later word that is not zero and passes no word of
`must`, or there is none left, whatever the bitmap has become. -/
theorem hbitmapIterSkipWords_spec (hinv : IterInv hb.levels must hbi) :
    (∃ hbi', hbitmapIterSkipWords hb hbi = some (hbi', wordAt (hb.levels 6) hbi'.pos) ∧
      wordAt (hb.levels 6) hbi'.pos ≠ 0#64 ∧ hbi.pos < hbi'.pos ∧
      (∀ q ∈ must, hbi.pos < q → hbi'.pos ≤ q) ∧ IterInv hb.levels must hbi') ∨
    ((∀ hb', hbitmapIterSkipWords hb' hbi = some (hbi, 0#64)) ∧ ∀ q ∈ must, ¬hbi.pos < q) := by
  obtain ⟨j, hj, hup, hcur, hlater⟩ := skipUp_spec hfits hinv (le_refl 6)
    (by simp only [ancestor_last]; exact fun q _ hq => hq) (by decide)
  rw [ancestor_last] at hup
  have hcurj := hinv.cur j hj
  by_cases hend : j = 0 ∧ hbi.cur j = sentinel
  · right
    obtain ⟨rfl, hsent⟩ := hend
    refine ⟨fun hb' => by simp [hbitmapIterSkipWords, numLevels, hup, hsent], fun q hmem hq => ?_⟩
    -- a later word would leave a bit other than the sentinel
    have hsize := lt_size_of_ne_zero (hinv.used q hmem)
    have hone : ancestor (0 + 1) q < 63 := ancestor_one_lt hfits hsize
    have hset := hcurj.getLsbD_ancestor hj hmem
      ((ancestor_zero hfits hsize).trans (ancestor_zero hfits hinv.pos_lt).symm) (hlater q hmem hq)
    rw [hsent, sentinel, getLsbD_one_shiftLeft (by decide), decide_eq_true_eq] at hset
    omega
  · left
    have hsent : j = 0 → hbi.cur j ≠ sentinel ∧ ancestor j hbi.pos = 0 := by
      rintro rfl
      exact ⟨fun h => hend ⟨rfl, h⟩, ancestor_zero hfits hinv.pos_lt⟩
    obtain ⟨q, cur', hdown, hfound⟩ := skipDown_spec hlinked hinv.used hbi.cur hj hcur hsent hcurj
    refine ⟨{ pos := q, cur := cur' }, ?_, hfound.ne_zero, lt_of_ancestor_lt hfound.lo_le,
      fun q' hmem hq' => ?_, lt_size_of_ne_zero hfound.ne_zero, hinv.used, fun i hi => ?_⟩
    · simp [hbitmapIterSkipWords, numLevels, hup, hend, hdown, hfound.ne_zero]
    · rcases lt_or_eq_of_le (ancestor_mono j (le_of_lt hq')) with hlt | heq
      · rw [← hfound.anc] at hlt
        exact le_of_lt (lt_of_ancestor_lt hlt)
      · exact hfound.least q' hmem heq.symm (hlater q' hmem hq')
    rcases lt_or_ge i j with hlt | hge
    · -- above level `j` the path is the same
      have hanc : ∀ l ≤ j, ancestor l q = ancestor l hbi.pos := fun l hl =>
        ancestor_eq_of_le hl (by omega) hfound.anc
      show CurAt hb.levels must i q (cur' i)
      rw [hfound.same i hlt, CurAt, hanc i (by omega), hanc (i + 1) hlt]
      exact hinv.cur i hi
    · exact hfound.behind i hge hi

/-! ## Starting -/

include hfits hlinked hmust in
theorem iterInitLoop_spec (hp : p < (hb.levels 6).size) (hi : i ≤ 6) (cur : Nat → Word) :
    ∃ cur', iterInitLoop hb i (ancestor i p) cur = some cur' ∧
      (∀ j < i, CurAt hb.levels must j p (cur' j)) ∧ ∀ j, i ≤ j → cur' j = cur j := by
  induction i generalizing cur with
  | zero => exact ⟨cur, rfl, fun j hj => absurd hj (by omega), fun _ _ => rfl⟩
  | succ i ih =>
    have hlt := ancestor_lt_size hfits hp (show i ≤ 6 by omega)
    have hdiv := ancestor_div hi p
    obtain ⟨cur', hrun, hcur, hsame⟩ := ih (by omega) (update cur i
      (wordAt (hb.levels i) (ancestor i p) &&& ~~~lowMask64 (ancestor (i + 1) p % 64) &&&
        ~~~(1#64 <<< (ancestor (i + 1) p % 64))))
    have hi6 : i ≠ numLevels - 1 := by
      simp only [numLevels]
      omega
    refine ⟨cur', ?_, fun j hj => ?_, fun j hj => ?_⟩
    · simp only [iterInitLoop, hdiv, getElem?_eq_wordAt hlt, bind_eq_bind, bind_some, if_pos hi6]
      exact hrun
    · rcases Nat.lt_succ_iff_lt_or_eq.mp hj with hlt' | rfl
      · exact hcur j hlt'
      refine bitsFrom_of_iff (fun n hn => hn.isSet hlinked hmust hi) fun k hk => ?_
      have hmod := mod_lt (ancestor (j + 1) p) (show 64 > 0 by decide)
      rw [hsame j (le_refl j), update_self, getLsbD_and, getLsbD_and,
        getLsbD_not, getLsbD_not, getLsbD_lowMask64 hmod,
        getLsbD_one_shiftLeft hmod, bitAt_add hk]
      simp only [hk, decide_true, Bool.true_and, Bool.and_eq_true, Bool.not_eq_true',
        decide_eq_false_iff_not]
      rw [and_assoc]
      refine and_congr_right fun _ => ?_
      omega
    · rw [hsame j (by omega), update_of_ne (by omega)]

/-- An iterator with `w` left of its current word, that visits the bits of `due` and none
before `lo`. -/
structure Pending (levels : Nat → Array Word) (due : Finset Nat) (lo : Nat) (w : Word)
    (hbi : HBitmapIter) : Prop where
  path : IterInv levels {q | ∃ n ∈ due, n / 64 = q} hbi
  word : ∀ k < 64, w.getLsbD k = true →
    bitAt (levels 6) (64 * hbi.pos + k) = true ∧ lo ≤ 64 * hbi.pos + k
  due : ∀ n ∈ due, bitAt (levels 6) n = true ∧
    (n / 64 = hbi.pos ∧ w.getLsbD (n % 64) = true ∨ hbi.pos < n / 64)
  lo_le : lo ≤ 64 * (hbi.pos + 1)

include hfits hlinked in
theorem hbitmapIterInit_spec (first : BitVec 64) {g : Nat}
    (hg : (first >>> hb.granularity).toNat = g) (hfirst : g < hb.size.toNat)
    (hsize : hb.size.toNat ≤ 64 * (hb.levels 6).size) : ∃ hbi, hbitmapIterInit hb first = some hbi ∧
      Pending hb.levels ((bits (hb.levels 6)).filter (g ≤ ·)) g (hbi.cur 6) hbi := by
  have hp : g / 64 < (hb.levels 6).size := by omega
  have hmod := mod_lt g (show 64 > 0 by decide)
  set w := wordAt (hb.levels 6) (g / 64) &&& ~~~lowMask64 (g % 64) with hw
  have hbit {k : Nat} (hk : k < 64) :
      w.getLsbD k = true ↔ bitAt (hb.levels 6) (64 * (g / 64) + k) = true ∧ g % 64 ≤ k := by
    rw [getLsbD_and, getLsbD_not, getLsbD_lowMask64 hmod]
    simp [hk]
  have hmust : ∀ q ∈ {q | ∃ n ∈ (bits (hb.levels 6)).filter (g ≤ ·), n / 64 = q},
      wordAt (hb.levels 6) q ≠ 0#64 := by
    rintro q ⟨n, hn, rfl⟩
    exact wordAt_ne_zero_iff.mpr ⟨n, rfl, mem_bits.1 (mem_filter.1 hn).1⟩
  obtain ⟨cur, hrun, hcur, hsame⟩ := iterInitLoop_spec hfits hlinked hmust hp (le_refl 6)
    (update (fun _ => 0#64) 6 w)
  have hcur6 : cur 6 = w := by
    rw [hsame 6 (le_refl 6), update_self]
  refine ⟨⟨g / 64, cur⟩, ?_, ⟨hp, hmust, hcur⟩, fun k hk h => ?_, fun n hn => ?_,
    show g ≤ 64 * (g / 64 + 1) by omega⟩
  · rw [ancestor_last] at hrun
    have hloop : iterInitLoop hb numLevels g (fun _ => 0#64) = some cur := by
      rw [numLevels, iterInitLoop]
      simp only [getElem?_eq_wordAt hp, bind_eq_bind, bind_some]
      exact hrun
    simp only [hbitmapIterInit, hg, hfirst, if_true, hloop, map_some]
  · dsimp only at h ⊢
    rw [hcur6, hbit hk] at h
    exact ⟨h.1, by omega⟩
  obtain ⟨hset, hge⟩ := mem_filter.1 hn
  refine ⟨mem_bits.1 hset, ?_⟩
  rcases lt_or_eq_of_le (Nat.div_le_div_right (c := 64) hge) with hlt | heq
  · exact .inr hlt
  refine .inl ⟨heq.symm, ?_⟩
  dsimp only
  rw [hcur6, hbit (mod_lt n (by decide)), heq, div_add_mod]
  exact ⟨mem_bits.1 hset, by omega⟩

/-! ## Going on -/

include hfits hlinked in
/-- With nothing left of the current word, the iterator goes on to a later one. -/
theorem Pending.skip {due : Finset Nat} (h : Pending hb.levels due lo 0#64 hbi) :
    (∃ hbi', hbitmapIterSkipWords hb hbi = some (hbi', wordAt (hb.levels 6) hbi'.pos) ∧
      wordAt (hb.levels 6) hbi'.pos ≠ 0#64 ∧
      Pending hb.levels due lo (wordAt (hb.levels 6) hbi'.pos) hbi') ∨
    ((∀ hb', hbitmapIterSkipWords hb' hbi = some (hbi, 0#64)) ∧ due = ∅) := by
  have hbehind : ∀ n ∈ due, hbi.pos < n / 64 := fun n hn => (h.due n hn).2.resolve_left (by simp)
  have hlo := h.lo_le
  rcases hbitmapIterSkipWords_spec hfits hlinked h.path with
    ⟨hbi', hskip, hne, hlt, hleast, hinv⟩ | ⟨hskip, hnone⟩
  · left
    refine ⟨hbi', hskip, hne, hinv, fun k hk hbit => ⟨by rwa [bitAt_add hk], by omega⟩,
      fun n hn => ⟨(h.due n hn).1, ?_⟩, by omega⟩
    rcases lt_or_eq_of_le (hleast _ ⟨n, hn, rfl⟩ (hbehind n hn)) with hlt' | heq
    · exact .inr hlt'
    · refine .inl ⟨heq.symm, ?_⟩
      rw [heq]
      exact (h.due n hn).1
  · right
    exact ⟨hskip, eq_empty_of_forall_notMem fun n hn => hnone _ ⟨n, hn, rfl⟩ (hbehind n hn)⟩

variable {levels : Nat → Array Word}

theorem Pending.mono {due due' : Finset Nat} {w : Word}
    (h : Pending levels due lo w hbi) (hsub : due' ⊆ due) : Pending levels due' lo w hbi :=
  ⟨h.path.mono fun _ ⟨n, hn, hq⟩ => ⟨n, hsub hn, hq⟩, h.word, fun n hn => h.due n (hsub hn),
    h.lo_le⟩

/-- Word `q` of the last level, with the bits `w` from `lo` on, is the first that is left. -/
structure NextWord (levels : Nat → Array Word) (lo : Nat) (hbi' : HBitmapIter) (q : Nat)
    (w : Word) : Prop where
  lt : q < (levels 6).size
  ne_zero : w ≠ 0#64
  least : ∀ n ∈ (bits (levels 6)).filter (lo ≤ ·), q ≤ n / 64
  mem : ∀ n, n / 64 = q → (w.getLsbD (n % 64) = true ↔ n ∈ (bits (levels 6)).filter (lo ≤ ·))
  rest : Pending levels ((bits (levels 6)).filter (64 * (q + 1) ≤ ·)) (64 * (q + 1))
    (hbi'.cur 6) hbi'

theorem Pending.takeWord {w : Word}
    (h : Pending levels ((bits (levels 6)).filter (lo ≤ ·)) lo w hbi) (hw : w ≠ 0#64) :
    NextWord levels lo { hbi with cur := update hbi.cur 6 0#64 } hbi.pos w := by
  have hlo := h.lo_le
  refine ⟨h.path.pos_lt, hw, fun n hn => ?_, fun n hn => ⟨fun hbit => ?_, fun hmem => ?_⟩, ?_⟩
  · rcases (h.due n hn).2 with ⟨hpos, -⟩ | hlt <;> omega
  · have := h.word _ (mod_lt n (by decide)) hbit
    rw [← hn, div_add_mod] at this
    exact mem_filter.2 ⟨mem_bits.2 this.1, this.2⟩
  · rcases (h.due n hmem).2 with ⟨-, hbit⟩ | hlt
    · exact hbit
    · omega
  have hle : ∀ n ∈ (bits (levels 6)).filter (64 * (hbi.pos + 1) ≤ ·),
      n ∈ (bits (levels 6)).filter (lo ≤ ·) ∧ hbi.pos < n / 64 := by
    intro n hn
    obtain ⟨hset, hge⟩ := mem_filter.1 hn
    exact ⟨mem_filter.2 ⟨hset, by omega⟩, by omega⟩
  exact ⟨((h.mono fun n hn => (hle n hn).1).path).setWord _, by simp,
    fun n hn => ⟨(h.due n (hle n hn).1).1, .inr (hle n hn).2⟩, le_refl _⟩

include hfits hlinked in
/-- `hbitmap_iter_next_word` takes the first word out of what is left. -/
theorem hbitmapIterNextWord_spec
    (h : Pending hb.levels ((bits (hb.levels 6)).filter (lo ≤ ·)) lo (hbi.cur 6) hbi) :
    (hbitmapIterNextWord hb hbi = some (hbi, none, 0#64) ∧
      (bits (hb.levels 6)).filter (lo ≤ ·) = ∅) ∨
    ∃ hbi' q w, hbitmapIterNextWord hb hbi = some (hbi', some q, w) ∧
      NextWord hb.levels lo hbi' q w := by
  by_cases hcur : hbi.cur 6 = 0#64
  · rw [hcur] at h
    rcases h.skip hfits hlinked with ⟨hbi', hskip, hne, h'⟩ | ⟨hskip, hempty⟩
    · exact .inr ⟨_, _, _, by simp [hbitmapIterNextWord, numLevels, hcur, hskip, hne],
        h'.takeWord hne⟩
    · exact .inl ⟨by simp [hbitmapIterNextWord, numLevels, hcur, hskip], hempty⟩
  · exact .inr ⟨_, _, _, by simp [hbitmapIterNextWord, numLevels, hcur], h.takeWord hcur⟩

/-! ## Counting -/

/-- The bits of a word, at their place in the array. -/
theorem ctpopl_eq_card_add (w : Word) (q : Nat) {s : Finset Nat}
    (h : ∀ n, n ∈ s ↔ n / 64 = q ∧ w.getLsbD (n % 64) = true) : ctpopl w = s.card := by
  have hs : s = ((range 64).filter fun k => w.getLsbD k = true).image (64 * q + ·) := by
    ext n
    simp only [h, mem_image, mem_filter, mem_range]
    constructor
    · rintro ⟨rfl, hbit⟩
      exact ⟨n % 64, ⟨mod_lt _ (by decide), hbit⟩, div_add_mod n 64⟩
    · rintro ⟨k, ⟨hk, hbit⟩, rfl⟩
      exact ⟨by omega, by rwa [show (64 * q + k) % 64 = k by omega]⟩
  rw [ctpopl_eq_card, hs, Finset.card_image_of_injective _ (add_right_injective _)]

include hfits hlinked in
theorem countLoop_spec (endBit count : Nat) {fuel : Nat}
    (h : Pending hb.levels ((bits (hb.levels 6)).filter (lo ≤ ·)) lo (hbi.cur 6) hbi)
    (hfuel : (hb.levels 6).size - lo / 64 < fuel) : countLoop hb endBit fuel hbi count =
      some (count + (((bits (hb.levels 6)).filter (lo ≤ ·)).filter (· < endBit)).card) := by
  induction fuel generalizing hbi lo count with
  | zero => omega
  | succ fuel ih =>
    rcases hbitmapIterNextWord_spec hfits hlinked h with ⟨hnext, hempty⟩ | ⟨hbi', q, w, hnext, hq⟩
    · simp [countLoop, hnext, hempty]
    set due := (bits (hb.levels 6)).filter (lo ≤ ·) with hdue
    have hlast : ∀ n, n ∈ due → n / 64 ≤ q → n / 64 = q := fun n hn hle =>
      le_antisymm hle (hq.least n hn)
    have hloq : lo / 64 ≤ q := by
      obtain ⟨k, hk, hbit⟩ := word_ne_zero_iff.mp hq.ne_zero
      have := (hq.mem (64 * q + k) (by omega)).1 (by rwa [show (64 * q + k) % 64 = k by omega])
      have := (mem_filter.1 this).2
      omega
    have hlt := hq.lt
    simp only [countLoop, hnext, bind_eq_bind, bind_some]
    rcases lt_trichotomy q (endBit / 64) with hlt | rfl | hgt
    · have hword :
          ctpopl w = ((due.filter (· < endBit)).filter fun n => ¬64 * (q + 1) ≤ n).card := by
        refine ctpopl_eq_card_add w q fun n => ?_
        simp only [mem_filter]
        constructor
        · rintro ⟨⟨hn, -⟩, hle⟩
          have hq' := hlast n hn (by omega)
          exact ⟨hq', (hq.mem n hq').mpr hn⟩
        · rintro ⟨hq', hbit⟩
          exact ⟨⟨(hq.mem n hq').mp hbit, by omega⟩, by omega⟩
      have hrest : (bits (hb.levels 6)).filter (64 * (q + 1) ≤ ·) =
          due.filter (64 * (q + 1) ≤ ·) := by
        rw [Finset.filter_filter]
        exact filter_congr fun n _ => by omega
      rw [if_pos hlt, ih (count + ctpopl w) hq.rest (by omega), hrest, filter_comm, hword,
        add_assoc]
      congr 2
      rw [add_comm, card_filter_add_card_filter_not]
    · rw [if_neg (lt_irrefl _), if_pos rfl]
      congr 2
      refine ctpopl_eq_card_add _ (endBit / 64) fun n => ?_
      have hmod := mod_lt endBit (show 64 > 0 by decide)
      rw [getLsbD_and, getLsbD_lowMask64 hmod, mem_filter, Bool.and_eq_true,
        decide_eq_true_eq]
      constructor
      · rintro ⟨hn, hlt⟩
        have hq' := hlast n hn (by omega)
        exact ⟨hq', (hq.mem n hq').mpr hn, by omega⟩
      · rintro ⟨hq', hbit, hlt⟩
        exact ⟨(hq.mem n hq').mp hbit, by omega⟩
    · have hnone : due.filter (· < endBit) = ∅ := by
        refine filter_eq_empty_iff.mpr fun n hn => ?_
        have := hq.least n hn
        omega
      rw [if_neg (by omega), if_neg (by omega), hnone, card_empty, add_zero]

include hfits hlinked in
theorem hbCountBetween_spec {start last : BitVec 64}
    (hshift : (start <<< hb.granularity) >>> hb.granularity = start)
    (hle : start.toNat ≤ last.toNat) (hlast : last.toNat < hb.size.toNat)
    (hsize : hb.size.toNat ≤ 64 * (hb.levels 6).size) :
    hbCountBetween hb start last = some (BitVec.ofNat 64
      ((bits (hb.levels 6)).filter fun n => start.toNat ≤ n ∧ n ≤ last.toNat).card) := by
  obtain ⟨hbi, hinit, h⟩ := hbitmapIterInit_spec hfits hlinked (start <<< hb.granularity)
    (congrArg BitVec.toNat hshift) (by omega) hsize
  have hcount := countLoop_spec hfits hlinked (last.toNat + 1) 0 h
    (show _ < (hb.levels 6).size + 1 by omega)
  simp only [hbCountBetween, hinit, numLevels, bind_eq_bind, bind_some, Option.pure_def, hcount]
  rw [Finset.filter_filter, zero_add]
  simp only [Nat.lt_succ_iff]

end Skip

end QemuAndroid.Hbitmap
