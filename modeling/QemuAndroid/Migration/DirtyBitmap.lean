import Mathlib.Algebra.BigOperators.Intervals
import QemuAndroid.Lib.Machine
import QemuAndroid.Util.Bitmap

/-!
# The migration bitmap

`migration_bitmap` has one bit for each target page of the RAM address space, gaps between the
RAM blocks included, and `migration_dirty_pages` counts the pages that are left to send.  The
bits come from `ram_list.dirty_memory[DIRTY_MEMORY_MIGRATION]`, where every write to RAM leaves
a mark, in `migration_bitmap_sync`; `migration_bitmap_find_and_reset_dirty` takes them away page
by page, and `migration_bitmap_extend` makes room for new blocks.

Addresses and lengths are in target pages: those of RAM blocks are multiples of the page size.
-/

namespace QemuAndroid.Migration

open Lib Util Function Finset

/-! ## RAM blocks -/

/-- A `RAMBlock`, in pages.  The host memory of all blocks fits the address space of one process,
so the `int` word index of the sync loop does not overflow. -/
structure RamBlock where
  offset : Nat
  usedLength : Nat
  maxLength : Nat
  maxLength_pos : 0 < maxLength
  usedLength_le : usedLength ≤ maxLength
  fits : offset + maxLength ≤ 2 ^ 36
deriving DecidableEq

def RamBlock.Holds (b : RamBlock) (n : Nat) : Prop := b.offset ≤ n ∧ n < b.offset + b.usedLength
deriving Decidable

def InBlocks (blocks : List RamBlock) (n : Nat) : Prop := ∃ b ∈ blocks, b.Holds n
deriving Decidable

/-- Two blocks that share no address. -/
def RamBlock.Apart (b c : RamBlock) : Prop :=
  b.offset + b.maxLength ≤ c.offset ∨ c.offset + c.maxLength ≤ b.offset
deriving Decidable

def lastRamOffset (blocks : List RamBlock) : Nat :=
  blocks.foldr (fun b last => max last (b.offset + b.maxLength)) 0

/-- `ram_bytes_total`, in pages. -/
def ramBytesTotal (blocks : List RamBlock) : Nat :=
  (blocks.map RamBlock.usedLength).sum

/-- Where `ram_block_add` puts a block into `ram_list.blocks`, which is sorted from the biggest to
the smallest. -/
def insertBlock (new : RamBlock) : List RamBlock → List RamBlock
  | [] => [new]
  | b :: blocks =>
    if b.maxLength < new.maxLength then new :: b :: blocks else b :: insertBlock new blocks

/-! ## Taking over the dirty pages -/

/-- The word-wise loop of `cpu_physical_memory_sync_dirty_bitmap`, from word `k` on. -/
def syncWords : Nat → Nat → Bitmap → Bitmap → Nat → Bitmap × Bitmap × Nat
  | 0, _, dest, src, numDirty => (dest, src, numDirty)
  | nr + 1, k, dest, src, numDirty =>
    if src k ≠ 0#64 then
      syncWords nr (k + 1) (orWord dest k (src k)) (update src k 0#64)
        (numDirty + ctpopl (~~~dest k &&& src k))
    else syncWords nr (k + 1) dest src numDirty

/-- `cpu_physical_memory_test_and_clear_dirty`. -/
def testAndClearDirty (src : Bitmap) (start length : Nat) : Bitmap × Bool :=
  if length = 0 then (src, false) else bitmapTestAndClearAtomic src start length

/-- The page-wise loop of `cpu_physical_memory_sync_dirty_bitmap`, from page `k` on. -/
def syncPages : Nat → Nat → Bitmap → Bitmap → Nat → Bitmap × Bitmap × Nat
  | 0, _, dest, src, numDirty => (dest, src, numDirty)
  | nr + 1, k, dest, src, numDirty =>
    let (src, dirty) := testAndClearDirty src k 1
    if dirty then
      let (dest, was) := testAndSetBit k dest
      syncPages nr (k + 1) dest src (if was then numDirty else numDirty + 1)
    else syncPages nr (k + 1) dest src numDirty

/-- `cpu_physical_memory_sync_dirty_bitmap`: the two bitmaps after it, and what it returns. -/
def syncDirtyBitmap (dest src : Bitmap) (start length : Nat) : Bitmap × Bitmap × Nat :=
  if start / 64 * 64 = start then syncWords (bitsToLongs length) (start / 64) dest src 0
  else syncPages length start dest src 0

/-- What taking over the pages from `lo` up to `hi` does: `dest` gets those that are marked in
`src`, which loses the marks, and `num` grows by the number of those that `dest` did not have. -/
structure Synced (dest src : Bitmap) (num lo hi : Nat) (r : Bitmap × Bitmap × Nat) : Prop where
  destBits : ∀ n, testBit r.1 n = (testBit dest n || (decide (lo ≤ n ∧ n < hi) && testBit src n))
  srcBits : ∀ n, testBit r.2.1 n = (testBit src n && !decide (lo ≤ n ∧ n < hi))
  count : r.2.2 = num +
    ((Finset.Ico lo hi).filter fun n => testBit src n = true ∧ testBit dest n = false).card

namespace Synced

variable {dest src : Bitmap} {num lo mid hi : Nat} {r : Bitmap × Bitmap × Nat}

theorem refl (dest src : Bitmap) (num lo : Nat) : Synced dest src num lo lo (dest, src, num) := by
  refine ⟨fun n => ?_, fun n => ?_, ?_⟩
  · rw [decide_eq_false (by omega), Bool.false_and, Bool.or_false]
  · rw [decide_eq_false (by omega), Bool.not_false, Bool.and_true]
  · rw [Ico_self, filter_empty, card_empty, add_zero]

theorem trans (h : Synced dest src num lo mid r) {r' : Bitmap × Bitmap × Nat}
    (h' : Synced r.1 r.2.1 r.2.2 mid hi r') (hlo : lo ≤ mid) (hhi : mid ≤ hi) :
    Synced dest src num lo hi r' := by
  have hsrc {n : Nat} (hn : mid ≤ n) : testBit r.2.1 n = testBit src n := by
    rw [h.srcBits, decide_eq_false (by omega), Bool.not_false, Bool.and_true]
  have hdest {n : Nat} (hn : mid ≤ n) : testBit r.1 n = testBit dest n := by
    rw [h.destBits, decide_eq_false (by omega), Bool.false_and, Bool.or_false]
  refine ⟨fun n => ?_, fun n => ?_, ?_⟩
  · rw [h'.destBits, h.destBits, Bool.or_assoc]
    congr 1
    rcases lt_or_ge n mid with hn | hn
    · rw [decide_eq_false (show ¬(mid ≤ n ∧ n < hi) by omega), Bool.false_and, Bool.or_false]
      congr 2
      rw [eq_iff_iff]
      omega
    rw [decide_eq_false (show ¬(lo ≤ n ∧ n < mid) by omega), Bool.false_and, Bool.false_or, hsrc hn]
    congr 2
    rw [eq_iff_iff]
    omega
  · rw [h'.srcBits, h.srcBits, Bool.and_assoc, ← Bool.not_or]
    congr 2
    rw [Bool.eq_iff_iff]
    simp only [Bool.or_eq_true, decide_eq_true_eq]
    omega
  · rw [h'.count, h.count, add_assoc]
    congr 1
    simp only [card_filter]
    rw [← sum_Ico_consecutive _ hlo hhi]
    congr 1
    refine sum_congr rfl fun n hn => ?_
    rw [hsrc (mem_Ico.1 hn).1, hdest (mem_Ico.1 hn).1]

/-- The pages at the end do not matter when none of them is marked. -/
theorem of_clear {hi' : Nat} (h : Synced dest src num lo hi' r) (hle : hi ≤ hi')
    (hclear : ∀ n, hi ≤ n → n < hi' → testBit src n = false) : Synced dest src num lo hi r := by
  have hbit (n : Nat) (hn : testBit src n = true) : (lo ≤ n ∧ n < hi') ↔ (lo ≤ n ∧ n < hi) := by
    have hnot : ¬(hi ≤ n ∧ n < hi') := by
      rintro ⟨hge, hlt⟩
      rw [hclear n hge hlt] at hn
      cases hn
    omega
  refine ⟨fun n => ?_, fun n => ?_, ?_⟩
  · rw [h.destBits]
    cases hn : testBit src n with
    | false => simp
    | true => simp only [hbit n hn]
  · rw [h.srcBits]
    cases hn : testBit src n with
    | false => simp
    | true => simp only [hbit n hn]
  rw [h.count]
  congr 2
  ext n
  simp only [mem_filter, mem_Ico]
  exact and_congr_left fun hn => hbit n hn.1

theorem word (dest src : Bitmap) (num k : Nat) :
    Synced dest src num (64 * k) (64 * (k + 1)) (orWord dest k (src k), update src k 0#64,
      num + ctpopl (~~~dest k &&& src k)) := by
  have hword (n : Nat) : (64 * k ≤ n ∧ n < 64 * (k + 1)) ↔ n / 64 = k := by omega
  refine ⟨fun n => ?_, fun n => ?_, ?_⟩
  · simp only [hword]
    rw [testBit_orWord]
    rcases eq_or_ne (n / 64) k with rfl | hne
    · rfl
    · rw [decide_eq_false hne, Bool.false_and, Bool.false_and]
  · simp only [hword]
    unfold testBit
    rcases eq_or_ne (n / 64) k with rfl | hne
    · rw [update_self, decide_eq_true rfl, Bool.not_true, Bool.and_false, BitVec.getLsbD_zero]
    · rw [update_of_ne hne, decide_eq_false hne, Bool.not_false, Bool.and_true]
  refine congrArg (num + ·) ?_
  rw [ctpopl_eq_card, card_filter, card_filter, sum_Ico_eq_sum_range,
    show 64 * (k + 1) - 64 * k = 64 by omega]
  refine sum_congr rfl fun i hi => ?_
  have hi := mem_range.1 hi
  have hnew : (~~~dest k &&& src k).getLsbD i = true ↔
      testBit src (64 * k + i) = true ∧ testBit dest (64 * k + i) = false := by
    rw [testBit_word _ _ hi, testBit_word _ _ hi, BitVec.getLsbD_and, BitVec.getLsbD_not,
      decide_eq_true hi, Bool.true_and, Bool.and_eq_true, Bool.not_eq_true', and_comm]
  simp only [hnew]

theorem clean (hclean : testBit src lo = false) (num : Nat) :
    Synced dest src num lo (lo + 1) (dest, (testAndClearDirty src lo 1).1, num) := by
  have hpage (n : Nat) : (lo ≤ n ∧ n < lo + 1) ↔ n = lo := by omega
  obtain ⟨hbits, -⟩ := bitmapTestAndClearAtomic_spec src lo 1
  refine ⟨fun n => ?_, hbits, ?_⟩
  · simp only [hpage]
    rcases eq_or_ne n lo with rfl | hne
    · rw [hclean, Bool.and_false, Bool.or_false]
    · rw [decide_eq_false hne, Bool.false_and, Bool.or_false]
  · rw [Nat.Ico_succ_singleton, filter_singleton, if_neg (by simp [hclean]),
      card_empty, add_zero]

theorem dirty (hdirty : testBit src lo = true) (num : Nat) :
    Synced dest src num lo (lo + 1) ((testAndSetBit lo dest).1, (testAndClearDirty src lo 1).1,
      if (testAndSetBit lo dest).2 then num else num + 1) := by
  have hpage (n : Nat) : (lo ≤ n ∧ n < lo + 1) ↔ n = lo := by omega
  obtain ⟨hbits, -⟩ := bitmapTestAndClearAtomic_spec src lo 1
  refine ⟨fun n => ?_, hbits, ?_⟩
  · simp only [hpage, testAndSetBit, testBit_setBit]
    rcases eq_or_ne n lo with rfl | hne
    · rw [hdirty, Bool.and_true]
    · rw [decide_eq_false hne, Bool.false_and]
  rw [Nat.Ico_succ_singleton, filter_singleton, testAndSetBit_snd]
  cases testBit dest lo with
  | false => simp [hdirty]
  | true => simp

end Synced

theorem syncWords_spec (nr k : Nat) (dest src : Bitmap) (num : Nat) :
    Synced dest src num (64 * k) (64 * (k + nr)) (syncWords nr k dest src num) := by
  induction nr generalizing k dest src num with
  | zero => exact .refl _ _ _ _
  | succ nr ih =>
    have hend : k + (nr + 1) = k + 1 + nr := by omega
    rw [syncWords, hend]
    have hword := Synced.word dest src num k
    split
    · exact hword.trans (ih _ _ _ _) (by omega) (by omega)
    · next hzero =>
      -- a word that is zero is left as it is
      have h0 : src k = 0#64 := not_not.1 hzero
      have hctpopl : ctpopl 0#64 = 0 := by decide
      rw [orWord, h0, BitVec.or_zero, BitVec.and_zero, hctpopl, ← h0, update_eq_self,
        update_eq_self] at hword
      exact hword.trans (ih _ _ _ _) (by omega) (by omega)

theorem syncPages_spec (nr k : Nat) (dest src : Bitmap) (num : Nat) :
    Synced dest src num k (k + nr) (syncPages nr k dest src num) := by
  induction nr generalizing k dest src num with
  | zero => exact .refl _ _ _ _
  | succ nr ih =>
    have hend : k + (nr + 1) = k + 1 + nr := by omega
    obtain ⟨-, hdirty⟩ := bitmapTestAndClearAtomic_spec src k 1
    have hdirty : (testAndClearDirty src k 1).2 = true ↔ testBit src k = true := by
      rw [testAndClearDirty, if_neg (by decide), hdirty]
      constructor
      · rintro ⟨n, hn, hset⟩
        rwa [show k = n by omega]
      · intro hset
        exact ⟨k, by omega, hset⟩
    rw [syncPages, hend]
    dsimp only
    split
    · next hset =>
      exact (Synced.dirty (hdirty.1 hset) num).trans (ih _ _ _ _) (by omega) (by omega)
    · next hclear =>
      have hclean : testBit src k = false := by rw [← Bool.not_eq_true, ← hdirty]; exact hclear
      exact (Synced.clean hclean num).trans (ih _ _ _ _) (by omega) (by omega)

/-- The end of the pages that the sync of a range reads: word by word, it reads the whole of the
last word. -/
def syncEnd (start length : Nat) : Nat :=
  if start / 64 * 64 = start then start + 64 * bitsToLongs length else start + length

theorem le_syncEnd (start length : Nat) : start + length ≤ syncEnd start length := by
  unfold syncEnd bitsToLongs
  split <;> omega

/-- `cpu_physical_memory_sync_dirty_bitmap` takes over the pages up to `syncEnd`. -/
theorem syncDirtyBitmap_spec (dest src : Bitmap) (start length : Nat) :
    Synced dest src 0 start (syncEnd start length) (syncDirtyBitmap dest src start length) := by
  rw [syncDirtyBitmap, syncEnd]
  split
  · next haligned =>
    have h := syncWords_spec (bitsToLongs length) (start / 64) dest src 0
    rwa [mul_add, mul_comm 64 (start / 64), haligned] at h
  · exact syncPages_spec length start dest src 0

/-- `cpu_physical_memory_sync_dirty_bitmap` with the `int` index of its word-wise loop: `none`
where the index does not fit. -/
def syncDirtyBitmapInt (dest src : Bitmap) (start length : Nat) : Option (Bitmap × Bitmap × Nat) :=
  if start / 64 * 64 = start ∧ 2 ^ 31 ≤ start / 64 + bitsToLongs length then none
  else some (syncDirtyBitmap dest src start length)

/-- The page-wise loop takes over the pages of the range for every range, and the function as a
whole if and only if no page past the end is marked in the last word that the word-wise loop
reads. -/
theorem syncDirtyBitmap_exact_iff (dest src : Bitmap) (start length : Nat) :
    Synced dest src 0 start (start + length) (syncPages length start dest src 0) ∧
      ((∃ r, syncDirtyBitmapInt dest src start length = some r ∧
          Synced dest src 0 start (start + length) r) ↔
        (start / 64 * 64 = start → start / 64 + bitsToLongs length < 2 ^ 31) ∧
          ∀ n, start + length ≤ n → n < syncEnd start length → testBit src n = false) := by
  have hspec := syncDirtyBitmap_spec dest src start length
  refine ⟨syncPages_spec length start dest src 0, ?_⟩
  unfold syncDirtyBitmapInt
  constructor
  · rintro ⟨r, hr, h⟩
    split at hr
    · cases hr
    · next hint =>
      obtain rfl := Option.some.inj hr
      refine ⟨fun haligned => Nat.lt_of_not_le fun hle => hint ⟨haligned, hle⟩, fun n hle hlt => ?_⟩
      -- the two descriptions disagree on what is left of the mark
      have hkept := h.srcBits n
      rw [hspec.srcBits n, decide_eq_true (by omega), decide_eq_false (by omega)] at hkept
      simpa using hkept.symm
  · rintro ⟨hint, hclear⟩
    refine ⟨_, if_neg fun h => not_le.2 (hint h.1) h.2, ?_⟩
    exact hspec.of_clear (le_syncEnd start length) hclear

/-- A range of one page at the start of a word: the page after it is taken over as well. -/
theorem syncDirtyBitmap_past_end : ∃ dest src r, syncDirtyBitmapInt dest src 0 1 = some r ∧
    testBit src 1 = true ∧ testBit dest 1 = false ∧
      testBit r.1 1 = true ∧ testBit r.2.1 1 = false ∧ r.2.2 = 1 ∧ ¬ Synced dest src 0 0 1 r := by
  refine ⟨bitmapNew, setBit 1 bitmapNew, _, rfl, by decide, by decide, by decide, by decide,
    by decide, fun h => ?_⟩
  exact absurd (h.destBits 1) (by decide)

/-! ## The counter -/

structure DirtyState where
  blocks : List RamBlock
  /-- `ram_list.dirty_memory[DIRTY_MEMORY_MIGRATION]` -/
  dirtyMemory : Bitmap
  bitmap : Option Bitmap
  /-- `migration_dirty_pages`, a `uint64_t` -/
  dirtyPages : Nat
  bulkStage : Bool
  /-- `ram_list.version`, which counts the changes of the list -/
  version : UInt32
  lastVersion : UInt32

/-- The `next` of `migration_bitmap_find_and_reset_dirty`. -/
def nextPage (bulkStage : Bool) (bitmap : Bitmap) (b : RamBlock) (start : Nat) : Nat :=
  let base := b.offset
  let nr := base + start
  let size := base + b.usedLength
  if bulkStage && base < nr then nr + 1 else findNextBit bitmap size nr

/-- `migration_bitmap_find_and_reset_dirty`: the bitmap, the counter and the page it returns. -/
def findAndResetDirty (bulkStage : Bool) (bitmap : Bitmap) (dirtyPages : Nat) (b : RamBlock)
    (start : Nat) : Bitmap × Nat × Nat :=
  let base := b.offset
  let size := base + b.usedLength
  let next := nextPage bulkStage bitmap b start
  if next < size then (clearBit next bitmap, (dirtyPages + (2 ^ 64 - 1)) % 2 ^ 64, next - base)
  else (bitmap, dirtyPages, next - base)

/-- The loop of `migration_bitmap_sync` over the blocks, `migration_bitmap_sync_range` each. -/
def syncBlocks : List RamBlock → Bitmap → Bitmap → Nat → Bitmap × Bitmap × Nat
  | [], bitmap, dirtyMemory, dirtyPages => (bitmap, dirtyMemory, dirtyPages)
  | b :: blocks, bitmap, dirtyMemory, dirtyPages =>
    let (bitmap, dirtyMemory, numDirty) := syncDirtyBitmap bitmap dirtyMemory b.offset b.usedLength
    syncBlocks blocks bitmap dirtyMemory ((dirtyPages + numDirty) % 2 ^ 64)

namespace DirtyState

def bitmapSync (s : DirtyState) : Option DirtyState :=
  s.bitmap.map fun bitmap =>
    let (bitmap, dirtyMemory, dirtyPages) := syncBlocks s.blocks bitmap s.dirtyMemory s.dirtyPages
    { s with bitmap := some bitmap, dirtyMemory, dirtyPages }

/-- `reset_ram_globals`, as far as the bitmap goes. -/
def resetRamGlobals (s : DirtyState) : DirtyState :=
  { s with bulkStage := true, lastVersion := s.version }

/-- The bitmap of `ram_save_setup`, before the first sync. -/
def newBitmap (s : DirtyState) : DirtyState :=
  { s.resetRamGlobals with
    bitmap := some (bitmapSet bitmapNew 0 (lastRamOffset s.blocks))
    dirtyPages := ramBytesTotal s.blocks }

def bitmapExtend (s : DirtyState) (old new : Nat) : DirtyState :=
  match s.bitmap with
  | none => s
  | some bitmap =>
    { s with
      bitmap := some (bitmapSet (bitmapCopy bitmapNew bitmap old) old (new - old))
      dirtyPages := (s.dirtyPages + (new - old)) % 2 ^ 64 }

/-- `ram_block_add`, once the place of the block is known. -/
def blockAdd (s : DirtyState) (new : RamBlock) (fresh : Bitmap) : DirtyState :=
  let oldRamSize := lastRamOffset s.blocks
  let newRamSize := max oldRamSize (new.offset + new.maxLength)
  let s := if oldRamSize < newRamSize then s.bitmapExtend oldRamSize newRamSize else s
  let s := { s with blocks := insertBlock new s.blocks, version := s.version + 1 }
  let newRamSize := lastRamOffset s.blocks
  let dirtyMemory :=
    if oldRamSize < newRamSize then bitmapZeroExtend s.dirtyMemory fresh oldRamSize newRamSize
    else s.dirtyMemory
  { s with dirtyMemory := bitmapSetAtomic dirtyMemory new.offset new.usedLength }

end DirtyState

/-- What happens to RAM and the migration bitmap. -/
inductive DirtyEvent
  | setup
  | sync
  /-- `migration_bitmap_find_and_reset_dirty` on a block, from an offset in it -/
  | findAndReset (b : RamBlock) (start : Nat)
  /-- `cpu_physical_memory_set_dirty_range` on pages of a block -/
  | setDirty (b : RamBlock) (start length : Nat)
  /-- `ram_block_add`; `fresh` is what reallocated memory holds -/
  | blockAdd (new : RamBlock) (fresh : Bitmap)
  | blockFree (b : RamBlock)
  /-- `reset_ram_globals`, after the RAM list has changed -/
  | reset
  /-- the end of a round over all blocks, which ends the bulk stage -/
  | roundEnd
  | migrationEnd

def dirtyStep (s : DirtyState) : DirtyEvent → Option DirtyState
  | .setup => s.newBitmap.bitmapSync
  | .sync => s.bitmapSync
  | .findAndReset b start =>
    s.bitmap.bind fun bitmap =>
      if b ∈ s.blocks then
        let (bitmap, dirtyPages, _) := findAndResetDirty s.bulkStage bitmap s.dirtyPages b start
        some { s with bitmap := some bitmap, dirtyPages }
      else none
  | .setDirty b start length =>
    if b ∈ s.blocks ∧ start + length ≤ b.usedLength then
      some { s with dirtyMemory := bitmapSetAtomic s.dirtyMemory (b.offset + start) length }
    else none
  | .blockAdd new fresh =>
    if ∀ b ∈ s.blocks, b.Apart new then some (s.blockAdd new fresh) else none
  | .blockFree b =>
    if b ∈ s.blocks then some { s with blocks := s.blocks.erase b, version := s.version + 1 }
    else none
  | .reset => if s.version ≠ s.lastVersion then some s.resetRamGlobals else none
  | .roundEnd => some { s with bulkStage := false }
  | .migrationEnd => some { s with bitmap := none }

/-- RAM, from before its first migration on. -/
def dirtyMachine : Machine DirtyState DirtyEvent where
  init s := s.blocks.Pairwise RamBlock.Apart ∧ s.bitmap = none
  step := dirtyStep
end QemuAndroid.Migration
