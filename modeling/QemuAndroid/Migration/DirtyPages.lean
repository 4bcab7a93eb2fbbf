import QemuAndroid.Migration.DirtyBitmap

/-!
# The dirty counter

`migration_dirty_pages` is meant to be the number of pages of RAM blocks that the migration
bitmap marks.  Every operation on the bitmap adjusts it by a rule of its own: the syncs by the
number of bits they set, the search by one for each bit it clears, and the extension of the bitmap
by its size.  `DirtyState.Counted` says when the rule of a step is right, and the counter is exact
in every run whose steps are all of that kind.
-/

namespace QemuAndroid.Migration

open Lib Util List Finset Nat Option

variable {blocks : List RamBlock} {b new : RamBlock} {bitmap src : Bitmap} {n dirtyPages : Nat}

/-! ## The pages of the blocks -/

def blockPages (blocks : List RamBlock) : Finset Nat :=
  (Finset.range (lastRamOffset blocks)).filter (InBlocks blocks)

/-- The number of pages of the blocks that a bitmap marks. -/
def dirtyCount (blocks : List RamBlock) (bitmap : Bitmap) : Nat :=
  ((blockPages blocks).filter fun n => testBit bitmap n = true).card

theorem RamBlock.le_lastRamOffset (h : b ∈ blocks) :
    b.offset + b.maxLength ≤ lastRamOffset blocks := by
  induction blocks with
  | nil => cases h
  | cons c blocks ih =>
    rcases mem_cons.1 h with rfl | h
    · exact le_max_right _ _
    · exact (ih h).trans (le_max_left _ _)

theorem lastRamOffset_le (blocks : List RamBlock) : lastRamOffset blocks ≤ 2 ^ 36 := by
  induction blocks with
  | nil => exact zero_le _
  | cons c blocks ih => exact Nat.max_le.2 ⟨ih, c.fits⟩

theorem InBlocks.lt (h : InBlocks blocks n) : n < lastRamOffset blocks := by
  obtain ⟨b, hb, hn⟩ := h
  have hlast := RamBlock.le_lastRamOffset hb
  have hused := b.usedLength_le
  have hlt := hn.2
  omega

@[simp] theorem mem_blockPages : n ∈ blockPages blocks ↔ InBlocks blocks n := by
  rw [blockPages, Finset.mem_filter, Finset.mem_range, and_iff_right_iff_imp]
  exact InBlocks.lt

theorem dirtyCount_le (blocks : List RamBlock) (bitmap : Bitmap) :
    dirtyCount blocks bitmap ≤ 2 ^ 36 := by
  calc dirtyCount blocks bitmap ≤ (Finset.range (lastRamOffset blocks)).card :=
        card_le_card ((Finset.filter_subset _ _).trans (Finset.filter_subset _ _))
    _ = lastRamOffset blocks := card_range _
    _ ≤ 2 ^ 36 := lastRamOffset_le blocks

theorem inBlocks_cons : InBlocks (b :: blocks) n ↔ b.Holds n ∨ InBlocks blocks n :=
  exists_mem_cons_iff _ _ _

theorem RamBlock.Apart.symm (h : b.Apart new) : new.Apart b := Or.symm h

theorem RamBlock.Apart.not_holds {c : RamBlock} (h : b.Apart c) (hn : b.Holds n) : ¬c.Holds n := by
  rintro ⟨hle, hlt⟩
  obtain ⟨hle', hlt'⟩ := hn
  have hb := b.usedLength_le
  have hc := c.usedLength_le
  rcases h with h | h
  · omega
  · omega

/-- The blocks have as many pages as `ram_bytes_total` says. -/
theorem card_blockPages (h : blocks.Pairwise RamBlock.Apart) :
    (blockPages blocks).card = ramBytesTotal blocks := by
  induction blocks with
  | nil => rfl
  | cons b blocks ih =>
    obtain ⟨hb, hrest⟩ := pairwise_cons.1 h
    have hpages : blockPages (b :: blocks) =
        Finset.Ico b.offset (b.offset + b.usedLength) ∪ blockPages blocks := by
      ext n
      rw [mem_blockPages, inBlocks_cons, mem_union, mem_Ico, mem_blockPages]
      exact Iff.rfl
    have hdisjoint : Disjoint (Finset.Ico b.offset (b.offset + b.usedLength))
        (blockPages blocks) := by
      rw [Finset.disjoint_left]
      intro n hn hmem
      obtain ⟨c, hc, hcn⟩ := mem_blockPages.1 hmem
      exact (hb c hc).not_holds (mem_Ico.1 hn) hcn
    rw [hpages, card_union_of_disjoint hdisjoint, ih hrest, card_Ico, Nat.add_sub_cancel_left]
    rfl

theorem insertBlock_perm (new : RamBlock) (blocks : List RamBlock) :
    (insertBlock new blocks).Perm (new :: blocks) := by
  fun_induction insertBlock new blocks with
  | case3 b blocks _ ih => exact (ih.cons b).trans (.swap new b blocks)
  | _ => exact .refl _

theorem inBlocks_insertBlock :
    InBlocks (insertBlock new blocks) n ↔ new.Holds n ∨ InBlocks blocks n := by
  rw [← inBlocks_cons]
  exact exists_congr fun c => and_congr_left' (insertBlock_perm new blocks).mem_iff

/-! ## One step of each kind -/

/-- A range that is taken over adds as many pages to the count as it reports, when the pages it
marks anew are pages of blocks. -/
theorem dirtyCount_synced {num lo hi : Nat} {r : Bitmap × Bitmap × Nat}
    (h : Synced bitmap src num lo hi r)
    (hin : ∀ n, lo ≤ n → n < hi → testBit src n = true → testBit bitmap n = false →
      InBlocks blocks n) : num + dirtyCount blocks r.1 = r.2.2 + dirtyCount blocks bitmap := by
  have hunion : ((blockPages blocks).filter fun n => testBit r.1 n = true) =
      ((blockPages blocks).filter fun n => testBit bitmap n = true) ∪
        ((Finset.Ico lo hi).filter fun n => testBit src n = true ∧ testBit bitmap n = false) := by
    ext n
    simp only [mem_union, Finset.mem_filter, mem_blockPages, mem_Ico, h.destBits,
      Bool.or_eq_true, Bool.and_eq_true, decide_eq_true_eq]
    constructor
    · rintro ⟨hn, hset | ⟨hrange, hsrc⟩⟩
      · exact .inl ⟨hn, hset⟩
      · cases hset : testBit bitmap n with
        | true => exact .inl ⟨hn, rfl⟩
        | false => exact .inr ⟨hrange, hsrc, rfl⟩
    · rintro (⟨hn, hset⟩ | ⟨hrange, hsrc, hclear⟩)
      · exact ⟨hn, .inl hset⟩
      · exact ⟨hin n hrange.1 hrange.2 hsrc hclear, .inr ⟨hrange, hsrc⟩⟩
  have hdisjoint : Disjoint ((blockPages blocks).filter fun n => testBit bitmap n = true)
      ((Finset.Ico lo hi).filter fun n => testBit src n = true ∧ testBit bitmap n = false) := by
    rw [Finset.disjoint_left]
    intro n hn hn'
    have hset := (Finset.mem_filter.1 hn).2
    have hclear := (Finset.mem_filter.1 hn').2.2
    rw [hset] at hclear
    cases hclear
  rw [dirtyCount, hunion, card_union_of_disjoint hdisjoint, h.count, dirtyCount]
  omega

/-- Whatever the sync of the blocks reads past the end of a block is a page of a block, or not
marked, or already in the bitmap. -/
def TailCounted (blocks : List RamBlock) (dirtyMemory bitmap : Bitmap) : Prop :=
  ∀ b ∈ blocks, ∀ n ∈ Finset.Ico (b.offset + b.usedLength) (syncEnd b.offset b.usedLength),
    testBit dirtyMemory n = true → InBlocks blocks n ∨ testBit bitmap n = true

instance (blocks : List RamBlock) (dirtyMemory bitmap : Bitmap) :
    Decidable (TailCounted blocks dirtyMemory bitmap) :=
  inferInstanceAs (Decidable (∀ b ∈ blocks, ∀ n ∈ Finset.Ico _ _, _ → _))

theorem syncBlocks_count {bs : List RamBlock} (hsub : ∀ b ∈ bs, b ∈ blocks)
    (htail : TailCounted blocks src bitmap) (hcount : dirtyPages = dirtyCount blocks bitmap) :
    (syncBlocks bs bitmap src dirtyPages).2.2 =
      dirtyCount blocks (syncBlocks bs bitmap src dirtyPages).1 := by
  induction bs generalizing bitmap src dirtyPages with
  | nil => exact hcount
  | cons b bs ih =>
    have hb := hsub b (.head _)
    have h := syncDirtyBitmap_spec bitmap src b.offset b.usedLength
    rw [syncBlocks]
    generalize syncDirtyBitmap bitmap src b.offset b.usedLength = r at h ⊢
    obtain ⟨bitmap', src', numDirty⟩ := r
    have hin (n : Nat) (hle : b.offset ≤ n) (hlt : n < syncEnd b.offset b.usedLength)
        (hsrc : testBit src n = true) (hclear : testBit bitmap n = false) :
        InBlocks blocks n := by
      rcases lt_or_ge n (b.offset + b.usedLength) with hn | hn
      · exact ⟨b, hb, hle, hn⟩
      · refine (htail b hb n (mem_Ico.2 ⟨hn, hlt⟩) hsrc).resolve_right ?_
        rw [hclear]
        exact Bool.false_ne_true
    have hadd := dirtyCount_synced h hin
    dsimp only at hadd ⊢
    have hle := dirtyCount_le blocks bitmap'
    refine ih (fun c hc => hsub c (.tail _ hc)) ?_ ?_
    · intro c hc n hn hsrc
      have hsrc : (testBit src n && _) = true := (h.srcBits n).symm.trans hsrc
      refine (htail c hc n hn (Bool.and_eq_true _ _ ▸ hsrc).1).imp_right fun hset => ?_
      exact (h.destBits n).trans (by rw [hset, Bool.true_or])
    · omega

theorem dirtyCount_clearBit (hn : InBlocks blocks n) (hset : testBit bitmap n = true) :
    dirtyCount blocks (clearBit n bitmap) + 1 = dirtyCount blocks bitmap := by
  have herase : ((blockPages blocks).filter fun k => testBit (clearBit n bitmap) k = true) =
      ((blockPages blocks).filter fun k => testBit bitmap k = true).erase n := by
    ext k
    simp only [Finset.mem_filter, mem_erase, mem_blockPages, testBit_clearBit,
      Bool.and_eq_true, Bool.not_eq_true', decide_eq_false_iff_not]
    tauto
  rw [dirtyCount, herase]
  exact card_erase_add_one (Finset.mem_filter.2 ⟨mem_blockPages.2 hn, hset⟩)

/-- The page that the search clears is marked, if the bulk stage does not step onto one that is
not. -/
theorem nextPage_set {bulkStage : Bool} {start : Nat}
    (hbulk : bulkStage = true → 0 < start → start + 1 < b.usedLength →
      testBit bitmap (b.offset + start + 1) = true)
    (hlt : nextPage bulkStage bitmap b start < b.offset + b.usedLength) :
    b.Holds (nextPage bulkStage bitmap b start) ∧
      testBit bitmap (nextPage bulkStage bitmap b start) = true := by
  unfold nextPage at hlt ⊢
  dsimp only at hlt ⊢
  split at hlt
  · next h =>
    rw [if_pos h]
    rw [Bool.and_eq_true, decide_eq_true_eq] at h
    exact ⟨⟨by omega, hlt⟩, hbulk h.1 (by omega) (by omega)⟩
  · next h =>
    rw [if_neg h]
    rcases lt_or_ge (b.offset + start) (b.offset + b.usedLength) with hstart | hstart
    · have hnext := findNextBit_spec bitmap hstart
      exact ⟨⟨(le_add_right _ _).trans hnext.le, hlt⟩, hnext.set hlt⟩
    · rw [findNextBit_of_le bitmap hstart] at hlt
      exact absurd hlt (lt_irrefl _)

theorem findAndResetDirty_count {bulkStage : Bool} {start : Nat} (hb : b ∈ blocks)
    (hbulk : bulkStage = true → 0 < start → start + 1 < b.usedLength →
      testBit bitmap (b.offset + start + 1) = true)
    (hcount : dirtyPages = dirtyCount blocks bitmap) :
    (findAndResetDirty bulkStage bitmap dirtyPages b start).2.1 =
      dirtyCount blocks (findAndResetDirty bulkStage bitmap dirtyPages b start).1 := by
  rw [findAndResetDirty]
  split
  · next hlt =>
    obtain ⟨hholds, hset⟩ := nextPage_set hbulk hlt
    have hin : InBlocks blocks (nextPage bulkStage bitmap b start) := ⟨b, hb, hholds⟩
    have hclear := dirtyCount_clearBit hin hset
    have hle := dirtyCount_le blocks bitmap
    show (dirtyPages + (2 ^ 64 - 1)) % 2 ^ 64 = dirtyCount blocks (clearBit _ bitmap)
    omega
  · exact hcount

theorem dirtyCount_insertBlock (hapart : ∀ b ∈ blocks, b.Apart new) (bitmap : Bitmap) :
    dirtyCount (insertBlock new blocks) bitmap = dirtyCount blocks bitmap +
      ((Finset.Ico new.offset (new.offset + new.usedLength)).filter
        fun n => testBit bitmap n = true).card := by
  have hpages : blockPages (insertBlock new blocks) =
      blockPages blocks ∪ Finset.Ico new.offset (new.offset + new.usedLength) := by
    ext n
    rw [mem_blockPages, inBlocks_insertBlock, mem_union, mem_blockPages, mem_Ico,
      or_comm]
    exact Iff.rfl
  have hdisjoint : Disjoint (blockPages blocks)
      (Finset.Ico new.offset (new.offset + new.usedLength)) := by
    rw [Finset.disjoint_left]
    intro n hn hnew
    obtain ⟨c, hc, hcn⟩ := mem_blockPages.1 hn
    exact (hapart c hc).not_holds hcn (mem_Ico.1 hnew)
  rw [dirtyCount, hpages, filter_union,
    card_union_of_disjoint (disjoint_filter_filter hdisjoint), dirtyCount]

theorem dirtyCount_congr {bitmap' : Bitmap}
    (h : ∀ n, InBlocks blocks n → testBit bitmap' n = testBit bitmap n) :
    dirtyCount blocks bitmap' = dirtyCount blocks bitmap := by
  refine congrArg Finset.card (filter_congr fun n hn => ?_)
  rw [h n (mem_blockPages.1 hn)]

/-- `migration_bitmap_extend` marks as many pages of the new block as the bitmap grows by, if the
block is not marked below and nothing else lies above. -/
theorem dirtyCount_extended (hapart : ∀ b ∈ blocks, b.Apart new)
    (hclear : ∀ n ∈ Finset.Ico new.offset (new.offset + new.usedLength),
      n < lastRamOffset blocks → testBit bitmap n = false)
    (hgrow : ∀ n ∈ Finset.Ico (lastRamOffset blocks) (new.offset + new.maxLength), new.Holds n) :
    dirtyCount (insertBlock new blocks) (bitmapSet
        (bitmapCopy bitmapNew bitmap (lastRamOffset blocks)) (lastRamOffset blocks)
        (new.offset + new.maxLength - lastRamOffset blocks)) =
      dirtyCount blocks bitmap + (new.offset + new.maxLength - lastRamOffset blocks) := by
  have hbits {n : Nat} (hn : n < lastRamOffset blocks) : testBit (bitmapSet
      (bitmapCopy bitmapNew bitmap (lastRamOffset blocks)) (lastRamOffset blocks)
      (new.offset + new.maxLength - lastRamOffset blocks)) n = testBit bitmap n := by
    rw [testBit_bitmapSet, testBit_bitmapCopy _ _ hn, decide_eq_false (by omega), Bool.or_false]
  have hused := new.usedLength_le
  have hmarked : ((Finset.Ico new.offset (new.offset + new.usedLength)).filter fun n =>
      testBit (bitmapSet (bitmapCopy bitmapNew bitmap (lastRamOffset blocks)) (lastRamOffset blocks)
        (new.offset + new.maxLength - lastRamOffset blocks)) n = true) =
      Finset.Ico (lastRamOffset blocks) (new.offset + new.maxLength) := by
    ext n
    rw [Finset.mem_filter]
    constructor
    · rintro ⟨hn, hset⟩
      rcases lt_or_ge n (lastRamOffset blocks) with hlt | hge
      · rw [hbits hlt, hclear n hn hlt] at hset
        cases hset
      · have hlt := (mem_Ico.1 hn).2
        exact mem_Ico.2 ⟨hge, by omega⟩
    · intro hn
      refine ⟨mem_Ico.2 (hgrow n hn), ?_⟩
      obtain ⟨hge, hlt⟩ := mem_Ico.1 hn
      rw [testBit_bitmapSet, decide_eq_true (by omega), Bool.or_true]
  rw [dirtyCount_insertBlock hapart, hmarked, card_Ico]
  congr 1
  exact dirtyCount_congr fun n hn => hbits hn.lt

theorem dirtyCount_erase (hclear : ∀ n ∈ Finset.Ico b.offset (b.offset + b.usedLength),
      testBit bitmap n = false) :
    dirtyCount (blocks.erase b) bitmap = dirtyCount blocks bitmap := by
  refine congrArg Finset.card (ext fun n => ?_)
  rw [Finset.mem_filter, Finset.mem_filter, mem_blockPages, mem_blockPages]
  refine and_congr_left fun hset => ⟨?_, ?_⟩
  · rintro ⟨c, hc, hn⟩
    exact ⟨c, mem_of_mem_erase hc, hn⟩
  rintro ⟨c, hc, hn⟩
  have hne : c ≠ b := by
    rintro rfl
    rw [hclear n (mem_Ico.2 hn)] at hset
    cases hset
  exact ⟨c, (mem_erase_of_ne hne).2 hc, hn⟩

/-! ## The invariant -/

namespace DirtyState

/-- The steps whose rule for the counter is right:
* what the first sync reads is below the end of RAM, and what a later one marks anew is a page of a
  block;
* the bulk stage does not step onto a page that is not marked;
* a new block is not marked where the bitmap was already there, and the bitmap grows by pages of the
  block only;
* a block that goes away is not marked. -/
def Counted (s : DirtyState) : DirtyEvent → Prop
  | .setup =>
    ∀ b ∈ s.blocks, ∀ n ∈ Finset.Ico (b.offset + b.usedLength) (syncEnd b.offset b.usedLength),
      testBit s.dirtyMemory n = true → n < lastRamOffset s.blocks
  | .sync => ∀ bitmap ∈ s.bitmap, TailCounted s.blocks s.dirtyMemory bitmap
  | .findAndReset b start =>
    ∀ bitmap ∈ s.bitmap, s.bulkStage = true → 0 < start → start + 1 < b.usedLength →
      testBit bitmap (b.offset + start + 1) = true
  | .blockAdd new _ =>
    ∀ bitmap ∈ s.bitmap, (∀ n ∈ Finset.Ico new.offset (new.offset + new.usedLength),
        n < lastRamOffset s.blocks → testBit bitmap n = false) ∧
      ∀ n ∈ Finset.Ico (lastRamOffset s.blocks) (new.offset + new.maxLength), new.Holds n
  | .blockFree b =>
    ∀ bitmap ∈ s.bitmap, ∀ n ∈ Finset.Ico b.offset (b.offset + b.usedLength),
      testBit bitmap n = false
  | .setDirty .. | .reset | .roundEnd | .migrationEnd => True

instance (s : DirtyState) : (e : DirtyEvent) → Decidable (s.Counted e)
  | .setup => inferInstanceAs (Decidable (∀ b ∈ s.blocks, ∀ n ∈ Finset.Ico _ _, _ → _))
  | .sync => inferInstanceAs (Decidable (∀ bitmap ∈ s.bitmap, _))
  | .findAndReset _ _ => inferInstanceAs (Decidable (∀ bitmap ∈ s.bitmap, _ → _ → _ → _))
  | .blockAdd _ _ =>
    inferInstanceAs (Decidable (∀ bitmap ∈ s.bitmap,
      (∀ n ∈ Finset.Ico _ _, _ → _) ∧ ∀ n ∈ Finset.Ico _ _, _))
  | .blockFree _ => inferInstanceAs (Decidable (∀ bitmap ∈ s.bitmap, ∀ n ∈ Finset.Ico _ _, _))
  | .setDirty .. | .reset | .roundEnd | .migrationEnd => instDecidableTrue

/-- The blocks are apart, and the counter is exact. -/
structure Exact (s : DirtyState) : Prop where
  apart : s.blocks.Pairwise RamBlock.Apart
  count : ∀ bitmap ∈ s.bitmap, s.dirtyPages = dirtyCount s.blocks bitmap

variable {s s' : DirtyState}

theorem Exact.bitmapSync (h : s.Exact)
    (htail : ∀ bitmap ∈ s.bitmap, TailCounted s.blocks s.dirtyMemory bitmap)
    (hs : s.bitmapSync = some s') : s'.Exact := by
  obtain ⟨bitmap, hbitmap, rfl⟩ := map_eq_some_iff.1 hs
  refine ⟨h.apart, ?_⟩
  rintro _ ⟨⟩
  exact syncBlocks_count (fun _ hb => hb) (htail bitmap hbitmap) (h.count bitmap hbitmap)

theorem testBit_bitmapNew {size : Nat} (h : n < size) :
    testBit (bitmapSet bitmapNew 0 size) n = true := by
  rw [testBit_bitmapSet, decide_eq_true (by omega), Bool.or_true]

theorem exact_newBitmap (h : s.blocks.Pairwise RamBlock.Apart) : s.newBitmap.Exact := by
  refine ⟨h, ?_⟩
  rintro _ ⟨⟩
  have hall : ((blockPages s.blocks).filter fun n =>
      testBit (bitmapSet bitmapNew 0 (lastRamOffset s.blocks)) n = true) = blockPages s.blocks :=
    filter_true_of_mem fun n hn => testBit_bitmapNew (mem_blockPages.1 hn).lt
  show ramBytesTotal s.blocks = dirtyCount s.blocks _
  rw [dirtyCount, hall, card_blockPages h]

theorem blockAdd_blocks (s : DirtyState) (new : RamBlock) (fresh : Bitmap) :
    (s.blockAdd new fresh).blocks = insertBlock new s.blocks := by
  unfold blockAdd bitmapExtend
  dsimp only
  split
  · cases s.bitmap with
    | none => rfl
    | some bitmap => rfl
  · rfl

/-- The new block counts for what the bitmap grows by. -/
theorem exact_blockAdd (h : s.Exact) (hapart : ∀ b ∈ s.blocks, b.Apart new) {fresh : Bitmap}
    (hok : s.Counted (.blockAdd new fresh)) : (s.blockAdd new fresh).Exact := by
  refine ⟨?_, ?_⟩
  · rw [blockAdd_blocks, (insertBlock_perm new s.blocks).pairwise_iff fun h => h.symm]
    exact pairwise_cons.2 ⟨fun b hb => (hapart b hb).symm, h.apart⟩
  unfold blockAdd
  dsimp only
  split
  · next hlt =>
    have hsize : max (lastRamOffset s.blocks) (new.offset + new.maxLength) =
        new.offset + new.maxLength := by omega
    rw [hsize]
    unfold bitmapExtend
    cases hb : s.bitmap with
    | none =>
      intro bitmap hbitmap
      cases hb.symm.trans hbitmap
    | some bitmap =>
      rintro _ ⟨⟩
      obtain ⟨hclear, hgrow⟩ := hok bitmap hb
      have hadd := dirtyCount_extended hapart hclear hgrow
      have hle := dirtyCount_le (insertBlock new s.blocks) (bitmapSet
        (bitmapCopy bitmapNew bitmap (lastRamOffset s.blocks)) (lastRamOffset s.blocks)
        (new.offset + new.maxLength - lastRamOffset s.blocks))
      have hcount := h.count bitmap hb
      show (s.dirtyPages + _) % 2 ^ 64 = dirtyCount (insertBlock new s.blocks) _
      omega
  · next hle =>
    intro bitmap hbitmap
    obtain ⟨hclear, -⟩ := hok bitmap hbitmap
    have hused := new.usedLength_le
    have hempty : ((Finset.Ico new.offset (new.offset + new.usedLength)).filter
        fun n => testBit bitmap n = true) = ∅ := by
      refine filter_false_of_mem fun n hn => ?_
      have hlt := (mem_Ico.1 hn).2
      rw [hclear n hn (by omega)]
      exact Bool.false_ne_true
    rw [dirtyCount_insertBlock hapart, hempty, card_empty, h.count bitmap hbitmap, add_zero]

theorem Exact.step {e : DirtyEvent} (h : s.Exact) (hok : s.Counted e)
    (hs : dirtyStep s e = some s') : s'.Exact := by
  cases e with
  | setup =>
    refine (exact_newBitmap h.apart).bitmapSync ?_ hs
    rintro _ ⟨⟩ b hb n hn hdirty
    exact .inr (testBit_bitmapNew (hok b hb n hn hdirty))
  | sync => exact h.bitmapSync hok hs
  | findAndReset b start =>
    obtain ⟨bitmap, hbitmap, hs⟩ := bind_eq_some_iff.1 hs
    obtain ⟨hb, ⟨⟩⟩ := ite_none_right_eq_some.1 hs
    refine ⟨h.apart, ?_⟩
    rintro _ ⟨⟩
    exact findAndResetDirty_count hb (hok bitmap hbitmap) (h.count bitmap hbitmap)
  | setDirty _ _ _ | reset =>
    obtain ⟨-, ⟨⟩⟩ := ite_none_right_eq_some.1 hs
    exact ⟨h.apart, h.count⟩
  | blockAdd new fresh =>
    obtain ⟨hapart, ⟨⟩⟩ := ite_none_right_eq_some.1 hs
    exact exact_blockAdd h hapart hok
  | blockFree b =>
    obtain ⟨-, ⟨⟩⟩ := ite_none_right_eq_some.1 hs
    refine ⟨h.apart.sublist erase_sublist, fun bitmap hbitmap => ?_⟩
    exact (h.count bitmap hbitmap).trans (dirtyCount_erase (hok bitmap hbitmap)).symm
  | roundEnd =>
    cases hs
    exact ⟨h.apart, h.count⟩
  | migrationEnd =>
    cases hs
    refine ⟨h.apart, ?_⟩
    rintro _ ⟨⟩

/-- In every run whose steps keep the count, the counter is exact. -/
theorem Exact.of_reach (h : dirtyMachine.Reach Counted s) : s.Exact := by
  refine h.invariant ?_ ?_
  · rintro s ⟨hapart, hnone⟩
    refine ⟨hapart, fun bitmap hbitmap => ?_⟩
    cases hnone.symm.trans hbitmap
  · intro s e s' _ hs hok hstep
    exact hs.step hok hstep

end DirtyState

/-- In every run whose steps meet `DirtyState.Counted`, `migration_dirty_pages` is the number of
pages of RAM blocks that the migration bitmap marks, and the search never takes it below zero. -/
theorem dirty_pages_exact {s : DirtyState} (h : dirtyMachine.Reach DirtyState.Counted s)
    {bitmap : Bitmap} (hbitmap : s.bitmap = some bitmap) :
    s.dirtyPages = dirtyCount s.blocks bitmap ∧
      ∀ b ∈ s.blocks, ∀ start, s.Counted (.findAndReset b start) →
        nextPage s.bulkStage bitmap b start < b.offset + b.usedLength → 0 < s.dirtyPages := by
  have hcount := (DirtyState.Exact.of_reach h).count bitmap hbitmap
  refine ⟨hcount, fun b hb start hok hlt => ?_⟩
  obtain ⟨hholds, hset⟩ := nextPage_set (hok bitmap hbitmap) hlt
  have hin : InBlocks s.blocks (nextPage s.bulkStage bitmap b start) := ⟨b, hb, hholds⟩
  have hclear := dirtyCount_clearBit hin hset
  omega

/-- A machine with one block of three pages, before migration. -/
def threePages : DirtyState where
  blocks := [⟨0, 3, 3, by decide, by decide, by decide⟩]
  dirtyMemory := bitmapNew
  bitmap := none
  dirtyPages := 0
  bulkStage := false
  version := 0
  lastVersion := 0

/-- Sending the three pages, writing and syncing the second, and plugging a block of one page. -/
def plugRun : List DirtyEvent :=
  let b : RamBlock := ⟨0, 3, 3, by decide, by decide, by decide⟩
  let c : RamBlock := ⟨3, 1, 1, by decide, by decide, by decide⟩
  [.setup, .findAndReset b 0, .findAndReset b 0, .findAndReset b 1, .roundEnd, .setDirty b 1 1,
    .sync, .blockAdd c bitmapNew, .reset, .findAndReset b 0]

theorem dirty_pages_exact_plugRun : ∃ s bitmap, dirtyMachine.run threePages plugRun = some s ∧
    s.bitmap = some bitmap ∧ s.dirtyPages = 1 ∧ s.dirtyPages = dirtyCount s.blocks bitmap := by
  have hok : dirtyMachine.Meets DirtyState.Counted threePages plugRun := by decide +kernel
  obtain ⟨s, hs, hreach, hsome, hone⟩ := Machine.Reach.exists_of_run (M := dirtyMachine)
    (.init ⟨pairwise_singleton _ _, rfl⟩) hok
    (P := fun s => s.bitmap.isSome ∧ s.dirtyPages = 1) (by decide +kernel)
  obtain ⟨bitmap, hbitmap⟩ := isSome_iff_exists.1 hsome
  exact ⟨s, bitmap, hs, hbitmap, hone, (dirty_pages_exact hreach hbitmap).1⟩

/-- The bulk stage after the reset steps onto the third page of the old block, which is not marked,
and counts it; the plugged page then takes the counter below zero. -/
theorem dirty_pages_below_zero : ∃ s bitmap, dirtyMachine.Reachable s ∧ s.bitmap = some bitmap ∧
    dirtyCount s.blocks bitmap = 0 ∧ s.dirtyPages = 2 ^ 64 - 1 := by
  have hrun : ((dirtyMachine.run threePages (plugRun ++
      [.findAndReset ⟨0, 3, 3, by decide, by decide, by decide⟩ 1,
        .findAndReset ⟨3, 1, 1, by decide, by decide, by decide⟩ 0])).map
      fun s => (s.bitmap.map (dirtyCount s.blocks), s.dirtyPages)) = some (some 0, 2 ^ 64 - 1) := by
    decide +kernel
  obtain ⟨s, hs, heq⟩ := map_eq_some_iff.1 hrun
  obtain ⟨hmap, hpages⟩ := Prod.mk.inj heq
  obtain ⟨bitmap, hbitmap, hcount⟩ := map_eq_some_iff.1 hmap
  exact ⟨s, bitmap, .of_run (.init ⟨pairwise_singleton _ _, rfl⟩) hs, hbitmap, hcount, hpages⟩

end QemuAndroid.Migration
