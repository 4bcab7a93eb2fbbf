import QemuAndroid.Lib.Words

/-!
# Hierarchical bitmaps

`util/hbitmap.c` and the inline functions of `include/qemu/hbitmap.h`, for a host
with 64-bit longs.

An `HBitmap` stacks seven bitmaps.  Bit `N` of a level says whether word `N` of the
next finer level is not zero, and level 6 is the bitmap proper.  Level 0 is a single
word, whose top bit is a sentinel that stops the search of the iterator.

A function is `none` where the source runs into undefined behaviour: an access
outside an array, a shift of an `int` by 31 or more, or a failed assertion.
Indices into the bitmap are natural numbers: they stay below `2 ^ 42`, so the
arithmetic on them does not wrap.  The arguments of the public functions and the
arithmetic on them are of 64 bits.
-/

namespace QemuAndroid.Hbitmap

open Lib Function

def logMaxSize : Nat := 41

def numLevels : Nat := 7

def sentinel : Word := 1#64 <<< 63

/-- `struct HBitmap`.  `sizes[i]` is the size of the array `levels[i]`. -/
structure HBitmap where
  /-- The number of groups. -/
  size : BitVec 64
  /-- The number of set groups. -/
  count : BitVec 64
  granularity : Nat
  /-- Level 0 is the coarsest. -/
  levels : Nat → Array Word

def storeWord (a : Array Word) (i : Nat) (w : Word) : Option (Array Word) :=
  if i < a.size then some (a.setIfInBounds i w) else none

/-! ## Iteration -/

structure HBitmapIter where
  /-- The current word of the last level. -/
  pos : Nat
  /-- The bits yet to be processed on each level of the current path. -/
  cur : Nat → Word

variable (hb : HBitmap)

/-- The loop of `hbitmap_iter_init`, with `i` levels left. -/
def iterInitLoop : Nat → Nat → (Nat → Word) → Option (Nat → Word)
  | 0, _, cur => some cur
  | i + 1, pos, cur => do
      let bit := pos % 64
      let pos := pos / 64
      let w ← (hb.levels i)[pos]?
      -- drop bits representing items before first
      let c := w &&& ~~~lowMask64 bit
      -- level i + 1 has been added already, so its bit has been processed
      let c := if i ≠ numLevels - 1 then c &&& ~~~(1#64 <<< bit) else c
      iterInitLoop i pos (update cur i c)

def hbitmapIterInit (first : BitVec 64) : Option HBitmapIter :=
  let pos := (first >>> hb.granularity).toNat
  if pos < hb.size.toNat then
    (iterInitLoop hb numLevels pos fun _ => 0#64).map fun cur => { pos := pos / 64, cur := cur }
  else none

/-- The first loop of `hbitmap_iter_skip_words`: up to a level with bits left. -/
def skipUp (cur : Nat → Word) : Nat → Nat → Option (Nat × Nat × Word)
  | 0, _ => none
  | i + 1, pos =>
    if cur i = 0#64 then skipUp cur i (pos / 64) else some (i, pos / 64, cur i)

/-- The second loop: down again, with `n` levels left. -/
def skipDown : Nat → Nat → Nat → Word → (Nat → Word) → Option (Nat × Word × (Nat → Word))
  | 0, _, pos, w, cur => some (pos, w, cur)
  | n + 1, i, pos, w, cur =>
    if w = 0#64 then none
    else do
      let pos := 64 * pos + ctzl w
      let w' ← (hb.levels (i + 1))[pos]?
      skipDown n (i + 1) pos w' (update cur i (w &&& (w - 1#64)))

def hbitmapIterSkipWords (hbi : HBitmapIter) : Option (HBitmapIter × Word) := do
  let (i, pos, w) ← skipUp hbi.cur (numLevels - 1) hbi.pos
  if i = 0 ∧ w = sentinel then return (hbi, 0#64)
  let (pos, w, cur) ← skipDown hb (numLevels - 1 - i) i pos w hbi.cur
  if w = 0#64 then none else some ({ pos := pos, cur := cur }, w)

/-- `hbitmap_iter_next_word`; no position stands for the `-1` of the source. -/
def hbitmapIterNextWord (hbi : HBitmapIter) : Option (HBitmapIter × Option Nat × Word) := do
  let w := hbi.cur (numLevels - 1)
  let (hbi, w) ← if w = 0#64 then hbitmapIterSkipWords hb hbi else some (hbi, w)
  if w = 0#64 then some (hbi, none, 0#64)
  else
    some ({ hbi with cur := update hbi.cur (numLevels - 1) 0#64 }, some hbi.pos, w)

/-- `hbitmap_iter_next`.  The granularity that `hbitmap_iter_init` has copied is that of the
bitmap. -/
def hbitmapIterNext (hbi : HBitmapIter) : Option (HBitmapIter × BitVec 64) := do
  let w := hbi.cur (numLevels - 1)
  let (hbi, w) ← if w = 0#64 then hbitmapIterSkipWords hb hbi else some (hbi, w)
  if w = 0#64 then some (hbi, -1#64)
  else
    let item := (BitVec.ofNat 64 hbi.pos <<< 6) + BitVec.ofNat 64 (ctzl w)
    some ({ hbi with cur := update hbi.cur (numLevels - 1) (w &&& (w - 1#64)) },
      item <<< hb.granularity)

/-! ## Counting -/

/-- The loop of `hb_count_between`, with the bits of the last word. -/
def countLoop (endBit : Nat) : Nat → HBitmapIter → Nat → Option Nat
  | 0, _, _ => none
  | fuel + 1, hbi, count => do
      let (hbi, pos, w) ← hbitmapIterNextWord hb hbi
      match pos with
      -- `-1` is past every word
      | none => some count
      | some pos =>
        if pos < endBit / 64 then countLoop endBit fuel hbi (count + ctpopl w)
        else if pos = endBit / 64 then some (count + ctpopl (w &&& lowMask64 (endBit % 64)))
        else some count

def hbCountBetween (start last : BitVec 64) : Option (BitVec 64) := do
  let hbi ← hbitmapIterInit hb (start <<< hb.granularity)
  let count ← countLoop hb (last.toNat + 1) ((hb.levels (numLevels - 1)).size + 1) hbi 0
  return BitVec.ofNat 64 count

def hbitmapEmpty : Bool := hb.count == 0#64

def hbitmapCount : BitVec 64 := hb.count <<< hb.granularity

/-! ## Ranges of words -/

/-- The loop of `hb_set_between` and `hb_reset_between` over the words between the
first and the last: each gets the value `fill`, and `changed` collects `test`. -/
def fillLoop (fill : Word) (test : Word → Bool) (lastpos : Nat) :
    Nat → Array Word → Nat → Bool → Option (Array Word × Bool)
  | 0, _, _, _ => none
  | fuel + 1, a, i, changed =>
    if i + 1 = lastpos then some (a, changed)
    else do
      let w ← a[i + 1]?
      let a ← storeWord a (i + 1) fill
      fillLoop fill test lastpos fuel a (i + 1) (changed || test w)

/-! ## Setting -/

/-- `hb_set_elem` on the word at `i`, with whether it was zero. -/
def hbSetElem (a : Array Word) (i start last : Nat) : Option (Array Word × Bool) := do
  if ¬ (last / 64 = start / 64 ∧ start ≤ last) then none
  let w ← a[i]?
  let a ← storeWord a i (w ||| rangeMask (start % 64) (last % 64))
  return (a, w == 0#64)

/-- What `hb_set_between` does on its own level. -/
def setLevel (a : Array Word) (start last : Nat) : Option (Array Word × Bool) :=
  let pos := start / 64
  let lastpos := last / 64
  if pos < lastpos then do
    let next := (start ||| 63) + 1
    let (a, changed) ← hbSetElem a pos start (next - 1)
    let (a, changed) ← fillLoop (~~~0#64) (· == 0#64) lastpos (lastpos - pos) a pos changed
    -- the loop has moved `start` to the first bit of the last word
    let (a, changed') ← hbSetElem a lastpos (next + 64 * (lastpos - pos - 1)) last
    return (a, changed || changed')
  else hbSetElem a pos start last

def hbSetBetween : Nat → (Nat → Array Word) → Nat → Nat → Option (Nat → Array Word)
  | 0, levels, start, last => do
      let (a, _) ← setLevel (levels 0) start last
      return update levels 0 a
  | level + 1, levels, start, last => do
      let (a, changed) ← setLevel (levels (level + 1)) start last
      let levels := update levels (level + 1) a
      if changed then hbSetBetween level levels (start / 64) (last / 64) else some levels

def hbitmapSet (start count : BitVec 64) : Option HBitmap := do
  let last := start + count - 1#64
  let start := start >>> hb.granularity
  let last := last >>> hb.granularity
  let count := last - start + 1#64
  let between ← hbCountBetween hb start last
  let levels ← hbSetBetween (numLevels - 1) hb.levels start.toNat last.toNat
  return { hb with count := hb.count + (count - between), levels := levels }

/-! ## Resetting -/

/-- `hb_reset_elem` on the word at `i`, with whether it was blanked. -/
def hbResetElem (a : Array Word) (i start last : Nat) : Option (Array Word × Bool) := do
  if ¬ (last / 64 = start / 64 ∧ start ≤ last) then none
  let w ← a[i]?
  let w' := w &&& ~~~rangeMask (start % 64) (last % 64)
  let a ← storeWord a i w'
  return (a, w != 0#64 && w' == 0#64)

/-- What `hb_reset_between` does on its own level: the array, whether a word was
blanked, and the range of words to blank in the level above. -/
def resetLevel (a : Array Word) (start last : Nat) : Option (Array Word × Bool × Nat × Nat) :=
  let pos := start / 64
  let lastpos := last / 64
  if pos < lastpos then do
    let next := (start ||| 63) + 1
    let (a, first) ← hbResetElem a pos start (next - 1)
    let (a, changed) ← fillLoop 0#64 (· != 0#64) lastpos (lastpos - pos) a pos first
    let (a, blanked) ← hbResetElem a lastpos (next + 64 * (lastpos - pos - 1)) last
    return (a, changed || blanked, if first then pos else pos + 1,
      if blanked then lastpos else lastpos - 1)
  else do
    let (a, blanked) ← hbResetElem a pos start last
    return (a, blanked, pos, if blanked then lastpos else lastpos - 1)

def hbResetBetween : Nat → (Nat → Array Word) → Nat → Nat → Option (Nat → Array Word)
  | 0, levels, start, last => do
      let (a, _) ← resetLevel (levels 0) start last
      return update levels 0 a
  | level + 1, levels, start, last => do
      let (a, changed, pos, lastpos) ← resetLevel (levels (level + 1)) start last
      let levels := update levels (level + 1) a
      if changed then hbResetBetween level levels pos lastpos else some levels

def hbitmapReset (start count : BitVec 64) : Option HBitmap := do
  let last := start + count - 1#64
  let start := start >>> hb.granularity
  let last := last >>> hb.granularity
  let between ← hbCountBetween hb start last
  let levels ← hbResetBetween (numLevels - 1) hb.levels start.toNat last.toNat
  return { hb with count := hb.count - between, levels := levels }

def hbitmapResetAll : Option HBitmap := do
  let top ← storeWord (hb.levels 0) 0 sentinel
  return { hb with
    count := 0#64
    levels := fun i => if i = 0 then top else Array.replicate (hb.levels i).size 0#64 }

/-! ## Reading, allocation, resizing, merging -/

def hbitmapGet (item : BitVec 64) : Option Bool := do
  let pos := (item >>> hb.granularity).toNat
  let w ← (hb.levels (numLevels - 1))[pos / 64]?
  return (w &&& (1#64 <<< (pos % 64))) != 0#64

/-- The number of groups that `size` elements take. -/
def roundUp (size : BitVec 64) (granularity : Nat) : BitVec 64 :=
  (size + (1#64 <<< granularity) - 1#64) >>> granularity

/-- The loop of `hbitmap_alloc`, with `i` levels left; the size of the last level
allocated. -/
def allocLoop : Nat → Nat → (Nat → Array Word) → (Nat → Array Word) × Nat
  | 0, size, levels => (levels, size)
  | i + 1, size, levels =>
    let size := max ((size + 63) / 64) 1
    allocLoop i size (update levels i (Array.replicate size 0#64))

def hbitmapAlloc (size : BitVec 64) (granularity : Nat) : Option HBitmap := do
  if ¬ granularity < 64 then none
  let size := roundUp size granularity
  if ¬ size.toNat ≤ 2 ^ logMaxSize then none
  let (levels, top) := allocLoop numLevels size.toNat fun _ => #[]
  if top ≠ 1 then none
  let w ← (levels 0)[0]?
  let a ← storeWord (levels 0) 0 (w ||| sentinel)
  return {
    size := size
    count := 0#64
    granularity := granularity
    levels := update levels 0 a }

/-- `g_realloc` of a level, with the `memset` of the words that are new. -/
def reallocLevel (shrink : Bool) (a : Array Word) (size : Nat) : Option (Array Word) :=
  if shrink then if size ≤ a.size then some (a.take size) else none
  else if a.size ≤ size then some (a ++ Array.replicate (size - a.size) 0#64) else none

/-- The loop of `hbitmap_truncate`, with `i` levels left. -/
def truncateLoop (shrink : Bool) : Nat → Nat → (Nat → Array Word) → Option (Nat → Array Word)
  | 0, _, levels => some levels
  | i + 1, size, levels =>
    let size := max ((size + 63) / 64) 1
    if (levels i).size = size then some levels
    else do
      let a ← reallocLevel shrink (levels i) size
      truncateLoop shrink i size (update levels i a)

/-- The part of `hbitmap_truncate` that clears the bits that are lost. -/
def truncateReset (numElements : BitVec 64) : Option HBitmap :=
  -- `1 << hb->granularity` is an `int`
  if hb.granularity < 31 then
    let align := 1#64 <<< hb.granularity
    -- `QEMU_ALIGN_UP(num_elements, align)`
    let start := (numElements + align - 1#64) / align * align
    let fixCount := (hb.size <<< hb.granularity) - start
    if fixCount = 0#64 then none else hbitmapReset hb start fixCount
  else none

def hbitmapTruncate (numElements : BitVec 64) : Option HBitmap := do
  let size := roundUp numElements hb.granularity
  if ¬ size.toNat ≤ 2 ^ logMaxSize then none
  let shrink := decide (size.toNat < hb.size.toNat)
  if size = hb.size then return hb
  let hb ← (if shrink then truncateReset hb numElements else some hb : Option HBitmap)
  let levels ← truncateLoop shrink numLevels size.toNat hb.levels
  return { hb with size := size, levels := levels }

def orWords (a b : Array Word) : Array Word := a.mapIdx fun j w => w ||| wordAt b j

def hbitmapMerge (a b : HBitmap) : Option (HBitmap × Bool) :=
  if a.size ≠ b.size ∨ a.granularity ≠ b.granularity then some (a, false)
  else if hbitmapCount b = 0#64 then some (a, true)
  -- every word of `a` is paired with the one of `b`
  else if ∀ i < numLevels, (a.levels i).size ≤ (b.levels i).size then
    some ({ a with levels := fun i => orWords (a.levels i) (b.levels i) }, true)
  else none

end QemuAndroid.Hbitmap
