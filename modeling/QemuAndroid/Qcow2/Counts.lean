import Mathlib.Tactic.Ring
import QemuAndroid.Qcow2.Refcount

/-!
# What refcounts count

The refcount of a cluster is the number of its uses: the header is one, a refcount block and each
cluster of the refcount table is one, and the others are those of the users of the image.  This
module says what the changes that are made to refcount blocks and to the refcount table mean for
these numbers.
-/

namespace QemuAndroid.Qcow2

open Lib Nat RefImage

variable {cfg : RefcountConfig} {img : RefImage} {n m : Nat → Nat} {c b i j : Nat}

/-! ## Sizes -/

theorem refcountBlockSize_pos (cfg : RefcountConfig) : 0 < cfg.refcountBlockSize :=
  Nat.two_pow_pos _

/-- `& REFT_OFFSET_MASK` keeps the offset of a cluster. -/
theorem mask_cluster (cfg : Qcow2Config) (b : Nat) :
    b * cfg.clusterSize / 512 * 512 = b * cfg.clusterSize :=
  Nat.div_mul_cancel (Nat.dvd_trans (dvd_clusterSize cfg) (Nat.dvd_mul_left _ _))

theorem mul_clusterSize_ne_zero (cfg : Qcow2Config) (h : b ≠ 0) : b * cfg.clusterSize ≠ 0 :=
  mul_ne_zero h (ne_of_gt (clusterSize_pos _))

theorem firstCluster_mul (cfg : RefcountConfig) (b : Nat) :
    cfg.firstCluster (b * cfg.clusterSize) = b := Nat.mul_div_cancel _ (clusterSize_pos _)

theorem sizeToClusters_mul (cfg : Qcow2Config) (k : Nat) :
    cfg.sizeToClusters (k * cfg.clusterSize) = k := by
  have hpos := clusterSize_pos cfg
  unfold Qcow2Config.sizeToClusters
  rw [add_comm, add_mul_div_right _ _ hpos, div_eq_of_lt (by omega), zero_add]

/-- A range from the start of a cluster touches as many clusters as `size_to_clusters` says. -/
theorem clusterCount_mul (cfg : RefcountConfig) (b size : Nat) :
    cfg.clusterCount (b * cfg.clusterSize) size = cfg.sizeToClusters size := by
  have hpos := clusterSize_pos cfg.toQcow2Config
  unfold RefcountConfig.clusterCount Qcow2Config.sizeToClusters
  split
  · rename_i h
    rw [div_eq_of_lt (by omega)]
  have hsplit : b * cfg.clusterSize + size - 1 = size - 1 + b * cfg.clusterSize := by omega
  have hround : size + (cfg.clusterSize - 1) = size - 1 + 1 * cfg.clusterSize := by omega
  rw [hsplit, add_mul_div_right _ _ hpos, Nat.mul_div_cancel _ hpos, Nat.add_sub_cancel,
    hround, add_mul_div_right _ _ hpos]

theorem clusterCount_aligned {offset : Nat} (h : offset % cfg.clusterSize = 0) (k : Nat) :
    cfg.clusterCount offset (k * cfg.clusterSize) = k := by
  have hmul : offset = offset / cfg.clusterSize * cfg.clusterSize :=
    (Nat.div_mul_cancel (dvd_of_mod_eq_zero h)).symm
  rw [hmul, clusterCount_mul, sizeToClusters_mul]

theorem clusterCount_one (cfg : RefcountConfig) (b : Nat) :
    cfg.clusterCount (b * cfg.clusterSize) cfg.clusterSize = 1 := by
  have h := sizeToClusters_mul cfg.toQcow2Config 1
  rw [one_mul] at h
  rw [clusterCount_mul, h]

/-! ## Metadata -/

variable {img' : RefImage}

namespace RefImage

def HasBlock (cfg : RefcountConfig) (img : RefImage) (c : Nat) : Prop :=
  img.blockOffset (c / cfg.refcountBlockSize) ≠ 0
deriving Decidable

def IsBlock (cfg : RefcountConfig) (img : RefImage) (c : Nat) : Prop :=
  c ≠ 0 ∧ ∃ i, i < img.refcountTableSize ∧ img.blockOffset i = c * cfg.clusterSize

def tableFirst (cfg : RefcountConfig) (img : RefImage) : Nat :=
  img.refcountTableOffset / cfg.clusterSize

/-- The first cluster behind the refcount table. -/
def tableEnd (cfg : RefcountConfig) (img : RefImage) : Nat :=
  img.tableFirst cfg + tableClusters cfg img.refcountTableSize

def IsTable (cfg : RefcountConfig) (img : RefImage) (c : Nat) : Prop :=
  img.tableFirst cfg ≤ c ∧ c < img.tableEnd cfg
deriving Decidable

instance : Decidable (img.IsBlock cfg c) := inferInstanceAs (Decidable (_ ∧ _))

/-- The uses of a cluster by the metadata: as the header, a refcount block, the refcount table. -/
def metaCount (cfg : RefcountConfig) (img : RefImage) (c : Nat) : Nat :=
  (if c = 0 then 1 else 0) + (if img.IsBlock cfg c then 1 else 0) +
    (if img.IsTable cfg c then 1 else 0)

theorem metaCount_eq_zero :
    img.metaCount cfg c = 0 ↔ c ≠ 0 ∧ ¬img.IsBlock cfg c ∧ ¬img.IsTable cfg c := by
  simp only [metaCount, Nat.add_eq_zero_iff, ite_eq_right_iff, one_ne_zero, imp_false, and_assoc,
    ne_eq]

/-- The second table has the blocks of the first one. -/
def Extends (img img' : RefImage) : Prop :=
  ∀ i, img.blockOffset i ≠ 0 → img'.blockOffset i = img.blockOffset i

theorem Extends.refl (img : RefImage) : img.Extends img := fun _ _ => rfl

theorem Extends.trans {img img'' : RefImage} (h : img.Extends img') (h' : img'.Extends img'') :
    img.Extends img'' := by
  intro i hi
  have heq := h i hi
  rw [h' i (by rwa [heq]), heq]

theorem Extends.hasBlock (h : img.Extends img') (hc : img.HasBlock cfg c) :
    img'.HasBlock cfg c := by
  unfold HasBlock at hc ⊢
  rwa [h _ hc]

theorem lt_of_blockOffset (h : img.blockOffset i ≠ 0) : i < img.refcountTableSize := by
  by_contra hge
  exact h (if_neg hge)

theorem Extends.isBlock (h : img.Extends img') (hc : img.IsBlock cfg c) : img'.IsBlock cfg c := by
  obtain ⟨hne, i, -, hi⟩ := hc
  have hpos := mul_clusterSize_ne_zero cfg.toQcow2Config hne
  have heq := h i (hi ▸ hpos)
  rw [hi] at heq
  exact ⟨hne, i, lt_of_blockOffset (heq ▸ hpos), heq⟩

theorem hasBlock_of_refcount (h : img.refcount cfg c ≠ 0) : img.HasBlock cfg c := by
  intro hzero
  exact h (if_pos hzero)

/-- Clusters behind those of the table are free. -/
theorem refcount_of_ge (h : img.refcountTableSize * cfg.refcountBlockSize ≤ c) :
    img.refcount cfg c = 0 := by
  have hindex : ¬c / cfg.refcountBlockSize < img.refcountTableSize :=
    not_lt.2 ((le_div_iff_mul_le (refcountBlockSize_pos cfg)).2 h)
  exact if_pos (if_neg hindex)

end RefImage

/-! ## Counts -/

/-- The refcounts of the image: there are blocks at the starts of clusters only, none is shared, and
the refcounts count the metadata and `n`. -/
structure ImageOk (cfg : RefcountConfig) (img : RefImage) (n : Nat → Nat) : Prop where
  aligned : ∀ i, img.blockOffset i % cfg.clusterSize = 0
  inj : ∀ i j, img.blockOffset i = img.blockOffset j → img.blockOffset i ≠ 0 → i = j
  tableAligned : img.refcountTableOffset % cfg.clusterSize = 0
  counts : ∀ c, img.refcount cfg c = n c + img.metaCount cfg c

/-- More uses of the clusters of a range. -/
def raised (n : Nat → Nat) (lo hi d : Nat) : Nat → Nat :=
  fun c => if lo ≤ c ∧ c < hi then n c + d else n c

/-- Fewer uses of the clusters of a range. -/
def lowered (n : Nat → Nat) (lo hi d : Nat) : Nat → Nat :=
  fun c => if lo ≤ c ∧ c < hi then n c - d else n c

variable {lo hi d v : Nat}

theorem raised_of_mem (hlo : lo ≤ c) (hhi : c < hi) :
    raised n lo hi d c = n c + d := if_pos ⟨hlo, hhi⟩

theorem raised_of_not_mem (h : ¬(lo ≤ c ∧ c < hi)) : raised n lo hi d c = n c := if_neg h

theorem lowered_of_mem (hlo : lo ≤ c) (hhi : c < hi) :
    lowered n lo hi d c = n c - d := if_pos ⟨hlo, hhi⟩

theorem lowered_of_not_mem (h : ¬(lo ≤ c ∧ c < hi)) : lowered n lo hi d c = n c := if_neg h

section

variable (n)

theorem raised_self (lo d : Nat) : raised n lo lo d = n := by
  funext c
  exact raised_of_not_mem (by omega)

theorem lowered_self (lo d : Nat) : lowered n lo lo d = n := by
  funext c
  exact lowered_of_not_mem (by omega)

theorem le_raised (lo hi d c : Nat) : n c ≤ raised n lo hi d c := by
  unfold raised
  split <;> omega

theorem le_raised_of_mem (hlo : lo ≤ c) (hhi : c < hi) : d ≤ raised n lo hi d c := by
  rw [raised_of_mem hlo hhi]
  exact le_add_left _ _

theorem lowered_raised (lo hi d : Nat) : lowered (raised n lo hi d) lo hi d = n := by
  funext c
  unfold lowered
  split
  · rename_i h
    rw [raised_of_mem h.1 h.2, Nat.add_sub_cancel]
  · rename_i h
    exact raised_of_not_mem h

end

theorem raised_lowered (h : ∀ c, lo ≤ c → c < hi → d ≤ n c) :
    raised (lowered n lo hi d) lo hi d = n := by
  funext c
  unfold raised
  split
  · rename_i hc
    rw [lowered_of_mem hc.1 hc.2, Nat.sub_add_cancel (h c hc.1 hc.2)]
  · rename_i hc
    exact lowered_of_not_mem hc

/-- A cluster of the metadata has no other use. -/
def Separate (cfg : RefcountConfig) (img : RefImage) (n : Nat → Nat) : Prop :=
  ∀ c, img.metaCount cfg c ≠ 0 → img.metaCount cfg c = 1 ∧ n c = 0

namespace ImageOk

section

variable (h : ImageOk cfg img n)
include h

theorem of_free (hc : img.refcount cfg c = 0) : n c = 0 ∧ img.metaCount cfg c = 0 := by
  have hcount := h.counts c
  omega

/-- A block is the block of one index only, and it is in use. -/
theorem refcount_block (hi : img.blockOffset i ≠ 0) :
    img.refcount cfg (img.blockOffset i / cfg.clusterSize) ≠ 0 := by
  have hmul : img.blockOffset i / cfg.clusterSize * cfg.clusterSize = img.blockOffset i :=
    Nat.div_mul_cancel (dvd_of_mod_eq_zero (h.aligned i))
  have hblock : img.IsBlock cfg (img.blockOffset i / cfg.clusterSize) := by
    refine ⟨?_, i, lt_of_blockOffset hi, hmul.symm⟩
    intro hzero
    rw [hzero, zero_mul] at hmul
    exact hi hmul.symm
  rw [h.counts, metaCount, if_pos hblock]
  omega

theorem ne_zero_of_free (hb : img.refcount cfg b = 0) : b ≠ 0 := by
  rintro rfl
  have hcount := h.counts 0
  rw [metaCount, if_pos rfl] at hcount
  omega

theorem ne_block (hb : img.refcount cfg b = 0) (i : Nat) :
    img.blockOffset i ≠ b * cfg.clusterSize := by
  intro heq
  have hused := h.refcount_block (heq ▸ mul_clusterSize_ne_zero _ (h.ne_zero_of_free hb))
  rw [heq, Nat.mul_div_cancel _ (clusterSize_pos _)] at hused
  exact hused hb

end

end ImageOk

/-! ### Images that are given -/

variable {top : Nat}

/-- The metadata of the image is below a cluster, and its table and refcounts are as `ImageOk` and
`Separate` say, as far as the table reaches. -/
structure Checked (cfg : RefcountConfig) (img : RefImage) (n : Nat → Nat) (top : Nat) : Prop where
  table : 0 < top ∧ img.tableEnd cfg ≤ top ∧ img.refcountTableOffset % cfg.clusterSize = 0
  blocks : ∀ i < img.refcountTableSize,
    img.blockOffset i % cfg.clusterSize = 0 ∧ img.blockOffset i < top * cfg.clusterSize ∧
      ∀ j < img.refcountTableSize,
        img.blockOffset i = img.blockOffset j → img.blockOffset i ≠ 0 → i = j
  metas : ∀ c < top, img.refcount cfg c = 1 ∧ img.metaCount cfg c = 1 ∧ n c = 0
  counts : ∀ i < img.refcountTableSize, ∀ k < cfg.refcountBlockSize,
    top ≤ i * cfg.refcountBlockSize + k →
      img.refcount cfg (i * cfg.refcountBlockSize + k) = n (i * cfg.refcountBlockSize + k)
  unused : ∀ c, img.refcountTableSize * cfg.refcountBlockSize ≤ c → n c = 0

section

variable (h : Checked cfg img n top)
include h

theorem Checked.metaCount (hc : top ≤ c) : img.metaCount cfg c = 0 := by
  obtain ⟨hpos, hend, -⟩ := h.table
  refine metaCount_eq_zero.2 ⟨by omega, ?_, fun hin => absurd hin.2 (by omega)⟩
  rintro ⟨-, i, hi, heq⟩
  have hlt := (h.blocks i hi).2.1
  rw [heq] at hlt
  exact absurd (Nat.lt_of_mul_lt_mul_right hlt) (not_lt.2 hc)

theorem Checked.imageOk : ImageOk cfg img n := by
  refine ⟨fun i => ?_, fun i j heq hne => ?_, h.table.2.2, fun c => ?_⟩
  · by_cases hi : img.blockOffset i = 0
    · rw [hi, zero_mod]
    · exact (h.blocks i (lt_of_blockOffset hi)).1
  · exact (h.blocks i (lt_of_blockOffset hne)).2.2 j (lt_of_blockOffset (heq ▸ hne)) heq hne
  rcases lt_or_ge c top with htop | htop
  · obtain ⟨hcount, hmeta, hn⟩ := h.metas c htop
    rw [hcount, hmeta, hn]
  rw [h.metaCount htop]
  rcases lt_or_ge c (img.refcountTableSize * cfg.refcountBlockSize) with hlt | hge
  · have hpos := refcountBlockSize_pos cfg
    have hc := h.counts _ ((div_lt_iff_lt_mul hpos).2 hlt) _ (mod_lt c hpos)
    rw [div_add_mod'] at hc
    exact hc htop
  · rw [refcount_of_ge hge, h.unused c hge]

theorem Checked.separate : Separate cfg img n := by
  intro c hne
  rcases lt_or_ge c top with htop | htop
  · exact (h.metas c htop).2
  · exact absurd (h.metaCount htop) hne

end

/-! ## Changes to a refcount block -/

structure SameTable (img img' : RefImage) : Prop where
  table : img'.refcountTable = img.refcountTable
  size : img'.refcountTableSize = img.refcountTableSize
  offset : img'.refcountTableOffset = img.refcountTableOffset

theorem SameTable.refl (img : RefImage) : SameTable img img := ⟨rfl, rfl, rfl⟩

theorem SameTable.trans {img'' : RefImage} (h : SameTable img img') (h' : SameTable img' img'') :
    SameTable img img'' :=
  ⟨h'.table.trans h.table, h'.size.trans h.size, h'.offset.trans h.offset⟩

theorem SameTable.blockOffset (h : SameTable img img') (i : Nat) :
    img'.blockOffset i = img.blockOffset i := by
  unfold RefImage.blockOffset
  rw [h.table, h.size]

/-- Two images with the same table have the same metadata. -/
theorem SameTable.metaCount (h : SameTable img img') (cfg : RefcountConfig) (c : Nat) :
    img'.metaCount cfg c = img.metaCount cfg c := by
  have hblock : img'.IsBlock cfg c = img.IsBlock cfg c := by
    simp only [IsBlock, h.blockOffset, h.size]
  have htable : img'.IsTable cfg c = img.IsTable cfg c := by
    unfold IsTable tableEnd tableFirst
    rw [h.offset, h.size]
  simp only [RefImage.metaCount, hblock, htable]

namespace RefImage

theorem metaCount_setRefcount (block index v : Nat) :
    (img.setRefcount block index v).metaCount cfg c = img.metaCount cfg c :=
  SameTable.metaCount ⟨rfl, rfl, rfl⟩ cfg c

theorem refcount_setRefcount (h : ImageOk cfg img n) (hc : img.HasBlock cfg c) (v c' : Nat) :
    (img.setRefcount (img.blockOffset (c / cfg.refcountBlockSize)) (c % cfg.refcountBlockSize)
      v).refcount cfg c' = if c' = c then v else img.refcount cfg c' := by
  have hoff : ∀ i, (img.setRefcount (img.blockOffset (c / cfg.refcountBlockSize))
      (c % cfg.refcountBlockSize) v).blockOffset i = img.blockOffset i := fun _ => rfl
  unfold refcount
  rw [hoff]
  by_cases hzero : img.blockOffset (c' / cfg.refcountBlockSize) = 0
  · have hne : c' ≠ c := by
      rintro rfl
      exact hc hzero
    rw [if_pos hzero, if_neg hne, if_pos hzero]
  rw [if_neg hzero, if_neg hzero]
  show (if _ ∧ _ then v else _) = _
  by_cases heq : c' = c
  · subst heq
    rw [if_pos ⟨rfl, rfl⟩, if_pos rfl]
  rw [if_neg heq, if_neg]
  rintro ⟨hblock, hindex⟩
  -- equal blocks have equal indices, so the clusters are the same
  have hdiv := h.inj _ _ hblock hzero
  exact heq (ext_div_mod hdiv hindex)

end RefImage

theorem ImageOk.setRefcount (h : ImageOk cfg img n) (hc : img.HasBlock cfg c)
    (hv : v = m c + img.metaCount cfg c) (hm : ∀ c', c' ≠ c → m c' = n c') :
    ImageOk cfg (img.setRefcount (img.blockOffset (c / cfg.refcountBlockSize))
      (c % cfg.refcountBlockSize) v) m where
  aligned := h.aligned
  inj := h.inj
  tableAligned := h.tableAligned
  counts := by
    intro c'
    rw [refcount_setRefcount h hc, metaCount_setRefcount]
    split
    · rename_i heq
      rw [heq, hv]
    · rename_i hne
      rw [hm c' hne, h.counts]

/-- The two images have the same table, and the same contents of its blocks. -/
structure SameBlocks (img img' : RefImage) : Prop extends SameTable img img' where
  blocks : ∀ i, img.blockOffset i ≠ 0 → ∀ k,
    img'.refcountBlocks (img.blockOffset i) k = img.refcountBlocks (img.blockOffset i) k

/-- A block that is in no table may be changed. -/
theorem SameBlocks.refcount (hs : SameBlocks img img') (cfg : RefcountConfig) (c : Nat) :
    img'.refcount cfg c = img.refcount cfg c := by
  unfold RefImage.refcount
  rw [hs.blockOffset]
  split
  · rfl
  · rename_i hzero
    rw [hs.blocks _ hzero]

theorem ImageOk.of_ne (h : ImageOk cfg img n) (hs : SameBlocks img img') : ImageOk cfg img' n := by
  refine ⟨fun i => ?_, fun i j => ?_, ?_, fun c => ?_⟩
  · rw [hs.blockOffset]
    exact h.aligned i
  · rw [hs.blockOffset, hs.blockOffset]
    exact h.inj i j
  · rw [hs.offset]
    exact h.tableAligned
  · rw [hs.refcount, hs.metaCount, h.counts]

/-! ## A new refcount block -/

section hook

variable {index : Nat}

namespace RefImage

section

variable (hindex : index < img.refcountTableSize)
include hindex

theorem blockOffset_setTable (b : Nat) (i : Nat) :
    (img.setTable index (b * cfg.clusterSize)).blockOffset i =
      if i = index then b * cfg.clusterSize else img.blockOffset i := by
  unfold blockOffset setTable
  by_cases hi : i = index
  · subst hi
    simp only [if_true, if_pos hindex]
    exact mask_cluster _ b
  · simp only [if_neg hi]

theorem isBlock_setTable (hfree : img.blockOffset index = 0) (hb : b ≠ 0) :
    (img.setTable index (b * cfg.clusterSize)).IsBlock cfg c ↔ img.IsBlock cfg c ∨ c = b := by
  have hpos := clusterSize_pos cfg.toQcow2Config
  constructor
  · rintro ⟨hne, i, hi, hoff⟩
    rw [blockOffset_setTable hindex] at hoff
    split at hoff
    · exact .inr (eq_of_mul_eq_mul_right hpos hoff).symm
    · exact .inl ⟨hne, i, hi, hoff⟩
  rintro (⟨hne, i, hi, hoff⟩ | rfl)
  · refine ⟨hne, i, hi, ?_⟩
    rw [blockOffset_setTable hindex, if_neg, hoff]
    rintro rfl
    exact mul_clusterSize_ne_zero _ hne (hoff.symm.trans hfree)
  · exact ⟨hb, index, hindex, by rw [blockOffset_setTable hindex, if_pos rfl]⟩

theorem metaCount_setTable (hfree : img.blockOffset index = 0) (hb : b ≠ 0)
    (hnot : ¬img.IsBlock cfg b) :
    (img.setTable index (b * cfg.clusterSize)).metaCount cfg c =
      img.metaCount cfg c + if c = b then 1 else 0 := by
  have htable : (img.setTable index (b * cfg.clusterSize)).IsTable cfg c = img.IsTable cfg c := rfl
  simp only [metaCount, htable, isBlock_setTable hindex hfree hb]
  by_cases hc : c = b
  · subst hc
    simp only [hnot, false_or, if_true, if_false]
    omega
  · simp only [hc, or_false, if_false]
    omega

theorem refcount_setTable (hb : b ≠ 0) (c : Nat) :
    (img.setTable index (b * cfg.clusterSize)).refcount cfg c =
      if c / cfg.refcountBlockSize = index then
        img.refcountBlocks (b * cfg.clusterSize) (c % cfg.refcountBlockSize)
      else img.refcount cfg c := by
  unfold refcount
  rw [blockOffset_setTable hindex]
  by_cases hc : c / cfg.refcountBlockSize = index
  · rw [if_pos hc, if_pos hc, if_neg (mul_clusterSize_ne_zero _ hb)]
    rfl
  · rw [if_neg hc, if_neg hc]
    rfl

theorem extends_setTable (hfree : img.blockOffset index = 0) (b : Nat) :
    img.Extends (img.setTable index (b * cfg.clusterSize)) := by
  intro i hi
  rw [blockOffset_setTable hindex, if_neg]
  rintro rfl
  exact hi hfree

end

end RefImage

theorem not_isBlock (h : ∀ i, img.blockOffset i ≠ b * cfg.clusterSize) : ¬img.IsBlock cfg b := by
  rintro ⟨-, i, -, hi⟩
  exact h i hi

/-- With block `b` at `index`, the refcounts count the uses and that of the block. -/
def CountsWith (cfg : RefcountConfig) (img : RefImage) (n : Nat → Nat) (index b : Nat) : Prop :=
  ∀ c, (if c / cfg.refcountBlockSize = index then
      img.refcountBlocks (b * cfg.clusterSize) (c % cfg.refcountBlockSize)
    else img.refcount cfg c) = n c + (img.metaCount cfg c + if c = b then 1 else 0)

/-- Entries of a table that are not shared, with one that is new. -/
theorem inj_of_new {f : Nat → Nat} (h : ∀ i j, f i = f j → f i ≠ 0 → i = j)
    (hv : ∀ i, f i ≠ v) (heq : (if i = index then v else f i) = if j = index then v else f j)
    (hne : (if i = index then v else f i) ≠ 0) : i = j := by
  split at heq <;> split at heq
  · simp only [*]
  · exact absurd heq.symm (hv j)
  · exact absurd heq (hv i)
  · rename_i hi _
    rw [if_neg hi] at hne
    exact h i j heq hne

/-- A block with the right contents takes its place in the table. -/
theorem ImageOk.hook (h : ImageOk cfg img m) (hindex : index < img.refcountTableSize)
    (hfree : img.blockOffset index = 0) (hb : b ≠ 0)
    (hnot : ∀ i, img.blockOffset i ≠ b * cfg.clusterSize) (hcount : CountsWith cfg img n index b) :
    ImageOk cfg (img.setTable index (b * cfg.clusterSize)) n where
  aligned := by
    intro i
    rw [blockOffset_setTable hindex]
    split
    · exact mul_mod_left _ _
    · exact h.aligned i
  inj := by
    intro i j
    rw [blockOffset_setTable hindex, blockOffset_setTable hindex]
    exact inj_of_new h.inj hnot
  tableAligned := h.tableAligned
  counts := by
    intro c
    rw [refcount_setTable hindex hb, metaCount_setTable hindex hfree hb (not_isBlock hnot)]
    exact hcount c

theorem ImageOk.free_of_index (h : ImageOk cfg img n) (hfree : img.blockOffset index = 0)
    (hc : c / cfg.refcountBlockSize = index) : n c = 0 ∧ img.metaCount cfg c = 0 := by
  apply h.of_free
  unfold refcount
  rw [hc, if_pos hfree]

/-- What a new block holds: its own refcount, if it describes itself. -/
def NewBlock (cfg : RefcountConfig) (img : RefImage) (index b : Nat) : Prop :=
  ∀ k, img.refcountBlocks (b * cfg.clusterSize) k =
    if b / cfg.refcountBlockSize = index ∧ k = b % cfg.refcountBlockSize then 1 else 0

/-- The uses with that of a new block that another block describes. -/
def withBlock (cfg : RefcountConfig) (n : Nat → Nat) (index b : Nat) : Nat → Nat :=
  if b / cfg.refcountBlockSize = index then n else raised n b (b + 1) 1

theorem ImageOk.refcount_newBlock (h : ImageOk cfg img (withBlock cfg n index b))
    (hfree : img.blockOffset index = 0) (hnew : NewBlock cfg img index b) :
    CountsWith cfg img n index b := by
  intro c
  unfold withBlock at h
  by_cases hself : b / cfg.refcountBlockSize = index
  · rw [if_pos hself] at h
    by_cases hc : c / cfg.refcountBlockSize = index
    · obtain ⟨hn, hmeta⟩ := h.free_of_index hfree hc
      rw [if_pos hc, hnew, hn, hmeta]
      by_cases hcb : c = b
      · rw [if_pos ⟨hself, by rw [hcb]⟩, if_pos hcb]
      · rw [if_neg hcb, if_neg]
        rintro ⟨-, hmod⟩
        exact hcb (ext_div_mod (hc.trans hself.symm) hmod)
    · have hcb : c ≠ b := by
        rintro rfl
        exact hc hself
      rw [if_neg hc, if_neg hcb, h.counts, add_zero]
  · rw [if_neg hself] at h
    by_cases hc : c / cfg.refcountBlockSize = index
    · obtain ⟨hn, hmeta⟩ := h.free_of_index hfree hc
      have hcb : c ≠ b := by
        rintro rfl
        exact hself hc
      rw [raised_of_not_mem (by omega)] at hn
      rw [if_pos hc, hnew, hn, hmeta, if_neg hcb, if_neg (fun hk => hself hk.1)]
    rw [if_neg hc, h.counts]
    by_cases hcb : c = b
    · rw [if_pos hcb, raised_of_mem (by omega) (by omega)]
      omega
    · rw [if_neg hcb, raised_of_not_mem (by omega), add_zero]

end hook

/-! ## A new refcount table -/

/-- The new table and its blocks lie behind all clusters that have been used, and the blocks have
room for the refcounts of both. -/
structure TableFits (cfg : RefcountConfig) (img : RefImage) (index b used tableSize : Nat) :
    Prop where
  index_ge : img.refcountTableSize ≤ index
  index_lt : index < used
  block_lt : b < used * cfg.refcountBlockSize
  fits : used + blocksClusters cfg tableSize ≤ tableSize
  room : tableClusters cfg tableSize + blocksClusters cfg tableSize ≤
    blocksClusters cfg tableSize * cfg.refcountBlockSize

section grow

variable {index used tableSize : Nat}

/-- The cluster is one of the new table or of its blocks. -/
def InMeta (cfg : RefcountConfig) (used tableSize c : Nat) : Prop :=
  used * cfg.refcountBlockSize ≤ c ∧ c < used * cfg.refcountBlockSize +
    (tableClusters cfg tableSize + blocksClusters cfg tableSize)
deriving Decidable

/-- The blocks of the old table are not where the new ones are. -/
theorem RefImage.refcountBlocks_switchTable (hb : c < used * cfg.refcountBlockSize) (k : Nat) :
    (img.switchTable cfg index (b * cfg.clusterSize) used tableSize).refcountBlocks
      (c * cfg.clusterSize) k = img.refcountBlocks (c * cfg.clusterSize) k := by
  refine if_neg ?_
  rintro ⟨hle, -⟩
  have hlt := mul_lt_mul_of_pos_right hb (clusterSize_pos cfg.toQcow2Config)
  exact not_lt.2 hle hlt

theorem RefImage.refcountBlocks_meta (h : used * cfg.refcountBlockSize ≤ c)
    (hlt : c / cfg.refcountBlockSize < used + blocksClusters cfg tableSize) :
    (img.switchTable cfg index (b * cfg.clusterSize) used tableSize).refcountBlocks
      ((used * cfg.refcountBlockSize + (c / cfg.refcountBlockSize - used)) * cfg.clusterSize)
      (c % cfg.refcountBlockSize) = if InMeta cfg used tableSize c then 1 else 0 := by
  have hpos := clusterSize_pos cfg.toQcow2Config
  have hle : used ≤ c / cfg.refcountBlockSize := (le_div_iff_mul_le (refcountBlockSize_pos cfg)).2 h
  have hoff : (used * cfg.refcountBlockSize + (c / cfg.refcountBlockSize - used)) *
      cfg.clusterSize = metaOffset cfg used + (c / cfg.refcountBlockSize - used) *
      cfg.clusterSize := add_mul _ _ _
  have hin : (c / cfg.refcountBlockSize - used) * cfg.clusterSize <
      blocksClusters cfg tableSize * cfg.clusterSize :=
    mul_lt_mul_of_pos_right (by omega) hpos
  -- the blocks are one after the other, and so are the clusters that they describe
  have hcluster : (c / cfg.refcountBlockSize - used) * cfg.refcountBlockSize +
      c % cfg.refcountBlockSize = c - used * cfg.refcountBlockSize := by
    have hdiv := div_add_mod c cfg.refcountBlockSize
    rw [mul_comm] at hdiv
    rw [Nat.sub_mul]
    have hmul := mul_le_mul_right cfg.refcountBlockSize hle
    omega
  rw [hoff]
  show (if _ ∧ _ then _ else _) = _
  rw [if_pos ⟨by omega, by omega⟩, Nat.add_sub_cancel_left, Nat.mul_div_cancel _ hpos, hcluster]
  have hiff : c - used * cfg.refcountBlockSize <
      tableClusters cfg tableSize + blocksClusters cfg tableSize ↔ InMeta cfg used tableSize c := by
    unfold InMeta
    omega
  simp only [hiff]

theorem RefImage.isTable_switchTable :
    (img.switchTable cfg index (b * cfg.clusterSize) used tableSize).IsTable cfg c ↔
      used * cfg.refcountBlockSize + blocksClusters cfg tableSize ≤ c ∧
        c < used * cfg.refcountBlockSize + blocksClusters cfg tableSize +
          tableClusters cfg tableSize := by
  have hoff : (img.switchTable cfg index (b * cfg.clusterSize) used tableSize).refcountTableOffset =
      (used * cfg.refcountBlockSize + blocksClusters cfg tableSize) * cfg.clusterSize :=
    (add_mul _ _ _).symm
  unfold RefImage.IsTable tableEnd tableFirst
  rw [hoff, Nat.mul_div_cancel _ (clusterSize_pos _)]
  rfl

namespace TableFits

variable (hf : TableFits cfg img index b used tableSize)
include hf

theorem size_le : img.refcountTableSize * cfg.refcountBlockSize ≤ used * cfg.refcountBlockSize :=
  mul_le_mul_right _ (le_of_lt (lt_of_le_of_lt hf.index_ge hf.index_lt))

theorem ne_zero (k : Nat) : (used * cfg.refcountBlockSize + k) * cfg.clusterSize ≠ 0 := by
  have hpos := mul_pos (lt_of_le_of_lt (zero_le _) hf.index_lt) (refcountBlockSize_pos cfg)
  exact mul_clusterSize_ne_zero _ (ne_of_gt (Nat.add_pos_left hpos k))

/-- The new clusters have been free. -/
theorem free (h : ImageOk cfg img n) (hc : InMeta cfg used tableSize c) :
    n c = 0 ∧ img.metaCount cfg c = 0 :=
  h.of_free (refcount_of_ge (le_trans hf.size_le hc.1))

theorem blockOffset_switchTable (i : Nat) :
    (img.switchTable cfg index (b * cfg.clusterSize) used tableSize).blockOffset i =
      if used ≤ i ∧ i < used + blocksClusters cfg tableSize then
        (used * cfg.refcountBlockSize + (i - used)) * cfg.clusterSize
      else if i = index then b * cfg.clusterSize else img.blockOffset i := by
  have hfits := hf.fits
  have hlt := hf.index_lt
  have hge := hf.index_ge
  unfold blockOffset switchTable
  dsimp only
  by_cases hmeta : used ≤ i ∧ i < used + blocksClusters cfg tableSize
  · rw [if_pos hmeta, if_pos hmeta, if_pos (by omega), metaOffset, ← add_mul, mask_cluster]
  rw [if_neg hmeta, if_neg hmeta]
  by_cases hi : i = index
  · rw [if_pos hi, if_pos hi, if_pos (by omega), mask_cluster]
  rw [if_neg hi, if_neg hi]
  by_cases hold : i < img.refcountTableSize
  · rw [if_pos hold, if_pos hold, if_pos (by omega)]
  · split <;> rfl

theorem extends_switchTable :
    img.Extends (img.switchTable cfg index (b * cfg.clusterSize) used tableSize) := by
  intro i hi
  have hlt := lt_of_blockOffset hi
  have hge := hf.index_ge
  have hindex := hf.index_lt
  rw [hf.blockOffset_switchTable, if_neg (by omega), if_neg (by omega)]

theorem refcount_switchTable (h : ImageOk cfg img m) (hb : b ≠ 0) (c : Nat) :
    (img.switchTable cfg index (b * cfg.clusterSize) used tableSize).refcount cfg c =
      if InMeta cfg used tableSize c then 1 else if c / cfg.refcountBlockSize = index then
        img.refcountBlocks (b * cfg.clusterSize) (c % cfg.refcountBlockSize)
      else img.refcount cfg c := by
  have hrpos := refcountBlockSize_pos cfg
  have hindex := hf.index_lt
  have hindexMeta : c / cfg.refcountBlockSize < used → ¬InMeta cfg used tableSize c := by
    intro hlt hmeta
    exact not_lt.2 ((le_div_iff_mul_le hrpos).2 hmeta.1) hlt
  unfold refcount
  rw [hf.blockOffset_switchTable]
  by_cases hnew : used ≤ c / cfg.refcountBlockSize ∧
      c / cfg.refcountBlockSize < used + blocksClusters cfg tableSize
  · have hge : used * cfg.refcountBlockSize ≤ c := (le_div_iff_mul_le hrpos).1 hnew.1
    rw [if_pos hnew, if_neg (hf.ne_zero _), refcountBlocks_meta hge hnew.2]
    by_cases hmeta : InMeta cfg used tableSize c
    · rw [if_pos hmeta, if_pos hmeta]
    · have hold := refcount_of_ge (le_trans hf.size_le hge)
      unfold refcount at hold
      rw [if_neg hmeta, if_neg hmeta, if_neg (by omega), hold]
  have hmeta : ¬InMeta cfg used tableSize c := by
    by_cases hlt : c / cfg.refcountBlockSize < used
    · exact hindexMeta hlt
    intro hmeta
    have hge : used + blocksClusters cfg tableSize ≤ c / cfg.refcountBlockSize := by omega
    have hmul := (le_div_iff_mul_le hrpos).1 hge
    rw [add_mul] at hmul
    exact Nat.not_lt.2 (Nat.le_trans (Nat.add_le_add_left hf.room _) hmul) hmeta.2
  rw [if_neg hnew, if_neg hmeta]
  by_cases hi : c / cfg.refcountBlockSize = index
  · rw [if_pos hi, if_pos hi, if_neg (mul_clusterSize_ne_zero _ hb),
      refcountBlocks_switchTable hf.block_lt]
  rw [if_neg hi, if_neg hi]
  by_cases hzero : img.blockOffset (c / cfg.refcountBlockSize) = 0
  · rw [if_pos hzero, if_pos hzero]
  have hused := h.refcount_block hzero
  have hlt : img.blockOffset (c / cfg.refcountBlockSize) / cfg.clusterSize <
      used * cfg.refcountBlockSize := by
    by_contra hge
    exact hused (refcount_of_ge (le_trans hf.size_le (not_lt.1 hge)))
  have hkeep := @refcountBlocks_switchTable cfg img _ b index used tableSize hlt
    (c % cfg.refcountBlockSize)
  rw [Nat.div_mul_cancel (dvd_of_mod_eq_zero (h.aligned _))] at hkeep
  rw [if_neg hzero, if_neg hzero, hkeep]

theorem isBlock_switchTable (hb : b ≠ 0) :
    (img.switchTable cfg index (b * cfg.clusterSize) used tableSize).IsBlock cfg c ↔
      img.IsBlock cfg c ∨ c = b ∨ used * cfg.refcountBlockSize ≤ c ∧
        c < used * cfg.refcountBlockSize + blocksClusters cfg tableSize := by
  have hpos := clusterSize_pos cfg.toQcow2Config
  have hfits := hf.fits
  have hlt := hf.index_lt
  constructor
  · rintro ⟨hne, i, -, hoff⟩
    rw [hf.blockOffset_switchTable] at hoff
    split at hoff
    · have hc := eq_of_mul_eq_mul_right hpos hoff
      exact .inr (.inr (by omega))
    split at hoff
    · exact .inr (.inl (eq_of_mul_eq_mul_right hpos hoff).symm)
    · refine .inl ⟨hne, i, lt_of_blockOffset ?_, hoff⟩
      rw [hoff]
      exact mul_clusterSize_ne_zero _ hne
  · rintro (hc | rfl | ⟨hle, hhi⟩)
    · exact hf.extends_switchTable.isBlock hc
    · refine ⟨hb, index, by show index < tableSize; omega, ?_⟩
      rw [hf.blockOffset_switchTable, if_neg (by omega), if_pos rfl]
    have hrpos := mul_pos (lt_of_le_of_lt (zero_le _) hlt) (refcountBlockSize_pos cfg)
    refine ⟨by omega, used + (c - used * cfg.refcountBlockSize), ?_, ?_⟩
    · show _ < tableSize
      omega
    · rw [hf.blockOffset_switchTable, if_pos (by omega), Nat.add_sub_cancel_left,
        Nat.add_sub_cancel' hle]

/-- What is metadata with the new table; the clusters of the old one are not. -/
theorem metaCount_switchTable (h : ImageOk cfg img m) (hb : b ≠ 0)
    (hnot : ∀ i, img.blockOffset i ≠ b * cfg.clusterSize) : (if img.IsTable cfg c then 1 else 0) +
        (img.switchTable cfg index (b * cfg.clusterSize) used tableSize).metaCount cfg c =
      if InMeta cfg used tableSize c then 1 else img.metaCount cfg c + if c = b then 1 else 0 := by
  have hblock := hf.block_lt
  by_cases hmeta : InMeta cfg used tableSize c
  · obtain ⟨-, hzero⟩ := hf.free h hmeta
    have hc : c ≠ b := by
      rintro rfl
      exact not_lt.2 hmeta.1 hblock
    obtain ⟨hheader, holdBlock, holdTable⟩ := metaCount_eq_zero.1 hzero
    rw [if_pos hmeta, if_neg holdTable]
    simp only [metaCount, hf.isBlock_switchTable hb, isTable_switchTable, hheader,
      holdBlock, hc, false_or, if_false]
    obtain ⟨hlo, hhi⟩ := hmeta
    split <;> split <;> omega
  · have hnoBlock : ¬(used * cfg.refcountBlockSize ≤ c ∧
        c < used * cfg.refcountBlockSize + blocksClusters cfg tableSize) := by
      intro hin
      exact hmeta ⟨hin.1, by omega⟩
    have hnoTable : ¬(used * cfg.refcountBlockSize + blocksClusters cfg tableSize ≤ c ∧
        c < used * cfg.refcountBlockSize + blocksClusters cfg tableSize +
          tableClusters cfg tableSize) := by
      intro hin
      exact hmeta ⟨by omega, by omega⟩
    rw [if_neg hmeta]
    simp only [metaCount, hf.isBlock_switchTable hb, isTable_switchTable, hnoBlock,
      hnoTable, or_false, if_false]
    by_cases hc : c = b
    · subst hc
      simp only [not_isBlock hnot, false_or, if_true, if_false]
      omega
    · simp only [hc, or_false, if_false]
      omega

end TableFits

theorem raised_table (n : Nat → Nat) (c : Nat) :
    raised n (img.tableFirst cfg) (img.tableEnd cfg) 1 c =
      n c + if img.IsTable cfg c then 1 else 0 := by
  by_cases h : img.IsTable cfg c
  · rw [if_pos h, raised_of_mem h.1 h.2]
  · rw [if_neg h, raised_of_not_mem h, add_zero]

/-- The switch to a new table; the clusters of the old one have a use more, which is none. -/
theorem ImageOk.switchTable (h : ImageOk cfg img m) (hf : TableFits cfg img index b used tableSize)
    (hb : b ≠ 0) (hnot : ∀ i, img.blockOffset i ≠ b * cfg.clusterSize)
    (hfree : ∀ c, InMeta cfg used tableSize c → n c = 0) (hcount : CountsWith cfg img n index b) :
    ImageOk cfg (img.switchTable cfg index (b * cfg.clusterSize) used tableSize)
      (raised n (img.tableFirst cfg) (img.tableEnd cfg) 1) where
  aligned := by
    intro i
    rw [hf.blockOffset_switchTable]
    split
    · exact mul_mod_left _ _
    · split
      · exact mul_mod_left _ _
      · exact h.aligned i
  inj := by
    have hpos := clusterSize_pos cfg.toQcow2Config
    -- a block of the old table, or the new block, is not among the blocks of the new table
    have hnew : ∀ i k, k < blocksClusters cfg tableSize → (if i = index then b * cfg.clusterSize
        else img.blockOffset i) ≠ (used * cfg.refcountBlockSize + k) * cfg.clusterSize := by
      intro i k hk heq
      split at heq
      · have hbk := eq_of_mul_eq_mul_right hpos heq
        have hlt := hf.block_lt
        omega
      have hne : img.blockOffset i ≠ 0 := by
        rw [heq]
        exact hf.ne_zero k
      have hused := h.refcount_block hne
      rw [heq, Nat.mul_div_cancel _ hpos] at hused
      exact hused (refcount_of_ge (le_trans hf.size_le (le_add_right _ _)))
    intro i j
    rw [hf.blockOffset_switchTable, hf.blockOffset_switchTable]
    intro heq hne
    by_cases hi : used ≤ i ∧ i < used + blocksClusters cfg tableSize
    · rw [if_pos hi] at heq
      by_cases hj : used ≤ j ∧ j < used + blocksClusters cfg tableSize
      · rw [if_pos hj] at heq
        have := eq_of_mul_eq_mul_right hpos heq
        omega
      · rw [if_neg hj] at heq
        exact absurd heq.symm (hnew j _ (by omega))
    rw [if_neg hi] at heq hne
    by_cases hj : used ≤ j ∧ j < used + blocksClusters cfg tableSize
    · rw [if_pos hj] at heq
      exact absurd heq (hnew i _ (by omega))
    · rw [if_neg hj] at heq
      exact inj_of_new h.inj hnot heq hne
  tableAligned := by
    show (metaOffset cfg used + _ * cfg.clusterSize) % _ = 0
    rw [metaOffset, ← add_mul]
    exact mul_mod_left _ _
  counts := by
    intro c
    have hmeta := hf.metaCount_switchTable h hb hnot (c := c)
    rw [hf.refcount_switchTable h hb, raised_table, add_assoc, hmeta]
    by_cases hin : InMeta cfg used tableSize c
    · rw [if_pos hin, if_pos hin, hfree c hin]
    · rw [if_neg hin, if_neg hin]
      exact hcount c

/-! ## The size of the new table -/

theorem le_nextTableClusters {minClusters fuel clusters : Nat} (h1 : 1 ≤ clusters)
    (hfuel : minClusters ≤ clusters + fuel) :
    minClusters ≤ nextTableClusters minClusters fuel clusters := by
  fun_induction nextTableClusters minClusters fuel clusters with
  | case1 => exact hfuel
  | case2 _ _ _ ih => exact ih (by omega) (by omega)
  | case3 => omega

theorem self_le_nextTableClusters (minClusters fuel clusters : Nat) :
    clusters ≤ nextTableClusters minClusters fuel clusters := by
  fun_induction nextTableClusters minClusters fuel clusters with
  | case2 _ _ _ ih => exact le_trans (by omega) ih
  | _ => exact le_refl _

theorem nextTableClusters_mono {m m' fuel fuel' clusters : Nat} (h : m ≤ m') (h1 : 1 ≤ clusters)
    (hfuel : m' ≤ clusters + fuel') :
    nextTableClusters m fuel clusters ≤ nextTableClusters m' fuel' clusters := by
  fun_induction nextTableClusters m fuel clusters generalizing fuel' with
  | case2 fuel clusters hlt ih =>
    obtain ⟨k, rfl⟩ : ∃ k, fuel' = k + 1 := ⟨fuel' - 1, by omega⟩
    rw [nextTableClusters, if_pos (by omega)]
    exact ih (by omega) (by omega)
  | _ => exact self_le_nextTableClusters _ _ _

theorem nextTableClusters_le (m fuel clusters : Nat) :
    nextTableClusters m fuel clusters ≤ max clusters (3 * (m - 1) / 2 + 1) := by
  fun_induction nextTableClusters m fuel clusters with
  | case2 _ _ _ ih => exact ih.trans (by omega)
  | _ => exact le_max_left _ _

/-- The clusters that a table of `c` clusters has when it has grown `k` times. -/
def grownClusters (c k : Nat) : Nat := (fun a => (a * 3 + 1) / 2)^[k] c

theorem grownClusters_succ (c k : Nat) :
    grownClusters c (k + 1) = (grownClusters c k * 3 + 1) / 2 :=
  Function.iterate_succ_apply' _ _ _

theorem grownClusters_mono (c : Nat) : Monotone (grownClusters c) := by
  refine monotone_nat_of_le_succ fun k => ?_
  rw [grownClusters_succ]
  omega

/-- A table that has grown has done so from a size that was too small. -/
theorem nextTableClusters_grown (m fuel clusters : Nat) :
    nextTableClusters m fuel clusters = clusters ∨ ∃ k, grownClusters clusters k < m ∧
      nextTableClusters m fuel clusters = grownClusters clusters (k + 1) := by
  fun_induction nextTableClusters m fuel clusters with
  | case2 fuel clusters hlt ih =>
    rcases ih with heq | ⟨k, hk, heq⟩
    · exact .inr ⟨0, hlt, heq⟩
    · exact .inr ⟨k + 1, hk, heq⟩
  | _ => exact .inl rfl

theorem nextTableClusters_le_grown {m k clusters : Nat} (h : m ≤ grownClusters clusters k)
    (fuel : Nat) : nextTableClusters m fuel clusters ≤ grownClusters clusters k := by
  fun_induction nextTableClusters m fuel clusters generalizing k with
  | case2 fuel clusters hlt ih =>
    cases k with
    | zero => exact absurd hlt (not_lt.2 h)
    | succ k => exact ih h
  | _ => exact grownClusters_mono _ (zero_le k)

theorem lt_nextRefcountTableSize (cfg : RefcountConfig) (img : RefImage) (minSize : Nat) :
    minSize < nextRefcountTableSize cfg img minSize := by
  have hpos : 0 < 2 ^ (cfg.clusterBits - 3) := Nat.two_pow_pos _
  have hle := @le_nextTableClusters (minSize / 2 ^ (cfg.clusterBits - 3) + 1)
    (minSize / 2 ^ (cfg.clusterBits - 3) + 1)
    (max 1 (img.refcountTableSize / 2 ^ (cfg.clusterBits - 3))) (le_max_left _ _)
    (le_add_left _ _)
  calc minSize < (minSize / 2 ^ (cfg.clusterBits - 3) + 1) * 2 ^ (cfg.clusterBits - 3) :=
        lt_mul_of_div_lt (lt_succ_self _) hpos
    _ ≤ nextRefcountTableSize cfg img minSize := mul_le_mul_right _ hle

/-- The loop ends with a size for which there is place for the new blocks. -/
theorem fits_of_round (h : tableSize = tableSizeRound cfg img used tableSize) :
    used + blocksClusters cfg tableSize ≤ tableSize := by
  have hlt : used + (tableClusters cfg tableSize + blocksClusters cfg tableSize +
      cfg.refcountBlockSize - 1) / cfg.refcountBlockSize < tableSize := by
    conv_rhs => rw [h]
    exact lt_nextRefcountTableSize _ _ _
  have hmono : (tableClusters cfg tableSize + cfg.refcountBlockSize - 1) / cfg.refcountBlockSize ≤
      (tableClusters cfg tableSize + blocksClusters cfg tableSize + cfg.refcountBlockSize - 1) /
        cfg.refcountBlockSize := Nat.div_le_div_right (by omega)
  unfold blocksClusters at hlt hmono ⊢
  omega

theorem wp_newTableSize (cfg : RefcountConfig) (img : RefImage) (used fuel : Nat) (s : RefState) :
    Prog.wp (newTableSize cfg img used fuel)
      (fun tableSize s' => tableSize = tableSizeRound cfg img used tableSize ∧ s' = s)
      (fun _ _ => False) (fun s' => s' = s) s := by
  refine Prog.wp_iterate (fun _ s' => s' = s) (fun _ _ h => h) ?_ fuel rfl
  rintro tableSize s' rfl
  exact Prog.wp_ite (fun heq => ⟨heq, rfl⟩) fun _ => rfl

theorem le_blocksUsed (cfg : RefcountConfig) (c b : Nat) :
    max (c + 1) (b + 1) ≤ blocksUsed cfg c (b * cfg.clusterSize) * cfg.refcountBlockSize := by
  have hpos := refcountBlockSize_pos cfg
  unfold blocksUsed
  rw [Nat.mul_div_cancel _ (clusterSize_pos _)]
  have hlt := lt_div_mul_add (a := max (c + 1) (b + 1) + cfg.refcountBlockSize - 1) hpos
  omega

/-- The new table has a place for the block that it has been made for. -/
theorem tableFits_of_size (hsize : img.refcountTableSize ≤ c / cfg.refcountBlockSize)
    (hfits : blocksUsed cfg c (b * cfg.clusterSize) + blocksClusters cfg tableSize ≤ tableSize)
    (hroom : tableClusters cfg tableSize + blocksClusters cfg tableSize ≤
      blocksClusters cfg tableSize * cfg.refcountBlockSize) :
    TableFits cfg img (c / cfg.refcountBlockSize) b (blocksUsed cfg c (b * cfg.clusterSize))
      tableSize where
  index_ge := hsize
  index_lt := (div_lt_iff_lt_mul (refcountBlockSize_pos cfg)).2
    (lt_of_lt_of_le (lt_of_lt_of_le (lt_succ_self c) (le_max_left _ _))
      (le_blocksUsed cfg c b))
  block_lt := lt_of_lt_of_le (lt_of_lt_of_le (lt_succ_self b) (le_max_right _ _))
    (le_blocksUsed cfg c b)
  fits := hfits
  room := hroom

end grow

/-! ## The loop that computes the size -/

section size

variable {used t t' m m' e : Nat}

theorem nextRefcountTableSize_mono (h : m ≤ m') :
    nextRefcountTableSize cfg img m ≤ nextRefcountTableSize cfg img m' :=
  mul_le_mul_right _ (nextTableClusters_mono (Nat.add_le_add_right (Nat.div_le_div_right h) 1)
    (le_max_left _ _) (le_add_left _ _))

theorem nextRefcountTableSize_le (h : img.refcountTableSize ≤ m) (he : 0 < e)
    (hle : e ≤ 2 ^ (cfg.clusterBits - 3)) :
    nextRefcountTableSize cfg img m ≤ (3 * (m / e) / 2 + 1) * 2 ^ (cfg.clusterBits - 3) := by
  refine mul_le_mul_right _ ((nextTableClusters_le _ _ _).trans ?_)
  have hsize := Nat.div_le_div_right (c := 2 ^ (cfg.clusterBits - 3)) h
  have hdiv : m / 2 ^ (cfg.clusterBits - 3) ≤ m / e := div_le_div_left hle he
  omega

section

variable (cfg)

theorem tableClusters_mul (k : Nat) : tableClusters cfg (k * 2 ^ (cfg.clusterBits - 3)) = k := by
  have hbits : 3 ≤ cfg.clusterBits := le_trans (by decide) cfg.minClusterBits
  unfold tableClusters
  rw [mul_assoc, Nat.pow_sub_mul_pow 2 hbits]
  exact sizeToClusters_mul _ k

theorem tableClusters_mono (h : t ≤ t') : tableClusters cfg t ≤ tableClusters cfg t' :=
  Nat.div_le_div_right (by omega)

theorem blocksClusters_pos (t : Nat) : 0 < blocksClusters cfg t := Nat.add_pos_left one_pos _

theorem lt_add_metadata (used t : Nat) : used < used + (tableClusters cfg t +
      blocksClusters cfg t + cfg.refcountBlockSize - 1) / cfg.refcountBlockSize := by
  have hblocks := blocksClusters_pos cfg t
  exact Nat.lt_add_of_pos_right (Nat.div_pos (by omega) (refcountBlockSize_pos cfg))

theorem blocksClusters_mono (h : t ≤ t') : blocksClusters cfg t ≤ blocksClusters cfg t' := by
  have htable := tableClusters_mono cfg h
  exact Nat.add_le_add_left (Nat.div_le_div_right (by omega)) 1

end

theorem tableSizeRound_mono (h : t ≤ t') :
    tableSizeRound cfg img used t ≤ tableSizeRound cfg img used t' := by
  have htable := tableClusters_mono cfg h
  have hblocks := blocksClusters_mono cfg h
  exact nextRefcountTableSize_mono (Nat.add_le_add_left (Nat.div_le_div_right (by omega)) _)

theorem ceil_le_self (a : Nat) {r : Nat} (hr : 0 < r) : (a + r - 1) / r ≤ a := by
  rw [← Nat.lt_succ_iff, div_lt_iff_lt_mul hr, succ_mul]
  have := Nat.le_mul_of_pos_right a hr
  omega

/-- A round does not need many more clusters than the last one. -/
theorem tableSizeRound_le (hsize : img.refcountTableSize ≤ used) (he : 0 < e)
    (hle : e ≤ 2 ^ (cfg.clusterBits - 3)) : tableSizeRound cfg img used t ≤
      (3 * ((used + 2 * tableClusters cfg t + 1) / e) / 2 + 1) * 2 ^ (cfg.clusterBits - 3) := by
  have hpos := refcountBlockSize_pos cfg
  have hmeta := ceil_le_self (tableClusters cfg t + blocksClusters cfg t) hpos
  have hblocks := ceil_le_self (tableClusters cfg t) hpos
  refine (nextRefcountTableSize_mono ?_).trans (nextRefcountTableSize_le (by omega) he hle)
  unfold blocksClusters at hmeta ⊢
  omega

/-- The loop that computes the size of the table ends with `t`. -/
def SizedTo (cfg : RefcountConfig) (img : RefImage) (used t : Nat) : Prop :=
  ∃ fuel, ∀ s, newTableSize cfg img used fuel s = (.ok t, s)

theorem SizedTo.least (h : SizedTo cfg img used t) : t = tableSizeRound cfg img used t ∧
    ∀ u, tableSizeRound cfg img used u ≤ u → t ≤ u := by
  obtain ⟨fuel, hrun⟩ := h
  have hwp : Prog.wp (newTableSize cfg img used fuel) (fun t _ =>
      t = tableSizeRound cfg img used t ∧ ∀ u, tableSizeRound cfg img used u ≤ u → t ≤ u)
      (fun _ _ => False) (fun _ => True) ⟨img, 0, 0, false, [], [], []⟩ := by
    refine Prog.wp_iterate (fun t _ => ∀ u, tableSizeRound cfg img used u ≤ u → t ≤ u)
      (fun _ _ _ => trivial) ?_ fuel fun u hu => ?_
    · intro t s hleast
      exact Prog.wp_ite (fun heq => ⟨heq, hleast⟩) fun _ u hu =>
        (tableSizeRound_mono (hleast u hu)).trans hu
    · exact (nextRefcountTableSize_mono (lt_add_metadata cfg used u)).trans hu
  unfold Prog.wp at hwp
  rwa [hrun] at hwp

/-- The clusters that a table needs, for the blocks in use and for its metadata, if it has `c`. -/
def neededClusters (cfg : RefcountConfig) (used c : Nat) : Nat :=
  (used + (c + (1 + (c + cfg.refcountBlockSize - 1) / cfg.refcountBlockSize) +
    cfg.refcountBlockSize - 1) / cfg.refcountBlockSize) / 2 ^ (cfg.clusterBits - 3) + 1

/-- The clusters of the table are grown from those it had. -/
theorem SizedTo.clusters (h : SizedTo cfg img used t) : ∃ m, tableClusters cfg t =
    nextTableClusters m m (max 1 (img.refcountTableSize / 2 ^ (cfg.clusterBits - 3))) ∧
      m = neededClusters cfg used (tableClusters cfg t) ∧ m ≤ tableClusters cfg t := by
  have hround := (congrArg (tableClusters cfg) h.least.1).trans (tableClusters_mul cfg _)
  exact ⟨_, hround, rfl,
    (le_nextTableClusters (le_max_left 1 _) (le_add_left _ _)).trans_eq hround.symm⟩

/-- The table has one cluster, or it has grown from clusters that were too few. -/
theorem SizedTo.grown (h : SizedTo cfg img used t) (hlt : img.refcountTableSize < used) :
    tableClusters cfg t ≤ 1 ∨ ∃ k,
      let c := grownClusters (max 1 (img.refcountTableSize / 2 ^ (cfg.clusterBits - 3)))
      c k < neededClusters cfg used (c k) ∧ tableClusters cfg t = c (k + 1) := by
  obtain ⟨m, heq, hm, hle⟩ := h.clusters
  rcases nextTableClusters_grown m m _ with hfirst | ⟨k, hk, hgrown⟩
  · left
    have hdiv : img.refcountTableSize / 2 ^ (cfg.clusterBits - 3) < m :=
      hm ▸ lt_succ_of_le (Nat.div_le_div_right (hlt.le.trans (le_add_right _ _)))
    rw [heq, hfirst] at hle ⊢
    omega
  refine .inr ⟨k, ?_, heq.trans hgrown⟩
  by_contra hge
  -- otherwise the clusters were enough, and the table would not have grown
  have hmono := tableClusters_mono cfg (h.least.2 (_ * 2 ^ (cfg.clusterBits - 3))
    (mul_le_mul_right _ (nextTableClusters_le_grown (by
      rw [blocksClusters, tableClusters_mul]
      exact not_lt.1 hge) _)))
  rw [tableClusters_mul] at hmono
  exact absurd (hk.trans_le hle) (not_lt.2 hmono)

/-- What is enough clusters stays enough if there are more. -/
theorem neededClusters_le_of_le {a b : Nat} (h : neededClusters cfg used a ≤ a) (hab : a ≤ b) :
    neededClusters cfg used b ≤ b := by
  have hr := refcountBlockSize_pos cfg
  have he : 2 ≤ 2 ^ (cfg.clusterBits - 3) :=
    le_trans (by decide) (Nat.pow_le_pow_right two_pos (Nat.sub_le_sub_right cfg.minClusterBits 3))
  unfold neededClusters at h ⊢
  generalize cfg.refcountBlockSize = r at *
  generalize 2 ^ (cfg.clusterBits - 3) = e at *
  have hadd (x d : Nat) : (x + d) / r ≤ x / r + d := by
    rw [← Nat.add_mul_div_right x d hr]
    exact Nat.div_le_div_right (Nat.add_le_add_left (Nat.le_mul_of_pos_right d hr) x)
  induction b, hab using Nat.le_induction with
  | base => exact h
  | succ b _ ih =>
    have hblocks : (b + 1 + r - 1) / r ≤ (b + r - 1) / r + 1 :=
      (Nat.div_le_div_right (by omega)).trans (hadd (b + r - 1) 1)
    have hmeta : (b + 1 + (1 + (b + 1 + r - 1) / r) + r - 1) / r ≤
        (b + (1 + (b + r - 1) / r) + r - 1) / r + 2 :=
      (Nat.div_le_div_right (by omega)).trans (hadd _ 2)
    have hle := Nat.div_le_div_right (c := e) (Nat.add_le_add_left (hmeta.trans
      (Nat.add_le_add_left he _)) used)
    rw [← Nat.add_assoc used _ e, Nat.add_div_right _ (by omega)] at hle
    omega

/-- The sizes grow from round to round up to a bound, so the loop ends. -/
theorem exists_sizedTo (cfg : RefcountConfig) (hsize : img.refcountTableSize ≤ used)
    (hused : used ≤ maxReftableSize / 8) : ∃ t, SizedTo cfg img used t := by
  have hbits : 2 ^ 6 ≤ 2 ^ (cfg.clusterBits - 3) :=
    Nat.pow_le_pow_right (by decide) (Nat.sub_le_sub_right cfg.minClusterBits 3)
  have hmax : maxReftableSize / 8 = 2 ^ 20 := by decide
  have hbound {t : Nat} (ht : t ≤ 2 ^ 15 * 2 ^ (cfg.clusterBits - 3)) :
      tableSizeRound cfg img used t ≤ 2 ^ 15 * 2 ^ (cfg.clusterBits - 3) := by
    have hclusters := tableClusters_mono cfg ht
    rw [tableClusters_mul] at hclusters
    exact (tableSizeRound_le hsize (by decide) hbits).trans (mul_le_mul_right _ (by omega))
  -- by induction on what is left to the bound
  have hloop (k : Nat) : ∀ t, t ≤ tableSizeRound cfg img used t →
      t + k = 2 ^ 15 * 2 ^ (cfg.clusterBits - 3) → ∃ t' fuel, ∀ s, Prog.iterate (fun tableSize =>
        if tableSize = tableSizeRound cfg img used tableSize then pure (.inr tableSize)
        else pure (.inl (tableSizeRound cfg img used tableSize))) fuel t s =
          ((.ok t', s) : Exit Errno Nat × RefState) := by
    induction k using Nat.strong_induction_on with
    | _ k ih =>
      intro t hle hk
      by_cases heq : t = tableSizeRound cfg img used t
      · refine ⟨t, 1, fun s => ?_⟩
        rw [Prog.iterate, if_pos heq]
        rfl
      have hnext := hbound (t := t) (by omega)
      obtain ⟨t', fuel, hrun⟩ := ih _ (by omega) (tableSizeRound cfg img used t)
        (tableSizeRound_mono hle) (Nat.add_sub_cancel' hnext)
      refine ⟨t', fuel + 1, fun s => ?_⟩
      rw [Prog.iterate, if_neg heq]
      exact hrun s
  have hstart : nextRefcountTableSize cfg img (used + 1) ≤ 2 ^ 15 * 2 ^ (cfg.clusterBits - 3) :=
    (nextRefcountTableSize_le (by omega) (by decide) hbits).trans (mul_le_mul_right _ (by omega))
  exact hloop _ _ (nextRefcountTableSize_mono (lt_add_metadata cfg used _))
    (Nat.add_sub_cancel' hstart)

/-- The blocks have room for the refcounts of a table of some size, and of themselves. -/
def RoomFor (cfg : RefcountConfig) (t : Nat) : Prop :=
  tableClusters cfg t + blocksClusters cfg t ≤ blocksClusters cfg t * cfg.refcountBlockSize

/-- The blocks for a table of `c` clusters have fewer refcounts than it and they need. -/
def Crowded (cfg : RefcountConfig) (c : Nat) : Prop :=
  (1 + (c + cfg.refcountBlockSize - 1) / cfg.refcountBlockSize) * cfg.refcountBlockSize <
    c + (1 + (c + cfg.refcountBlockSize - 1) / cfg.refcountBlockSize)

/-- A table of some size grows to one with crowded blocks: it has too few clusters for the blocks in
use and its metadata until it has grown to that. -/
def Crowds (cfg : RefcountConfig) (size used : Nat) : Prop :=
  ∃ k, let c := grownClusters (max 1 (size / 2 ^ (cfg.clusterBits - 3)))
    c k < neededClusters cfg used (c k) ∧ neededClusters cfg used (c (k + 1)) ≤ c (k + 1) ∧
      Crowded cfg (c (k + 1))

/-- The number of used blocks from which on there are tables that do.  It is in reach only if
clusters have 512 bytes and refcounts 32 or 64 bits. -/
def crowdedFrom (cfg : RefcountConfig) : Nat :=
  if cfg.clusterBits = 9 ∧ cfg.refcountOrder = 6 then 177473
  else if cfg.clusterBits = 9 ∧ cfg.refcountOrder = 5 then 704361
  else maxReftableSize / 8 + 1

/-- The blocks are not crowded when there are not more than one of them can describe. -/
theorem not_crowded_of_le {c : Nat} (h : c ≤ (cfg.refcountBlockSize - 1) * cfg.refcountBlockSize) :
    ¬Crowded cfg c := by
  have hpos := refcountBlockSize_pos cfg
  unfold Crowded
  generalize cfg.refcountBlockSize = r at *
  have hq : (c + r - 1) / r < r := by
    rw [div_lt_iff_lt_mul hpos]
    rw [Nat.sub_mul] at h
    have := Nat.le_mul_of_pos_right r hpos
    omega
  have hlt := lt_div_mul_add (a := c + r - 1) hpos
  rw [add_mul]
  omega

theorem two_pow_le_refcountBlockSize {k : Nat} (hk : k ≤ cfg.clusterBits + 3 - cfg.refcountOrder) :
    2 ^ k ≤ cfg.refcountBlockSize := Nat.pow_le_pow_right two_pos hk

theorem SizedTo.roomFor_iff (h : SizedTo cfg img used t) (hlt : img.refcountTableSize < used) :
    RoomFor cfg t ↔ ¬Crowds cfg img.refcountTableSize used := by
  obtain ⟨m, -, rfl, hle⟩ := h.clusters
  have hcrowded : RoomFor cfg t ↔ ¬Crowded cfg (tableClusters cfg t) := not_lt.symm
  have habove {a b : Nat} (ha : neededClusters cfg used a ≤ a)
      (hb : b < neededClusters cfg used b) : b < a := by
    by_contra hab
    exact absurd hb (not_lt.2 (neededClusters_le_of_le ha (not_lt.1 hab)))
  rw [hcrowded, not_iff_not]
  rcases h.grown hlt with hone | ⟨j, hsmall, hgrown⟩
  · refine iff_of_false (not_crowded_of_le (hone.trans ?_)) ?_
    · have hmin := cfg.minClusterBits
      have horder := cfg.maxRefcountOrder
      have hr := @two_pow_le_refcountBlockSize cfg 1 (by omega)
      exact Nat.mul_pos (Nat.sub_pos_of_lt hr) (refcountBlockSize_pos cfg)
    · rintro ⟨k, hsmall, -, -⟩
      exact absurd (habove hle hsmall) (not_lt.2 (hone.trans ((le_max_left 1 _).trans
        (grownClusters_mono _ (zero_le k)))))
  rw [hgrown] at hle ⊢
  refine ⟨fun hc => ⟨j, hsmall, hle, hc⟩, ?_⟩
  rintro ⟨k, hsmall', henough, hc⟩
  -- each of the two sizes is enough, so it is above the one from which the other has grown
  have hj := (grownClusters_mono _).reflect_lt (habove henough hsmall)
  have hk := (grownClusters_mono _).reflect_lt (habove hle hsmall')
  obtain rfl : j = k := by omega
  exact hc

variable {size : Nat}

section crowded

variable (hbits : cfg.clusterBits = 9)
include hbits

theorem refcountBlockSize_of_order {k : Nat} (horder : cfg.refcountOrder = k) :
    cfg.refcountBlockSize = 2 ^ (12 - k) := by
  rw [RefcountConfig.refcountBlockSize, RefcountConfig.refcountBlockBits, hbits, horder]

theorem not_crowds_64 (hblock : cfg.refcountBlockSize = 64) (hused : used < 177473)
    (hlt : size < used) : ¬Crowds cfg size used := by
  rintro ⟨k, hsmall, -, hc⟩
  rw [neededClusters, hblock, hbits] at hsmall
  rw [Crowded, hblock, grownClusters_succ, hbits] at hc
  -- the clusters from which a table has grown that is too large for its blocks
  have hfrom : grownClusters (max 1 (size / 2 ^ (9 - 3))) k = max 1 (size / 2 ^ (9 - 3)) ∨
      ∃ a, grownClusters (max 1 (size / 2 ^ (9 - 3))) k = (a * 3 + 1) / 2 := by
    cases k with
    | zero => exact .inl rfl
    | succ k => exact .inr ⟨_, grownClusters_succ _ _⟩
  generalize grownClusters _ k = c at *
  have hc : c = 2773 := by
    clear hfrom
    have hq : ((c * 3 + 1) / 2 + 64 - 1) / 64 = 64 ∨ ((c * 3 + 1) / 2 + 64 - 1) / 64 = 65 := by
      omega
    omega
  rcases hfrom with hfrom | ⟨a, hfrom⟩
  · omega
  · omega

theorem not_crowds_128 (hblock : cfg.refcountBlockSize = 128) (hused : used < 704361) :
    ¬Crowds cfg size used := by
  rintro ⟨k, hsmall, -, hc⟩
  rw [neededClusters, hblock, hbits] at hsmall
  rw [Crowded, hblock, grownClusters_succ, hbits] at hc
  generalize grownClusters _ k = c at *
  have hq : ((c * 3 + 1) / 2 + 128 - 1) / 128 = 128 := by omega
  omega

end crowded

/-- In all other configurations a table does not become large enough. -/
theorem not_crowds_of_config (h6 : ¬(cfg.clusterBits = 9 ∧ cfg.refcountOrder = 6))
    (h5 : ¬(cfg.clusterBits = 9 ∧ cfg.refcountOrder = 5)) (hused : used ≤ 2 ^ 20) :
    ¬Crowds cfg size used := by
  rintro ⟨k, hsmall, -, hc⟩
  refine not_crowded_of_le ?_ hc
  rw [grownClusters_succ]
  generalize grownClusters _ k = c at *
  have hmin := cfg.minClusterBits
  have horder := cfg.maxRefcountOrder
  have hpos := refcountBlockSize_pos cfg
  have hmeta := ceil_le_self
    (c + (1 + (c + cfg.refcountBlockSize - 1) / cfg.refcountBlockSize)) hpos
  have hblocks := ceil_le_self c hpos
  have hle {k : Nat} (hk : k ≤ cfg.clusterBits - 3) : c ≤ (used + 2 * c + 1) / 2 ^ k := by
    refine (le_of_lt_succ hsmall).trans ((Nat.div_le_div_right ?_).trans (div_le_div_left
      (Nat.pow_le_pow_right two_pos hk) (Nat.two_pow_pos k)))
    omega
  have hblock {k : Nat} (hk : k ≤ cfg.clusterBits + 3 - cfg.refcountOrder) :
      (2 ^ k - 1) * 2 ^ k ≤ (cfg.refcountBlockSize - 1) * cfg.refcountBlockSize :=
    Nat.mul_le_mul (Nat.sub_le_sub_right (two_pow_le_refcountBlockSize hk) 1)
      (two_pow_le_refcountBlockSize hk)
  by_cases hbits : cfg.clusterBits = 9
  · have h₁ := @hle 6 (by omega)
    have h₂ := @hblock 8 (by omega)
    omega
  · have h₁ := @hle 7 (by omega)
    have h₂ := @hblock 7 (by omega)
    omega

/-- Growing the table: the loop that computes its size ends, and the table has an entry for each
block that is in use and for each new one.  The new blocks have room for the refcounts of the table
and of themselves exactly if the table does not grow to one with crowded blocks.  No table does if
not too many blocks are in use. -/
theorem table_growth (cfg : RefcountConfig) :
    (∀ img used, img.refcountTableSize < used → used ≤ maxReftableSize / 8 →
      ∃ t, SizedTo cfg img used t ∧ used + blocksClusters cfg t ≤ t ∧
        (RoomFor cfg t ↔ ¬Crowds cfg img.refcountTableSize used)) ∧
    ∀ size used, size < used → used < crowdedFrom cfg → ¬Crowds cfg size used := by
  refine ⟨fun img used hlt hused => ?_, fun size used hlt hcrowded => ?_⟩
  · obtain ⟨t, ht⟩ := exists_sizedTo cfg hlt.le hused
    exact ⟨t, ht, fits_of_round ht.least.1, ht.roomFor_iff hlt⟩
  · unfold crowdedFrom at hcrowded
    split_ifs at hcrowded with h6 h5
    · exact not_crowds_64 h6.1 (refcountBlockSize_of_order h6.1 h6.2) hcrowded hlt
    · exact not_crowds_128 h5.1 (refcountBlockSize_of_order h5.1 h5.2) hcrowded
    · exact not_crowds_of_config h6 h5 (le_of_lt_succ hcrowded)

/-- Clusters of 512 bytes, refcounts of 64 bits, and discards that are passed on. -/
def smallClusters : RefcountConfig where
  clusterBits := 9
  encrypted := false
  minClusterBits := by decide
  refcountOrder := 6
  discardPassthrough := fun type => type ≠ .never
  maxRefcountOrder := by decide
  passthroughNever := by decide

theorem table_growth_smallClusters : ∃ img used t, img.refcountTableSize < used ∧
    used ≤ maxReftableSize / 8 ∧ SizedTo smallClusters img used t ∧
      ¬RoomFor smallClusters t := by
  obtain ⟨t, ht⟩ : ∃ t, SizedTo smallClusters ⟨0, 177472, 0, 0⟩ 177473 t :=
    exists_sizedTo smallClusters (by decide) (by decide)
  have hcrowds : Crowds smallClusters 177472 177473 :=
    ⟨0, by decide, by decide, by unfold Crowded; decide⟩
  refine ⟨_, _, t, by decide, by decide, ht, fun hroom => ?_⟩
  exact (ht.roomFor_iff (by decide)).1 hroom hcrowds

end size

end QemuAndroid.Qcow2
