import QemuAndroid.Qcow2.Counts

/-!
# What the functions on refcounts keep

`Inv` is what holds before and after each of these functions: the refcounts count the uses of the
clusters, and, as far as a `Track` asks for it, no access to a refcount block fails, the metadata is
apart from all else, and the discards in the queue are of clusters that are not in use.  This module
defines it and shows that the changes that the functions make keep it.
-/

namespace QemuAndroid.Qcow2

open Lib List Nat RefImage

variable {cfg : RefcountConfig} {s s' : RefState} {n m : Nat → Nat} {c b index : Nat}

/-! ## The queue of discards -/

namespace DiscardRegion

def Has (d : DiscardRegion) (x : Nat) : Prop := d.offset ≤ x ∧ x < d.offset + d.bytes

def Aligned (cfg : RefcountConfig) (d : DiscardRegion) : Prop :=
  d.offset % cfg.clusterSize = 0 ∧ d.bytes % cfg.clusterSize = 0

/-- The bytes of `d` are those of `r` and of regions of the queue. -/
structure Made (cfg : RefcountConfig) (r : DiscardRegion) (queue : List DiscardRegion)
    (d : DiscardRegion) : Prop where
  has : ∀ x, d.Has x → r.Has x ∨ ∃ p ∈ queue, p.Has x
  aligned : r.Aligned cfg → (∀ p ∈ queue, p.Aligned cfg) → d.Aligned cfg

variable {r p d d' : DiscardRegion} {queue queue' : List DiscardRegion}

theorem Made.refl : Made cfg r queue r := ⟨fun _ => .inl, fun h _ => h⟩

theorem Made.mono (h : Made cfg r queue d) (hsub : queue ⊆ queue') : Made cfg r queue' d :=
  ⟨fun x hx => (h.has x hx).imp_right fun ⟨p, hp, hpx⟩ => ⟨p, hsub hp, hpx⟩,
    fun hr hq => h.aligned hr fun p hp => hq p (hsub hp)⟩

theorem Made.trans (h : Made cfg r queue d) (h' : Made cfg d queue d') : Made cfg r queue d' :=
  ⟨fun x hx => (h'.has x hx).elim (h.has x) .inr, fun hr hq => h'.aligned (h.aligned hr hq) hq⟩

/-- Nothing lies between two adjacent regions. -/
theorem Made.join (hadj : max (r.offset + r.bytes) (p.offset + p.bytes) =
      min r.offset p.offset + (r.bytes + p.bytes)) :
    Made cfg r (p :: queue) ⟨min r.offset p.offset, r.bytes + p.bytes⟩ := by
  refine ⟨?_, fun hr hq => ⟨?_, ?_⟩⟩
  · rintro x ⟨hlo, hhi⟩
    dsimp only at hlo hhi
    have hin : r.Has x ∨ p.Has x := by
      unfold Has
      omega
    exact hin.imp_right fun hp => ⟨p, mem_cons_self, hp⟩
  · rcases min_choice r.offset p.offset with h | h
    · rw [h, hr.1]
    · rw [h, (hq p mem_cons_self).1]
  · rw [add_mod, hr.2, (hq p mem_cons_self).2]
    exact zero_mod _

end DiscardRegion

open DiscardRegion

variable {queue : List DiscardRegion}

variable {d r : DiscardRegion}

section

variable (cfg)

/-- What a region that extends one of the queue stands for. -/
theorem extendDiscard_spec {before after : List DiscardRegion}
    (h : extendDiscard r queue = some (before, d, after)) :
    before ⊆ queue ∧ after ⊆ queue ∧ Made cfg r queue d := by
  induction queue generalizing before with
  | nil =>
    obtain ⟨rfl, rfl, rfl⟩ : before = [] ∧ d = r ∧ after = [] := by
      simpa [extendDiscard, eq_comm] using h
    exact ⟨nil_subset _, nil_subset _, .refl⟩
  | cons p ps ih =>
    rw [extendDiscard] at h
    split at h
    · split at h
      · rename_i hsum
        obtain ⟨rfl, rfl, rfl⟩ : before = [] ∧ d = _ ∧ after = ps := by
          simpa [eq_comm] using h
        refine ⟨nil_subset _, subset_cons_self p _, ?_⟩
        rw [← hsum, add_comm p.bytes]
        exact .join (by omega)
      · cases h
    obtain ⟨⟨before', d', after'⟩, hrec, heq⟩ := Option.map_eq_some_iff.1 h
    obtain ⟨rfl, rfl, rfl⟩ : p :: before' = before ∧ d' = d ∧ after' = after := by
      simpa using heq
    obtain ⟨hb, ha, hd⟩ := ih hrec
    exact ⟨cons_subset_cons p hb, subset_cons_of_subset p ha, hd.mono (subset_cons_self p ps)⟩

/-- What a region into which others have been merged stands for. -/
theorem mergeDiscards_spec {d' : DiscardRegion} {ps ps' : List DiscardRegion}
    (h : mergeDiscards d ps = some (d', ps')) : ps' ⊆ ps ∧ Made cfg d ps d' := by
  induction ps generalizing d ps' with
  | nil =>
    obtain ⟨rfl, rfl⟩ : d' = d ∧ ps' = [] := by simpa [mergeDiscards, eq_comm] using h
    exact ⟨nil_subset _, .refl⟩
  | cons p ps ih =>
    have hcons := subset_cons_self p ps
    rw [mergeDiscards] at h
    split at h
    · obtain ⟨⟨d₁, ps₁⟩, hrec, heq⟩ := Option.map_eq_some_iff.1 h
      obtain ⟨rfl, rfl⟩ : d₁ = d' ∧ p :: ps₁ = ps' := by simpa using heq
      exact ⟨cons_subset_cons p (ih hrec).1, (ih hrec).2.mono hcons⟩
    split at h
    · have hjoin : Made cfg d (p :: ps) ⟨min d.offset p.offset, d.bytes + p.bytes⟩ :=
        .join (by omega)
      exact ⟨subset_cons_of_subset p (ih h).1, hjoin.trans ((ih h).2.mono hcons)⟩
    · cases h

/-- A new region adds its own bytes to the queue and no others. -/
theorem queueDiscard_spec {queue' : List DiscardRegion} (h : queueDiscard r queue = some queue') :
    ∀ d ∈ queue', d ∈ queue ∨ Made cfg r queue d := by
  obtain ⟨⟨before, d, after⟩, hext, h⟩ := Option.bind_eq_some_iff.1 h
  obtain ⟨⟨d₁, before'⟩, hbefore, h⟩ := Option.bind_eq_some_iff.1 h
  obtain ⟨⟨d₂, after'⟩, hafter, rfl⟩ := Option.map_eq_some_iff.1 h
  obtain ⟨hb, ha, hd⟩ := extendDiscard_spec cfg hext
  obtain ⟨hb', hd₁⟩ := mergeDiscards_spec cfg hbefore
  obtain ⟨ha', hd₂⟩ := mergeDiscards_spec cfg hafter
  intro p hp
  rcases mem_append.1 hp with hp | hp
  · exact .inl (hb (hb' hp))
  · rcases mem_cons.1 hp with rfl | hp
    · exact .inr ((hd.trans (hd₁.mono hb)).trans (hd₂.mono ha))
    · exact .inl (ha (ha' hp))

end

def Queued (cfg : RefcountConfig) (queue : List DiscardRegion) (c : Nat) : Prop :=
  ∃ d ∈ queue, d.Has (c * cfg.clusterSize)

theorem not_queued (h : queue = []) : ¬Queued cfg queue c := by
  rw [h]
  exact nofun

/-- The discard is one of whole clusters that are not in use. -/
def Discard.Safe (cfg : RefcountConfig) (d : Discard) : Prop :=
  d.sectorNum * 512 % cfg.clusterSize = 0 ∧ d.nbSectors * 512 % cfg.clusterSize = 0 ∧
    ∀ r ∈ d.refcounts, r = 0
deriving Decidable

/-- All discards so far have been safe. -/
def Logged (cfg : RefcountConfig) (s : RefState) : Prop := ∀ d ∈ s.issued, d.Safe cfg

/-- The queue consists of clusters that are not in use. -/
structure QueueOk (cfg : RefcountConfig) (s : RefState) : Prop where
  aligned : ∀ d ∈ s.discards, d.Aligned cfg
  free : ∀ c, Queued cfg s.discards c → s.img.refcount cfg c = 0 ∧ s.img.HasBlock cfg c

theorem has_cluster (h : DiscardRegion.Has ⟨b * cfg.clusterSize, cfg.clusterSize⟩
      (c * cfg.clusterSize)) : c = b := by
  obtain ⟨hlo, hhi⟩ := h
  have hle := le_of_mul_le_mul_right hlo (clusterSize_pos _)
  rw [← succ_mul] at hhi
  have hlt := lt_of_mul_lt_mul_right hhi
  omega

theorem QueueOk.discard_safe (h : QueueOk cfg s) (hd : d ∈ s.discards) :
    (s.img.discard cfg d).Safe cfg := by
  have hpos := clusterSize_pos cfg.toQcow2Config
  obtain ⟨hoff, hbytes⟩ := h.aligned d hd
  have hmask : ∀ x, x % cfg.clusterSize = 0 → x / 512 * 512 = x := fun x hx =>
    Nat.div_mul_cancel (dvd_trans (dvd_clusterSize _) (dvd_of_mod_eq_zero hx))
  refine ⟨?_, ?_, ?_⟩
  · show d.offset / 512 * 512 % _ = 0
    rw [hmask _ hoff, hoff]
  · show d.bytes / 512 * 512 % _ = 0
    rw [hmask _ hbytes, hbytes]
  intro r hr
  obtain ⟨c, hc, rfl⟩ := mem_map.1 hr
  rw [hmask _ hoff, hmask _ hbytes] at hc
  obtain ⟨hlo, hhi⟩ := mem_range'_1.1 hc
  unfold RefcountConfig.firstCluster at hlo hhi
  have hmul : d.offset / cfg.clusterSize * cfg.clusterSize = d.offset :=
    Nat.div_mul_cancel (dvd_of_mod_eq_zero hoff)
  unfold RefcountConfig.clusterCount at hhi
  split at hhi
  · omega
  have hle : c ≤ (d.offset + d.bytes - 1) / cfg.clusterSize := by
    have := Nat.div_le_div_right (c := cfg.clusterSize)
      (show d.offset ≤ d.offset + d.bytes - 1 by omega)
    omega
  refine (h.free c ⟨d, hd, ?_, ?_⟩).1
  · rw [← hmul]
    exact mul_le_mul_right _ hlo
  · have := (le_div_iff_mul_le hpos).1 hle
    omega

/-! ## The invariant -/

/-- What is tracked, and the parts of the state that stay. -/
structure Track where
  /-- no access to a refcount block fails -/
  clean : Prop
  /-- the metadata is apart from all else -/
  separate : Prop
  /-- the queue of discards is watched -/
  queue : Prop
  cacheDiscards : Bool
  freeByteOffset : Nat
  /-- an image from before, which has none but blocks of the current one -/
  base : RefImage

structure Inv (cfg : RefcountConfig) (t : Track) (n : Nat → Nat) (s : RefState) : Prop where
  image : ImageOk cfg s.img n
  grows : t.base.Extends s.img
  clean : t.clean → s.loads = []
  separate : t.separate → Separate cfg s.img n
  queue : t.queue → QueueOk cfg s
  logged : t.queue → Logged cfg s
  cacheDiscards : s.cacheDiscards = t.cacheDiscards
  freeByteOffset : s.freeByteOffset = t.freeByteOffset

/-- Without `s->cache_discards`, the queue is empty between updates. -/
def Idle (t : Track) (s : RefState) : Prop :=
  t.queue → t.cacheDiscards = false → s.discards = []

/-- What holds even where a function does not go on. -/
def Stopped (cfg : RefcountConfig) (t : Track) (s : RefState) : Prop := t.queue → Logged cfg s

/-- Refcount blocks have been accessed and `s->free_cluster_index` has changed, nothing else. -/
def Moved (s s' : RefState) : Prop :=
  ∃ loads index, s' = { s with loads := loads, freeClusterIndex := index } ∧
    (s.loads = [] → loads = [])

theorem Moved.refl (s : RefState) : Moved s s := ⟨s.loads, s.freeClusterIndex, rfl, fun h => h⟩

theorem Moved.trans {s'' : RefState} (h : Moved s s') (h' : Moved s' s'') : Moved s s'' := by
  obtain ⟨l, i, rfl, hl⟩ := h
  obtain ⟨l', i', rfl, hl'⟩ := h'
  exact ⟨l', i', rfl, fun hs => hl' (hl hs)⟩

theorem Moved.img (h : Moved s s') : s'.img = s.img := by
  obtain ⟨l, i, rfl, -⟩ := h
  rfl

theorem Moved.discards (h : Moved s s') : s'.discards = s.discards := by
  obtain ⟨l, i, rfl, -⟩ := h
  rfl

theorem Moved.loads (h : Moved s s') (hs : s.loads = []) : s'.loads = [] := by
  obtain ⟨l, i, rfl, hl⟩ := h
  exact hl hs

/-- Refcount blocks have been accessed, nothing else. -/
def Loaded (s s' : RefState) : Prop :=
  ∃ loads, s' = { s with loads := loads } ∧ (s.loads = [] → loads = [])

theorem Loaded.refl (s : RefState) : Loaded s s := ⟨s.loads, rfl, fun h => h⟩

theorem Loaded.moved (h : Loaded s s') : Moved s s' := by
  obtain ⟨l, rfl, hl⟩ := h
  exact ⟨l, s.freeClusterIndex, rfl, hl⟩

theorem Loaded.freeClusterIndex (h : Loaded s s') : s'.freeClusterIndex = s.freeClusterIndex := by
  obtain ⟨l, rfl, -⟩ := h
  rfl

section inv

variable {t : Track}

theorem Inv.stopped (h : Inv cfg t n s) : Stopped cfg t s := h.logged

theorem Inv.moved (h : Inv cfg t n s) (hs : Moved s s') : Inv cfg t n s' := by
  obtain ⟨l, i, rfl, hl⟩ := hs
  exact ⟨h.image, h.grows, fun hc => hl (h.clean hc), h.separate,
    fun hq => ⟨(h.queue hq).aligned, (h.queue hq).free⟩, h.logged, h.cacheDiscards,
    h.freeByteOffset⟩

theorem Idle.moved (h : Idle t s) (hs : Moved s s') : Idle t s' := by
  intro hq hc
  rw [hs.discards]
  exact h hq hc

theorem Inv.processed (h : Inv cfg t n s) (failed : Bool) :
    Inv cfg t n (processed cfg failed s) where
  image := h.image
  grows := h.grows
  clean := h.clean
  separate := h.separate
  queue := by
    refine fun _ => ⟨fun d hd => absurd hd not_mem_nil, ?_⟩
    rintro c ⟨d, hd, -⟩
    exact absurd hd not_mem_nil
  logged := by
    intro hq d hd
    have hmem : d ∈ s.issued ∨ d ∈ s.discards.map (s.img.discard cfg) := by
      cases failed with
      | true => exact .inl hd
      | false => exact mem_append.1 hd
    rcases hmem with hd | hd
    · exact h.logged hq d hd
    · obtain ⟨r, hr, rfl⟩ := mem_map.1 hd
      exact (h.queue hq).discard_safe hr
  cacheDiscards := h.cacheDiscards
  freeByteOffset := h.freeByteOffset

/-! ## Changes to the image -/

/-- The refcount of a cluster, set to a value. -/
def RefImage.withRefcount (cfg : RefcountConfig) (img : RefImage) (c v : Nat) : RefImage :=
  img.setRefcount (img.blockOffset (c / cfg.refcountBlockSize)) (c % cfg.refcountBlockSize) v

theorem Separate.congr {img img' : RefImage} (h : Separate cfg img n)
    (hmeta : ∀ c, img'.metaCount cfg c = img.metaCount cfg c)
    (hm : ∀ c, img.metaCount cfg c ≠ 0 → n c = 0 → m c = 0) : Separate cfg img' m := by
  intro c hc
  rw [hmeta] at hc ⊢
  obtain ⟨hone, hn⟩ := h c hc
  exact ⟨hone, hm c hc hn⟩

section

variable (h : Inv cfg t n s)
include h

/-- A change to the image that keeps its blocks. -/
theorem Inv.setImg {img : RefImage} (himg : ImageOk cfg img m) (hgrows : s.img.Extends img)
    (hsep : t.separate → Separate cfg img m)
    (hfree : t.queue → ∀ c, Queued cfg s.discards c → s.img.refcount cfg c = 0 →
      s.img.HasBlock cfg c → img.refcount cfg c = 0) : Inv cfg t m { s with img := img } := by
  refine ⟨himg, h.grows.trans hgrows, h.clean, hsep, fun hq =>
    ⟨(h.queue hq).aligned, fun c hc => ?_⟩, h.logged, h.cacheDiscards, h.freeByteOffset⟩
  obtain ⟨hzero, hblock⟩ := (h.queue hq).free c hc
  exact ⟨hfree hq c hc hzero hblock, hgrows.hasBlock hblock⟩

/-- A refcount is raised that no discard is queued for. -/
theorem Inv.raise (hblock : s.img.HasBlock cfg c) {d : Nat} (hc : m c = n c + d)
    (hm : ∀ c', c' ≠ c → m c' = n c') (hsep : t.separate → s.img.metaCount cfg c = 0)
    (hqueue : t.queue → ¬Queued cfg s.discards c) :
    Inv cfg t m { s with img := s.img.withRefcount cfg c (s.img.refcount cfg c + d) } := by
  refine h.setImg (h.image.setRefcount hblock ?_ hm) (.refl _) (fun hs => ?_)
    fun hq c' hc' hfree _ => ?_
  · rw [h.image.counts c]
    omega
  · refine (h.separate hs).congr (fun _ => metaCount_setRefcount _ _ _) ?_
    intro c' hmeta hn
    by_cases heq : c' = c
    · subst heq
      exact absurd (hsep hs) hmeta
    · rw [hm c' heq, hn]
  · rw [withRefcount, refcount_setRefcount h.image hblock, if_neg, hfree]
    rintro rfl
    exact hqueue hq hc'

/-- A refcount is lowered, and a discard is queued if it becomes 0. -/
theorem Inv.lower (hblock : s.img.HasBlock cfg c) {d : Nat} (hd : 0 < d) (hle : d ≤ n c)
    (hc : m c = n c - d) (hm : ∀ c', c' ≠ c → m c' = n c')
    (hqueue : queue = s.discards ∨ s.img.refcount cfg c = d ∧
      queueDiscard ⟨c * cfg.clusterSize, cfg.clusterSize⟩ s.discards = some queue) : Inv cfg t m
      { s with
        img := s.img.withRefcount cfg c (s.img.refcount cfg c - d)
        freeClusterIndex := index
        discards := queue } where
  image := by
    refine h.image.setRefcount hblock ?_ hm
    rw [h.image.counts c]
    omega
  grows := h.grows
  clean := h.clean
  separate := by
    intro hs
    refine (h.separate hs).congr (fun _ => metaCount_setRefcount _ _ _) ?_
    intro c' _ hn
    by_cases heq : c' = c
    · subst heq
      rw [hc, hn, Nat.zero_sub]
    · rw [hm c' heq, hn]
  queue := by
    intro hq
    obtain ⟨haligned, hfree⟩ := h.queue hq
    -- a cluster that was queued before has no refcount to lower
    have hold : ∀ c', Queued cfg s.discards c' →
        (s.img.withRefcount cfg c (s.img.refcount cfg c - d)).refcount cfg c' = 0 ∧
          s.img.HasBlock cfg c' := by
      intro c' hc'
      obtain ⟨hzero, hblock'⟩ := hfree c' hc'
      refine ⟨?_, hblock'⟩
      rw [withRefcount, refcount_setRefcount h.image hblock]
      split
      · rename_i heq
        rw [heq] at hzero
        omega
      · exact hzero
    rcases hqueue with rfl | ⟨hzero, hnew⟩
    · exact ⟨haligned, hold⟩
    have hmade := queueDiscard_spec cfg hnew
    refine ⟨fun d hd => (hmade d hd).elim (haligned d) fun hd' =>
      hd'.aligned ⟨mul_mod_left _ _, mod_self _⟩ haligned, ?_⟩
    rintro c' ⟨d, hd, hx⟩
    rcases (hmade d hd).elim (fun hq' => .inr ⟨d, hq', hx⟩) (·.has _ hx) with hself | hq'
    · rw [has_cluster hself]
      refine ⟨?_, hblock⟩
      show (s.img.setRefcount _ _ _).refcount cfg c = 0
      rw [refcount_setRefcount h.image hblock, if_pos rfl, hzero, Nat.sub_self]
    · exact hold c' hq'
  logged := h.logged
  cacheDiscards := h.cacheDiscards
  freeByteOffset := h.freeByteOffset

/-- The contents of a block that is in no table change. -/
theorem Inv.of_ne {img : RefImage} (hs : SameBlocks s.img img) :
    Inv cfg t n { s with img := img } := by
  refine h.setImg (h.image.of_ne hs) (fun i _ => hs.blockOffset i) (fun hsep => ?_)
    fun _ c _ hfree _ => ?_
  · exact (h.separate hsep).congr (hs.metaCount cfg) fun _ _ hn => hn
  · rw [hs.refcount, hfree]

end

/-- What is needed of a new block before it takes its place in a table. -/
structure Ready (cfg : RefcountConfig) (t : Track) (n : Nat → Nat) (index b : Nat) (s : RefState) :
    Prop where
  inv : Inv cfg t (withBlock cfg n index b) s
  noBlock : s.img.blockOffset index = 0
  ne_zero : b ≠ 0
  fresh : ∀ i, s.img.blockOffset i ≠ b * cfg.clusterSize
  new : NewBlock cfg s.img index b
  unused : n b = 0 ∧ s.img.metaCount cfg b = 0

theorem le_withBlock (cfg : RefcountConfig) (n : Nat → Nat) (index b c : Nat) :
    n c ≤ withBlock cfg n index b c := by
  unfold withBlock
  split
  · exact le_refl _
  · exact le_raised _ _ _ _ _

section

variable (h : Ready cfg t n index b s)
include h

/-- A cluster with a use in `n` had it without the new block. -/
theorem Ready.separate (hs : t.separate) (hc : s.img.metaCount cfg c ≠ 0) :
    s.img.metaCount cfg c = 1 ∧ n c = 0 := by
  obtain ⟨hone, hzero⟩ := h.inv.separate hs c hc
  have hle := le_withBlock cfg n index b c
  exact ⟨hone, by omega⟩

/-- The new block takes its place in the table. -/
theorem Ready.hook (hindex : index < s.img.refcountTableSize) :
    Inv cfg t n { s with img := s.img.setTable index (b * cfg.clusterSize) } := by
  refine h.inv.setImg (h.inv.image.hook hindex h.noBlock h.ne_zero h.fresh
    (h.inv.image.refcount_newBlock h.noBlock h.new)) (extends_setTable hindex h.noBlock b)
    (fun hs c hc => ?_) fun _ c _ hfree hblock => ?_
  · have hnotBlock : ¬s.img.IsBlock cfg b := by
      rintro ⟨-, i, -, hi⟩
      exact h.fresh i hi
    have hmeta := @metaCount_setTable cfg s.img c b index hindex h.noBlock h.ne_zero hnotBlock
    rw [hmeta] at hc ⊢
    by_cases hcb : c = b
    · rw [if_pos hcb, hcb, h.unused.2]
      exact ⟨rfl, h.unused.1⟩
    · rw [if_neg hcb] at hc ⊢
      exact h.separate hs hc
  · rw [refcount_setTable hindex h.ne_zero, if_neg, hfree]
    intro heq
    exact hblock (by rw [heq, h.noBlock])

/-- The new block takes its place in a new table, and the old table is to be freed. -/
theorem Ready.switchTable {used tableSize : Nat} (hf : TableFits cfg s.img index b used tableSize) :
    Inv cfg t (raised n (s.img.tableFirst cfg) (s.img.tableEnd cfg) 1)
      { s with img := s.img.switchTable cfg index (b * cfg.clusterSize) used tableSize } := by
  have hunused : ∀ c, InMeta cfg used tableSize c → n c = 0 := fun c hc =>
    eq_zero_of_le_zero ((le_withBlock cfg n index b c).trans_eq (hf.free h.inv.image hc).1)
  refine h.inv.setImg (h.inv.image.switchTable hf h.ne_zero h.fresh hunused
    (h.inv.image.refcount_newBlock h.noBlock h.new)) hf.extends_switchTable (fun hs c hc => ?_)
    fun _ c _ hfree hblock => ?_
  · have hmeta :=
      @TableFits.metaCount_switchTable cfg s.img _ c b index used tableSize hf h.inv.image h.ne_zero
        h.fresh
    -- a cluster of the new table or with the old one is metadata once, and nothing else
    have hone : (if InMeta cfg used tableSize c then 1 else s.img.metaCount cfg c + if c = b then 1
        else 0) ≠ 0 →
          (if InMeta cfg used tableSize c then 1 else s.img.metaCount cfg c + if c = b then 1
          else 0) = 1 ∧ n c = 0 := by
      split
      · exact fun _ => ⟨rfl, hunused c ‹_›⟩
      split
      · rename_i hcb
        rw [hcb, h.unused.2]
        exact fun _ => ⟨rfl, h.unused.1⟩
      · exact h.separate hs
    rw [raised_table]
    omega
  · have hlt := lt_of_blockOffset hblock
    have hindex := hf.index_ge
    have hused := hf.index_lt
    rw [hf.refcount_switchTable h.inv.image h.ne_zero, if_neg, if_neg (by omega), hfree]
    rintro ⟨hge, -⟩
    have := (le_div_iff_mul_le (refcountBlockSize_pos cfg)).2 hge
    omega

end

end inv

end QemuAndroid.Qcow2
