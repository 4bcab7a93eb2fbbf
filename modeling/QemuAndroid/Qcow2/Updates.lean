import QemuAndroid.Qcow2.Track

/-!
# Updates of refcounts

`update_refcount` and `alloc_refcount_block` call each other, and the former undoes by a call of
itself what it has done when it fails.  `updateRefcount_spec` says, by induction on the depth of
these calls, what they do to the uses of the clusters: an update that succeeds changes those of its
range, and one that fails changes none, but for clusters that it leaks.
-/

namespace QemuAndroid.Qcow2

open Lib Prog Nat

variable {cfg : RefcountConfig} {t : Track} {s s' s₁ : RefState} {n m : Nat → Nat} {c b x : Nat}

/-! ## Access to refcount blocks -/

theorem wp_loadRefcountBlock (b : Nat) (s : RefState) :
    wp (loadRefcountBlock b) (fun b' s' => b' = b ∧ Loaded s s')
      (fun _ s' => Loaded s s' ∧ s.loads ≠ []) (fun _ => False) s := by
  unfold loadRefcountBlock
  rw [wp_bind, wp_get, wp_bind, wp_modify]
  have hloaded : Loaded s { s with loads := s.loads.tail } := by
    refine ⟨s.loads.tail, rfl, fun h => ?_⟩
    rw [h]
    rfl
  cases hl : s.loads with
  | nil =>
    rw [hl] at hloaded
    exact ⟨rfl, hloaded⟩
  | cons o l =>
    rw [hl] at hloaded
    cases o with
    | none => exact ⟨rfl, hloaded⟩
    | some e => exact ⟨hloaded, by simp⟩

theorem wp_getRefcount (s : RefState) (h : ImageOk cfg s.img n) (c : Nat) :
    wp (getRefcount cfg c) (fun r s' => r = s.img.refcount cfg c ∧ Loaded s s')
      (fun _ s' => Loaded s s' ∧ s.loads ≠ []) (fun _ => False) s := by
  refine wp_ite (fun hzero => ?_) fun hblock => wp_ite (fun hoff => ?_) fun _ => ?_
  · exact ⟨(if_pos hzero).symm, Loaded.refl s⟩
  · exact absurd (h.aligned _) hoff
  · refine wp_seq (wp_loadRefcountBlock _ s) ?_ (fun _ _ hr => hr)
    rintro b s' ⟨rfl, hs'⟩
    exact ⟨(if_neg hblock).symm, hs'⟩

/-! ## The search for free clusters -/

def FreeFrom (cfg : RefcountConfig) (img : RefImage) (c count : Nat) : Prop :=
  ∀ c', c ≤ c' → c' < c + count → img.refcount cfg c' = 0

/-- What a search for clusters finds: the first ones from `s->free_cluster_index` on. -/
structure Found (cfg : RefcountConfig) (s s' : RefState) (start count c : Nat) : Prop where
  moved : Moved s s'
  next : s'.freeClusterIndex = c + count
  ge : start ≤ c
  free : FreeFrom cfg s.img c count
  first : c = start ∨ ∃ c', s.freeClusterIndex ≤ c' ∧ c' < start + count ∧ s.img.refcount cfg c' ≠ 0

variable {count d lo hi offset last : Nat} {img img' : RefImage} {current : Option (Nat × Nat)}
  {e : Errno}

theorem wp_findFree (h : ImageOk cfg s.img n) {start found : Nat} (fuel : Nat)
    (hstart : start + found = s.freeClusterIndex) (hfound : found ≤ count)
    (hfree : FreeFrom cfg s.img start found) :
    wp (findFree cfg count fuel found) (fun _ s' => ∃ c, Found cfg s s' start count c)
      (fun _ s' => Moved s s' ∧ s.loads ≠ []) (Moved s) s := by
  induction fuel generalizing s start found with
  | zero => exact Moved.refl s
  | succ fuel ih =>
    refine wp_ite (fun heq => ?_) fun hne => ?_
    · subst heq
      exact ⟨start, Moved.refl s, hstart.symm, le_refl _, hfree, .inl rfl⟩
    rw [wp_bind, wp_get, wp_bind, wp_modify, wp_bind]
    -- the cluster at `s->free_cluster_index` is looked at, and the index is behind it
    have hnext : Moved s { s with freeClusterIndex := s.freeClusterIndex + 1 } :=
      ⟨s.loads, _, rfl, fun hl => hl⟩
    refine wp_mono (wp_getRefcount { s with freeClusterIndex := s.freeClusterIndex + 1 } h _) ?_ ?_
      (fun _ => False.elim)
    · rintro r s₁ ⟨rfl, hs₁⟩
      have hmoved := hnext.trans hs₁.moved
      have hindex : s₁.freeClusterIndex = s.freeClusterIndex + 1 := hs₁.freeClusterIndex
      have himg : ImageOk cfg s₁.img n := by rwa [hmoved.img]
      -- the search goes on, from the same start or behind a cluster that is used
      have hgo : ∀ {start' found'}, start' + found' = s.freeClusterIndex + 1 → found' ≤ count →
          FreeFrom cfg s.img start' found' → start' = start ∨ start ≤ start' ∧
            s.img.refcount cfg s.freeClusterIndex ≠ 0 →
          wp (findFree cfg count fuel found') (fun _ s' => ∃ c, Found cfg s s' start count c)
            (fun _ s' => Moved s s' ∧ s.loads ≠ []) (Moved s) s₁ := by
        intro start' found' hsum hle hfree' hstart'
        refine wp_mono (ih himg (hsum.trans hindex.symm) hle (by rwa [hmoved.img])) ?_ ?_ ?_
        · rintro - s₂ ⟨c, hmoved₂, hnext₂, hge, hfree₂, hfirst⟩
          rw [hmoved.img] at hfree₂ hfirst
          refine ⟨c, hmoved.trans hmoved₂, hnext₂, by omega, hfree₂, ?_⟩
          rcases hstart' with rfl | ⟨-, hused⟩
          · exact hfirst.imp_right fun ⟨c', hlo, hhi⟩ => ⟨c', by omega, hhi⟩
          · exact .inr ⟨s.freeClusterIndex, le_refl _, by omega, hused⟩
        · rintro e s₂ ⟨hs₂, hl⟩
          exact ⟨hmoved.trans hs₂, fun h => hl (hmoved.loads h)⟩
        · intro s₂ hs₂
          exact hmoved.trans hs₂
      refine wp_ite (fun hused => ?_) fun hunused => ?_
      · exact hgo (add_zero _) (Nat.zero_le _) (fun c' hlo hhi => by omega)
          (.inr ⟨by omega, hused⟩)
      refine hgo (by omega) (by omega) (fun c' hlo hhi => ?_) (.inl rfl)
      by_cases hlast : c' = s.freeClusterIndex
      · rw [hlast]
        exact not_not.1 hunused
      · exact hfree c' hlo (by omega)
    · rintro e s₁ ⟨hs₁, hl⟩
      exact ⟨hnext.trans hs₁.moved, hl⟩

/-- What `alloc_clusters_noref` returns: clusters that are free and not queued for a discard. -/
structure Taken (cfg : RefcountConfig) (t : Track) (n : Nat → Nat) (s s' : RefState)
    (count c : Nat) : Prop where
  inv : Inv cfg t n s'
  img : s'.img = s.img
  next : s'.freeClusterIndex = c + count
  ge : s.freeClusterIndex ≤ c
  free : FreeFrom cfg s.img c count
  first : c = s.freeClusterIndex ∨ ∃ c', s.freeClusterIndex ≤ c' ∧
    c' < s.freeClusterIndex + count ∧ s.img.refcount cfg c' ≠ 0
  queue : t.queue → s'.discards = []

theorem wp_allocClustersNoref (h : Inv cfg t n s) (hidle : Idle t s) (size : Nat) :
    wp (allocClustersNoref cfg size) (fun offset s' => ∃ c, offset = c * cfg.clusterSize ∧
        Taken cfg t n s s' (cfg.sizeToClusters size) c)
      (fun e s' => Inv cfg t n s' ∧ Idle t s' ∧ (t.clean → e = .efbig)) (Stopped cfg t) s := by
  unfold allocClustersNoref
  rw [wp_bind, wp_get]
  -- the search starts from a state with an empty queue
  refine wp_seq (Q := fun _ s₁ => Inv cfg t n s₁ ∧ s₁.img = s.img ∧
    s₁.freeClusterIndex = s.freeClusterIndex ∧ (t.queue → s₁.discards = [])) ?_ ?_ fun _ _ he => he
  · refine wp_when (fun _ => ?_) fun hcache => ?_
    · exact ⟨h.processed false, rfl, rfl, fun _ => rfl⟩
    · refine ⟨h, rfl, rfl, fun hq => hidle hq ?_⟩
      rw [← h.cacheDiscards]
      exact Bool.eq_false_iff.2 hcache
  rintro - s₁ ⟨hinv, himg, hindex, hqueue⟩
  have hnone : FreeFrom cfg s₁.img s₁.freeClusterIndex 0 := by
    intro c' hlo hhi
    omega
  refine wp_seq (wp_findFree hinv.image _ (add_zero _) (Nat.zero_le _) hnone) ?_ ?_ ?_
  · rintro - s₂ ⟨c, hc⟩
    have hfree := hc.free
    have hfirst := hc.first
    have hge := hc.ge
    rw [himg] at hfree hfirst
    rw [hindex] at hfirst hge
    have htaken : Taken cfg t n s s₂ (cfg.sizeToClusters size) c :=
      ⟨hinv.moved hc.moved, hc.moved.img.trans himg, hc.next, hge, hfree, hfirst,
        fun hq => by rw [hc.moved.discards, hqueue hq]⟩
    refine wp_ite (fun _ => ?_) fun _ => ?_
    · exact ⟨htaken.inv, fun hq _ => htaken.queue hq, fun _ => rfl⟩
    · exact ⟨c, by rw [hc.next, Nat.add_sub_cancel], htaken⟩
  · rintro e s₂ ⟨hs₂, hl⟩
    refine ⟨hinv.moved hs₂, fun hq _ => ?_, fun hclean => absurd (hinv.clean hclean) hl⟩
    rw [hs₂.discards, hqueue hq]
  · intro s₂ hs₂
    exact (hinv.moved hs₂).stopped

/-! ## The update of one refcount -/

theorem refcount_eq (h : s.img.HasBlock cfg c) :
    s.img.refcountBlocks (s.img.blockOffset (c / cfg.refcountBlockSize))
      (c % cfg.refcountBlockSize) = s.img.refcount cfg c := (if_neg h).symm

theorem wp_updateEntry_raise (hblock : s.img.HasBlock cfg c) (hd : 0 < d) (type : DiscardType) :
    wp (updateEntry cfg d false type (s.img.blockOffset (c / cfg.refcountBlockSize)) c)
      (fun _ s' => s' = { s with img := s.img.withRefcount cfg c (s.img.refcount cfg c + d) })
      (fun e s' => s' = s ∧ e = .einval ∧ cfg.refcountMax < s.img.refcount cfg c + d)
      (fun _ => False) s := by
  unfold updateEntry
  rw [wp_bind, wp_get]
  dsimp only
  rw [refcount_eq hblock, newRefcount, if_neg Bool.false_ne_true]
  by_cases hmax : cfg.refcountMax < s.img.refcount cfg c + d
  · rw [if_pos hmax]
    exact ⟨rfl, rfl, hmax⟩
  rw [if_neg hmax]
  have hne : ¬s.img.refcount cfg c + d = 0 := by omega
  rw [wp_bind]
  refine wp_when (fun h => absurd h.1 hne) fun _ => ?_
  rw [wp_bind]
  refine wp_assert (fun _ => ?_) fun h => absurd (not_lt.1 hmax) h
  exact wp_when (fun h => absurd h.1 hne) fun _ => rfl

structure Lowered (cfg : RefcountConfig) (s s' : RefState) (c d : Nat) (type : DiscardType) :
    Prop where
  le : d ≤ s.img.refcount cfg c
  eq : s' = { s with
    img := s.img.withRefcount cfg c (s.img.refcount cfg c - d)
    freeClusterIndex := s'.freeClusterIndex
    discards := s'.discards }
  index : s'.freeClusterIndex = s.freeClusterIndex ∨
    s'.freeClusterIndex = c ∧ s.img.refcount cfg c = d
  queue : s'.discards = s.discards ∨ cfg.discardPassthrough type = true ∧ s.img.refcount cfg c = d ∧
      queueDiscard ⟨c * cfg.clusterSize, cfg.clusterSize⟩ s.discards = some s'.discards

theorem wp_updateEntry_lower (hblock : s.img.HasBlock cfg c) (d : Nat) (type : DiscardType) :
    wp (updateEntry cfg d true type (s.img.blockOffset (c / cfg.refcountBlockSize)) c)
      (fun _ s' => Lowered cfg s s' c d type) (fun _ s' => s' = s ∧ s.img.refcount cfg c < d)
      (fun s' => s'.issued = s.issued) s := by
  unfold updateEntry
  rw [wp_bind, wp_get]
  dsimp only
  rw [refcount_eq hblock, newRefcount, if_pos rfl]
  by_cases hlt : s.img.refcount cfg c < d
  · rw [if_pos hlt]
    exact ⟨rfl, hlt⟩
  rw [if_neg hlt]
  have hzero : s.img.refcount cfg c - d = 0 → s.img.refcount cfg c = d := by omega
  -- the last two steps go on from whatever `s->free_cluster_index` has become
  refine wp_seq (Q := fun _ s₁ => ∃ index, (index = s.freeClusterIndex ∨
    index = c ∧ s.img.refcount cfg c = d) ∧ s₁ = { s with freeClusterIndex := index }) ?_ ?_
    fun _ _ he => he
  · exact wp_when (fun h => ⟨c, .inr ⟨rfl, hzero h.1⟩, rfl⟩) fun _ => ⟨_, .inl rfl, rfl⟩
  rintro - _ ⟨index, hindex, rfl⟩
  rw [wp_bind]
  refine wp_assert (fun _ => ?_) fun _ => rfl
  refine wp_when (fun hpass => ?_) fun _ => ?_
  · unfold updateRefcountDiscard
    rw [wp_bind, wp_get]
    cases hq : queueDiscard ⟨c * cfg.clusterSize, cfg.clusterSize⟩ s.discards with
    | none => exact rfl
    | some queue =>
      exact ⟨not_lt.1 hlt, rfl, hindex, .inr ⟨hpass.2, hzero hpass.1, hq⟩⟩
  · exact ⟨not_lt.1 hlt, rfl, hindex, .inl rfl⟩

/-! ## The loop over clusters -/

/-- The current block of the loop is the one of its index. -/
def Current (img : RefImage) (current : Option (Nat × Nat)) : Prop :=
  ∀ i b, current = some (i, b) → b = img.blockOffset i ∧ b ≠ 0

theorem current_none (img : RefImage) : Current img none := nofun

/-- Where there is a block, `alloc_refcount_block` loads it. -/
theorem wp_allocRefcountBlock_load (himg : ImageOk cfg s.img n) (hblock : s.img.HasBlock cfg c)
    (fuel : Nat) (update : UpdateFn) : wp (allocRefcountBlock cfg fuel update c)
      (fun b s' => b = s.img.blockOffset (c / cfg.refcountBlockSize) ∧ Loaded s s')
      (fun _ s' => Loaded s s' ∧ s.loads ≠ []) (Loaded s) s := by
  refine wp_ite (fun _ => Loaded.refl s) fun _ => ?_
  rw [if_pos (show s.img.blockOffset (c / cfg.refcountBlockSize) ≠ 0 from hblock)]
  refine wp_ite (fun hoff => absurd (himg.aligned _) hoff) fun _ => ?_
  exact wp_mono (wp_loadRefcountBlock _ s) (fun _ _ hq => hq) (fun _ _ hr => hr) fun _ => False.elim

theorem wp_blockFor_load (himg : ImageOk cfg s.img n) (hblock : s.img.HasBlock cfg c) (fuel : Nat)
    (update : UpdateFn) (hcur : Current s.img current) :
    wp (blockFor cfg (allocRefcountBlock cfg fuel update) c current)
      (fun b s' => b = s.img.blockOffset (c / cfg.refcountBlockSize) ∧ Loaded s s')
      (fun _ s' => Loaded s s' ∧ s.loads ≠ []) (Loaded s) s := by
  have hload := wp_allocRefcountBlock_load himg hblock fuel update
  cases current with
  | none => exact hload
  | some p =>
    obtain ⟨i, b⟩ := p
    refine wp_ite (fun hi => ?_) fun _ => hload
    rw [← hi]
    exact ⟨(hcur i b rfl).1, Loaded.refl s⟩

variable {H : RefState → Prop}

/-- The invariant rule of the loop: `I c` holds before the update of the cluster `c`, and `E c` when
the loop ends there with an error. -/
theorem wp_updateClusters {alloc : Nat → RefProg Nat} {decrease : Bool} {type : DiscardType}
    (I : Nat → RefState → Prop) (E : Nat → Errno → RefState → Prop)
    (hstep : ∀ c s current, lo ≤ c → c < hi → I c s → Current s.img current →
      wp (blockFor cfg alloc c current)
        (fun b s₁ => b = s₁.img.blockOffset (c / cfg.refcountBlockSize) ∧ b ≠ 0 ∧
          wp (updateEntry cfg d decrease type b c)
            (fun _ s₂ => I (c + 1) s₂ ∧ SameTable s₁.img s₂.img) (E c) H s₁) (E c) H s)
    (hlo : lo ≤ c) (hhi : c + count = hi) (h : I c s) (hcur : Current s.img current) :
    wp (updateClusters cfg alloc d decrease type count c current) (fun r s' => match r.2 with
        | none => r.1 = hi ∧ I hi s'
        | some e => lo ≤ r.1 ∧ r.1 < hi ∧ E r.1 e s') (fun _ _ => False) H s := by
  induction count generalizing c s current with
  | zero =>
    subst hhi
    exact ⟨rfl, h⟩
  | succ count ih =>
    have hlt : c < hi := by omega
    rw [updateClusters, wp_bind, wp_attempt]
    refine wp_mono (hstep c s current hlo hlt h hcur) ?_ (fun _ _ he => ⟨hlo, hlt, he⟩)
    rintro b s₁ ⟨hb, hne, hentry⟩
    rw [wp_bind, wp_attempt]
    refine wp_mono hentry ?_ (fun _ _ he => ⟨hlo, hlt, he⟩)
    rintro - s₂ ⟨hI, hsame⟩
    refine ih (le_succ_of_le hlo) (by omega) hI ?_
    rintro i b' heq
    obtain ⟨rfl, rfl⟩ : c / cfg.refcountBlockSize = i ∧ b = b' := by simpa using heq
    exact ⟨by rw [hsame.blockOffset, hb], hne⟩

/-- Each step of the loop lowers one more cluster. -/
theorem lowered_succ (n : Nat → Nat) (d : Nat) (h : lo ≤ c) :
    lowered n lo (c + 1) d c = lowered n lo c d c - d ∧
      ∀ c', c' ≠ c → lowered n lo (c + 1) d c' = lowered n lo c d c' := by
  rw [lowered_of_mem h (lt_succ_self c), lowered_of_not_mem (by omega : ¬(lo ≤ c ∧ c < c))]
  exact ⟨rfl, fun c' hc' => if_congr (by omega) rfl rfl⟩

theorem raised_succ (n : Nat → Nat) (d : Nat) (h : lo ≤ c) :
    raised n lo (c + 1) d c = raised n lo c d c + d ∧
      ∀ c', c' ≠ c → raised n lo (c + 1) d c' = raised n lo c d c' := by
  rw [raised_of_mem h (lt_succ_self c), raised_of_not_mem (by omega : ¬(lo ≤ c ∧ c < c))]
  exact ⟨rfl, fun c' hc' => if_congr (by omega) rfl rfl⟩

/-- The refcounts of a range may be lowered: there are blocks for them, and a refcount is too small
or is not only that of metadata. -/
structure CanLower (cfg : RefcountConfig) (img : RefImage) (n : Nat → Nat) (lo hi d : Nat) :
    Prop where
  block : ∀ c, lo ≤ c → c < hi → img.HasBlock cfg c
  enough : ∀ c, lo ≤ c → c < hi → img.refcount cfg c < d ∨ d ≤ n c

/-- What the loop has done when it has lowered the refcounts of the clusters before `last`. -/
structure LoopLowered (cfg : RefcountConfig) (t : Track) (n : Nat → Nat) (lo d : Nat)
    (type : DiscardType) (s : RefState) (last : Nat) (s' : RefState) : Prop where
  inv : Inv cfg t (lowered n lo last d) s'
  had : ∀ c, lo ≤ c → c < last → d ≤ n c
  index : s'.freeClusterIndex = s.freeClusterIndex ∨ lo ≤ s'.freeClusterIndex ∧
    s'.freeClusterIndex < last ∧ s'.img.refcount cfg s'.freeClusterIndex = 0
  queue : cfg.discardPassthrough type = false → s'.discards = s.discards
  same : SameTable s.img s'.img

theorem LoopLowered.loaded {type : DiscardType} (h : LoopLowered cfg t n lo d type s last s')
    (hs₁ : Loaded s' s₁) : LoopLowered cfg t n lo d type s last s₁ := by
  have himg := hs₁.moved.img
  refine ⟨h.inv.moved hs₁.moved, h.had, ?_, fun hp => hs₁.moved.discards.trans (h.queue hp), ?_⟩
  · rw [himg, hs₁.freeClusterIndex]
    exact h.index
  · rw [himg]
    exact h.same

theorem wp_updateClusters_lower (h : Inv cfg t n s) (hd : 0 < d)
    (hcan : CanLower cfg s.img n lo hi d) (hhi : lo + count = hi) (fuel : Nat) (update : UpdateFn)
    (type : DiscardType) :
    wp (updateClusters cfg (allocRefcountBlock cfg fuel update) d true type count lo none)
      (fun r s' => match r.2 with
        | none => r.1 = hi ∧ LoopLowered cfg t n lo d type s hi s'
        | some _ => lo ≤ r.1 ∧ r.1 < hi ∧ LoopLowered cfg t n lo d type s r.1 s' ∧
          (t.clean → ∃ c, lo ≤ c ∧ c < hi ∧ n c < d)) (fun _ _ => False) (Stopped cfg t) s := by
  refine wp_updateClusters (I := LoopLowered cfg t n lo d type s) (E := fun last _ s' =>
    LoopLowered cfg t n lo d type s last s' ∧ (t.clean → ∃ c, lo ≤ c ∧ c < hi ∧ n c < d)) ?_
    (le_refl _) hhi ⟨?_, fun c hlo hlast => by omega, .inl rfl, fun _ => rfl, SameTable.refl _⟩
    (current_none _)
  · intro c s' current hlo hlt hs' hcur
    have hblock : s'.img.HasBlock cfg c := by
      unfold RefImage.HasBlock
      rw [hs'.same.blockOffset]
      exact hcan.block c hlo hlt
    -- the refcount of the cluster is the one before the loop
    have hrefcount : s'.img.refcount cfg c = s.img.refcount cfg c := by
      rw [hs'.inv.image.counts, h.image.counts, hs'.same.metaCount, lowered_of_not_mem (by omega)]
    refine wp_mono (wp_blockFor_load hs'.inv.image hblock fuel update hcur) ?_ ?_ ?_
    · rintro b s₁ ⟨rfl, hs₁⟩
      have hl₁ := hs'.loaded hs₁
      rw [← hs₁.moved.img] at hblock hrefcount ⊢
      refine ⟨rfl, hblock, wp_mono (wp_updateEntry_lower hblock d type) ?_ ?_ ?_⟩
      · rintro - s₂ hs₂
        have hle : d ≤ n c := by
          rcases hcan.enough c hlo hlt with hfew | hle
          · have := hs₂.le
            omega
          · exact hle
        have himg₂ : s₂.img = s₁.img.withRefcount cfg c (s₁.img.refcount cfg c - d) := by
          rw [hs₂.eq]
        have hsame : SameTable s₁.img s₂.img := by
          rw [himg₂]
          exact ⟨rfl, rfl, rfl⟩
        obtain ⟨hself, hother⟩ := lowered_succ n d hlo
        refine ⟨⟨?_, fun c' hlo' hlast => ?_, ?_, fun hpass => ?_, hl₁.same.trans hsame⟩, hsame⟩
        · rw [hs₂.eq]
          refine hl₁.inv.lower hblock hd ?_ hself hother (hs₂.queue.imp_right And.right)
          rwa [lowered_of_not_mem (by omega)]
        · by_cases hc : c' = c
          · rwa [hc]
          · exact hl₁.had c' hlo' (by omega)
        · have hset :=
            RefImage.refcount_setRefcount hl₁.inv.image hblock (s₁.img.refcount cfg c - d)
          rw [himg₂]
          rcases hs₂.index with heq | ⟨heq, hzero⟩
          · rw [heq]
            refine hl₁.index.imp_right fun ⟨hlo', hlast, hzero⟩ => ⟨hlo', by omega, ?_⟩
            exact (hset _).trans ((if_neg (by omega)).trans hzero)
          · rw [heq]
            exact .inr ⟨hlo, lt_succ_self c, (hset c).trans (by rw [if_pos rfl]; omega)⟩
        · rcases hs₂.queue with heq | ⟨hp, -⟩
          · rw [heq, hl₁.queue hpass]
          · rw [hpass] at hp
            cases hp
      · rintro e s₂ ⟨rfl, hfew⟩
        refine ⟨hl₁, fun _ => ⟨c, hlo, hlt, ?_⟩⟩
        have := h.image.counts c
        omega
      · intro s₂ hs₂ hq d hd'
        rw [hs₂] at hd'
        exact hl₁.inv.logged hq d hd'
    · rintro e s₁ ⟨hs₁, hl⟩
      exact ⟨hs'.loaded hs₁, fun hclean => absurd (hs'.inv.clean hclean) hl⟩
    · intro s₁ hs₁
      exact (hs'.inv.moved hs₁.moved).stopped
  · rw [lowered_self]
    exact h

/-- The refcounts of a range may be raised: it has no metadata and nothing that is queued. -/
structure CanRaise (cfg : RefcountConfig) (t : Track) (s : RefState) (lo hi : Nat) : Prop where
  separate : t.separate → ∀ c, lo ≤ c → c < hi → s.img.metaCount cfg c = 0
  queue : t.queue → ∀ c, lo ≤ c → c < hi → ¬Queued cfg s.discards c

/-- The state after an update that failed; some uses may have come that nobody has. -/
def Failed (cfg : RefcountConfig) (t : Track) (n : Nat → Nat) (e : Errno) (s : RefState) : Prop :=
  ∃ n', Inv cfg t n' s ∧ (∀ c, n c ≤ n' c) ∧ (t.clean → e ≠ .efbig → n' = n)

theorem Failed.of_inv (h : Inv cfg t n s) (e : Errno) : Failed cfg t n e s :=
  ⟨n, h, fun _ => le_refl _, fun _ _ => rfl⟩

/-- The next clusters that are allocated for metadata are others than the cluster `x`: the search
starts behind it, or nothing has to be allocated for it, or the search starts with a free cluster
that has a refcount block. -/
def Avoids (cfg : RefcountConfig) (x : Nat) (s : RefState) : Prop :=
  s.img.refcount cfg x = 0 ∧ (s.img.HasBlock cfg x ∨ x < s.freeClusterIndex ∨
    s.freeClusterIndex ≠ x ∧ s.img.refcount cfg s.freeClusterIndex = 0 ∧
      s.img.HasBlock cfg s.freeClusterIndex)

theorem Avoids.congr (h : Avoids cfg x s) (himg : s'.img = s.img)
    (hindex : s'.freeClusterIndex = s.freeClusterIndex) : Avoids cfg x s' := by
  unfold Avoids
  rw [himg, hindex]
  exact h

/-- What is needed of a cluster `b`, so that an update of its refcount keeps `x` out. -/
def Keeps (cfg : RefcountConfig) (x b : Nat) (s : RefState) : Prop :=
  s.img.HasBlock cfg b ∨ x < s.freeClusterIndex ∨ b = x ∧ Avoids cfg x s

/-- An update of the cluster `b` that has to be repeated keeps such clusters out of the metadata. -/
def KeptOut (cfg : RefcountConfig) (t : Track) (s : RefState) (b : Nat) (e : Errno)
    (s' : RefState) : Prop :=
  t.clean → e = .eagain → ∀ x, s.img.refcount cfg x = 0 → Keeps cfg x b s → Avoids cfg x s'

theorem Inv.refcount_eq_zero (h : Inv cfg t n s) (hn : n x = 0)
    (hmeta : s.img.metaCount cfg x = 0) : s.img.refcount cfg x = 0 := by
  rw [h.image.counts, hn, hmeta]

/-- `alloc_refcount_block` where there is no block: even if it makes one, it fails. -/
def AllocSpec (cfg : RefcountConfig) (t : Track) (alloc : Nat → RefProg Nat) : Prop :=
  ∀ n s c, Inv cfg t n s → Idle t s → ¬s.img.HasBlock cfg c → wp (alloc c) (fun _ _ => False)
      (fun e s' => Failed cfg t n e s' ∧ Idle t s' ∧ KeptOut cfg t s c e s') (Stopped cfg t) s

/-- What the loop has done when it has raised the refcounts of the clusters before `last`. -/
structure LoopRaised (cfg : RefcountConfig) (t : Track) (n : Nat → Nat) (lo d : Nat) (s : RefState)
    (last : Nat) (s' : RefState) : Prop where
  inv : Inv cfg t (raised n lo last d) s'
  idle : Idle t s'
  same : SameTable s.img s'.img
  index : s'.freeClusterIndex = s.freeClusterIndex
  queue : s'.discards = s.discards
  start : last = lo → s'.img = s.img

theorem Inv.hasBlock (h : Inv cfg t (raised n lo hi d) s) (hd : 0 < d) (hlo : lo ≤ c)
    (hhi : c < hi) : s.img.HasBlock cfg c := by
  apply RefImage.hasBlock_of_refcount
  rw [h.image.counts, raised_of_mem hlo hhi]
  omega

theorem Inv.canLower (h : Inv cfg t (raised n lo hi d) s) (hd : 0 < d) :
    CanLower cfg s.img (raised n lo hi d) lo hi d :=
  ⟨fun _ => h.hasBlock hd, fun _ hlo hhi => .inr (le_raised_of_mem n hlo hhi)⟩

theorem LoopRaised.loaded (h : LoopRaised cfg t n lo d s last s') (hs₁ : Loaded s' s₁) :
    LoopRaised cfg t n lo d s last s₁ := by
  have himg := hs₁.moved.img
  refine ⟨h.inv.moved hs₁.moved, h.idle.moved hs₁.moved, ?_, hs₁.freeClusterIndex.trans h.index,
    hs₁.moved.discards.trans h.queue, fun heq => himg.trans (h.start heq)⟩
  rw [himg]
  exact h.same

theorem wp_updateClusters_raise {fuel : Nat} {update : UpdateFn}
    (halloc : AllocSpec cfg t (allocRefcountBlock cfg fuel update)) (h : Inv cfg t n s)
    (hidle : Idle t s) (hd : 0 < d) (hcan : CanRaise cfg t s lo hi) (hhi : lo + count = hi)
    (type : DiscardType) :
    wp (updateClusters cfg (allocRefcountBlock cfg fuel update) d false type count lo none)
      (fun r s' => match r.2 with
        | none => r.1 = hi ∧ LoopRaised cfg t n lo d s hi s'
        | some e => lo ≤ r.1 ∧ r.1 < hi ∧ Failed cfg t (raised n lo r.1 d) e s' ∧ Idle t s' ∧
          (r.1 = lo → KeptOut cfg t s lo e s')) (fun _ _ => False) (Stopped cfg t) s := by
  refine wp_updateClusters (I := LoopRaised cfg t n lo d s) (E := fun last e s' =>
    Failed cfg t (raised n lo last d) e s' ∧ Idle t s' ∧ (last = lo → KeptOut cfg t s lo e s')) ?_
    (le_refl _) hhi ⟨?_, hidle, SameTable.refl _, rfl, rfl, fun _ => rfl⟩ (current_none _)
  · intro c s' current hlo hlt hs' hcur
    by_cases hblock : s'.img.HasBlock cfg c
    · refine wp_mono (wp_blockFor_load hs'.inv.image hblock fuel update hcur) ?_ ?_ ?_
      · rintro b s₁ ⟨rfl, hs₁⟩
        have hl₁ := hs'.loaded hs₁
        rw [← hs₁.moved.img] at hblock ⊢
        refine ⟨rfl, hblock, wp_mono (wp_updateEntry_raise hblock hd type)
          ?_ ?_ (fun _ => False.elim)⟩
        · rintro - s₂ rfl
          obtain ⟨hself, hother⟩ := raised_succ n d hlo
          refine ⟨⟨?_, hl₁.idle, ⟨hl₁.same.table, hl₁.same.size, hl₁.same.offset⟩, hl₁.index,
            hl₁.queue, fun heq => absurd heq (by omega)⟩, ⟨rfl, rfl, rfl⟩⟩
          refine hl₁.inv.raise hblock hself hother (fun hs => ?_) fun hq => ?_
          · rw [hl₁.same.metaCount]
            exact hcan.separate hs c hlo hlt
          · rw [hl₁.queue]
            exact hcan.queue hq c hlo hlt
        · rintro e s₂ ⟨rfl, rfl, -⟩
          exact ⟨Failed.of_inv hl₁.inv _, hl₁.idle, fun _ _ => nofun⟩
      · rintro e s₁ ⟨hs₁, hl⟩
        have hl₁ := hs'.loaded hs₁
        exact ⟨Failed.of_inv hl₁.inv e, hl₁.idle, fun _ hclean => absurd (hs'.inv.clean hclean) hl⟩
      · intro s₁ hs₁
        exact (hs'.inv.moved hs₁.moved).stopped
    · have hnew :
          wp (blockFor cfg (allocRefcountBlock cfg fuel update) c current) (fun _ _ => False)
          (fun e s'' => Failed cfg t (raised n lo c d) e s'' ∧ Idle t s'' ∧
            KeptOut cfg t s' c e s'')
          (Stopped cfg t) s' := by
        have hmake := halloc _ s' c hs'.inv hs'.idle hblock
        cases current with
        | none => exact hmake
        | some p =>
          obtain ⟨i, b⟩ := p
          refine wp_ite (fun hi => ?_) fun _ => hmake
          obtain ⟨hb, hne⟩ := hcur i b rfl
          rw [hb, hi] at hne
          exact absurd hne hblock
      refine wp_mono hnew (fun _ _ => False.elim) ?_
      rintro e s₁ ⟨hfail, hidle₁, hkept⟩
      refine ⟨hfail, hidle₁, ?_⟩
      rintro rfl
      unfold KeptOut Keeps Avoids at hkept ⊢
      rwa [hs'.start rfl, hs'.index] at hkept
  · rw [raised_self]
    exact h

/-! ## New blocks -/

/-- What `update_refcount` promises when it raises refcounts. -/
def RaiseSpec (cfg : RefcountConfig) (t : Track) (update : UpdateFn) : Prop :=
  ∀ {n s lo hi} (offset size d : Nat) (type : DiscardType), 0 < d → cfg.firstCluster offset = lo →
    lo + cfg.clusterCount offset size = hi → Inv cfg t n s → Idle t s → CanRaise cfg t s lo hi →
    wp (update offset size d false type)
      (fun _ s' => Inv cfg t (raised n lo hi d) s' ∧ Idle t s' ∧ SameTable s.img s'.img ∧
        s'.freeClusterIndex = s.freeClusterIndex)
      (fun e s' => Failed cfg t n e s' ∧ Idle t s' ∧
        (cfg.clusterCount offset size = 1 → KeptOut cfg t s lo e s')) (Stopped cfg t) s

def LowerSpec (cfg : RefcountConfig) (t : Track) (update : UpdateFn) : Prop :=
  ∀ {n s lo hi} (offset size d : Nat) (type : DiscardType), 0 < d → cfg.firstCluster offset = lo →
    lo + cfg.clusterCount offset size = hi → Inv cfg t n s → Idle t s →
    CanLower cfg s.img n lo hi d →
    (t.queue → t.cacheDiscards = true → cfg.discardPassthrough type = true →
      t.clean ∧ ∀ c, lo ≤ c → c < hi → d ≤ n c) →
    wp (update offset size d true type)
      (fun _ s' => Inv cfg t (lowered n lo hi d) s' ∧ Idle t s' ∧ SameTable s.img s'.img ∧
        (s'.freeClusterIndex = s.freeClusterIndex ∨ lo ≤ s'.freeClusterIndex ∧
          s'.freeClusterIndex < hi ∧ s'.img.refcount cfg s'.freeClusterIndex = 0))
      (fun _ s' => (∃ n', Inv cfg t n' s' ∧ ∀ c, lowered n lo hi d c ≤ n' c) ∧ Idle t s' ∧
        (t.clean → ∃ c, lo ≤ c ∧ c < hi ∧ n c < d)) (Stopped cfg t) s

structure UpdateSpec (cfg : RefcountConfig) (t : Track) (update : UpdateFn) : Prop where
  raise : RaiseSpec cfg t update
  lower : LowerSpec cfg t update

/-- While discards are kept back, all accesses to refcount blocks succeed. -/
def Track.Sound (t : Track) : Prop := t.queue → t.cacheDiscards = true → t.clean

section alloc

variable {update : UpdateFn} {index : Nat}

theorem inSameRefcountBlock_iff (b c : Nat) :
    inSameRefcountBlock cfg (b * cfg.clusterSize) (c * cfg.clusterSize) = true ↔
      b / cfg.refcountBlockSize = c / cfg.refcountBlockSize := by
  have hpos := clusterSize_pos cfg.toQcow2Config
  unfold inSameRefcountBlock
  rw [beq_iff_eq, Nat.mul_comm b, Nat.mul_comm c, Nat.mul_div_mul_left _ _ hpos,
    Nat.mul_div_mul_left _ _ hpos]

theorem wp_initBlock (hupdate : UpdateSpec cfg t update) (h : Inv cfg t n s) (hidle : Idle t s)
    (hqueue : t.queue → s.discards = []) (hblock : ¬s.img.HasBlock cfg c)
    (hfree : s.img.refcount cfg b = 0) : wp (initBlock cfg update c (b * cfg.clusterSize))
      (fun _ s' => Ready cfg t n (c / cfg.refcountBlockSize) b s' ∧ Idle t s' ∧
        SameTable s.img s'.img ∧ s'.freeClusterIndex = s.freeClusterIndex)
      (fun e s' => Failed cfg t n e s' ∧ Idle t s' ∧ KeptOut cfg t s b e s') (Stopped cfg t) s := by
  have hne := h.image.ne_zero_of_free hfree
  have hunused := h.image.of_free hfree
  have hnoBlock : s.img.blockOffset (c / cfg.refcountBlockSize) = 0 := not_not.1 hblock
  have hfresh := h.image.ne_block hfree
  refine wp_ite (fun hsame => ?_) fun hdiff => ?_
  · have hself := (inSameRefcountBlock_iff b c).1 hsame
    have hsame : SameBlocks s.img ((s.img.zeroBlock (b * cfg.clusterSize)).setRefcount
        (b * cfg.clusterSize) (b * cfg.clusterSize / cfg.clusterSize % cfg.refcountBlockSize)
        1) := by
      refine ⟨⟨rfl, rfl, rfl⟩, fun i _ k => ?_⟩
      show (if _ ∧ _ then _ else if _ then _ else _) = _
      rw [if_neg (fun hk => hfresh i hk.1), if_neg (hfresh i)]
    refine ⟨⟨?_, hnoBlock, hne, hfresh, ?_, hunused⟩, hidle, ⟨rfl, rfl, rfl⟩, rfl⟩
    · rw [withBlock, if_pos hself]
      exact h.of_ne hsame
    intro k
    show (if _ ∧ _ then 1 else if _ then 0 else _) = _
    rw [Nat.mul_div_cancel _ (clusterSize_pos _), if_pos (Eq.refl (b * cfg.clusterSize))]
    simp only [hself, true_and]
  · have hself : ¬b / cfg.refcountBlockSize = c / cfg.refcountBlockSize := by
      intro heq
      exact hdiff ((inSameRefcountBlock_iff b c).2 heq)
    have hcan : CanRaise cfg t s b (b + 1) := by
      refine ⟨fun _ c' hlo hhi => ?_, fun hq _ _ _ => not_queued (hqueue hq)⟩
      obtain rfl : c' = b := by omega
      exact hunused.2
    have hone := clusterCount_one cfg b
    refine wp_seq (hupdate.raise (b * cfg.clusterSize) cfg.clusterSize 1 .never (succ_pos 0)
      (firstCluster_mul cfg b) (by rw [hone]) h hidle hcan) ?_
      (fun e s' hr => ⟨hr.1, hr.2.1, hr.2.2 hone⟩)
    rintro - s₁ ⟨hinv₁, hidle₁, hsame₁, hindex₁⟩
    have hfresh₁ : ∀ i, s₁.img.blockOffset i ≠ b * cfg.clusterSize := by
      intro i
      rw [hsame₁.blockOffset]
      exact hfresh i
    have hsame₂ : SameBlocks s₁.img (s₁.img.zeroBlock (b * cfg.clusterSize)) :=
      ⟨⟨rfl, rfl, rfl⟩, fun i _ k => if_neg (hfresh₁ i)⟩
    refine ⟨⟨?_, ?_, hne, hfresh₁, ?_, hunused.1, ?_⟩, hidle₁, ⟨hsame₁.table, hsame₁.size,
      hsame₁.offset⟩, hindex₁⟩
    · rw [withBlock, if_neg hself]
      exact hinv₁.of_ne hsame₂
    · exact (hsame₁.blockOffset _).trans hnoBlock
    · intro k
      show (if _ then 0 else _) = _
      rw [if_pos rfl, if_neg (fun hk => hself hk.1)]
    · exact (hsame₁.metaCount cfg b).trans hunused.2

theorem tableEnd_eq (h : img.refcountTableOffset % cfg.clusterSize = 0) :
    cfg.firstCluster img.refcountTableOffset +
      cfg.clusterCount img.refcountTableOffset (img.refcountTableSize * 8) = img.tableEnd cfg := by
  have hmul : img.refcountTableOffset = img.tableFirst cfg * cfg.clusterSize :=
    (Nat.div_mul_cancel (dvd_of_mod_eq_zero h)).symm
  conv_lhs => rw [hmul, clusterCount_mul, firstCluster_mul]
  rfl

/-- A cluster that is not used, and that neither a new block at `b` for the cluster `c` nor a table
behind it is made in. -/
structure Spared (cfg : RefcountConfig) (n : Nat → Nat) (c b x : Nat) (s : RefState) : Prop where
  unused : n x = 0
  separate : s.img.metaCount cfg x = 0
  ne : x ≠ b
  place : x = c ∨ x < b ∧ x < s.freeClusterIndex

/-- A larger table is made, and the old one is freed. -/
theorem wp_growTable (hupdate : UpdateSpec cfg t update) (hsound : t.Sound) (fuel : Nat)
    (h : Ready cfg t n (c / cfg.refcountBlockSize) b s) (hidle : Idle t s)
    (hsize : s.img.refcountTableSize ≤ c / cfg.refcountBlockSize) :
    wp (growTable cfg fuel update c (b * cfg.clusterSize)) (fun _ _ => False)
      (fun e s' => Failed cfg t n e s' ∧ Idle t s' ∧
        (t.clean → e = .eagain → ∀ x, Spared cfg n c b x s → Avoids cfg x s')) (Stopped cfg t)
        s := by
  refine wp_ite (fun _ => ?_) fun _ => ?_
  · exact ⟨⟨_, h.inv, le_withBlock cfg n _ b, fun _ hne => absurd rfl hne⟩, hidle, fun _ => nofun⟩
  refine wp_seq (wp_newTableSize cfg s.img _ fuel s) ?_ (fun _ _ => False.elim)
    (fun s' hs' => by rw [hs']; exact h.inv.stopped)
  rintro tableSize s' ⟨hround, rfl⟩
  refine wp_ite (fun _ => h.inv.stopped) fun hroom => ?_
  have hf := tableFits_of_size hsize (fits_of_round hround) (not_lt.1 hroom)
  have hinv₁ := h.switchTable hf
  -- the clusters of the old table have refcounts, and their only use is none
  have hcan := hinv₁.canLower (succ_pos 0)
  rw [wp_bind, modifyImage, wp_modify]
  refine wp_seq (Q := fun _ s₂ => ∃ m, Inv cfg t m s₂ ∧ Idle t s₂ ∧ (∀ c, n c ≤ m c) ∧
    (t.clean → m = n ∧ ∀ x, Spared cfg n c b x s' → Avoids cfg x s₂)) ?_ ?_ fun _ _ he => he
  case refine_2 =>
    -- the block is loaded again before the caller is told to try again
    rintro - s₂ ⟨m, hinv₂, hidle₂, hle, hclean⟩
    refine wp_seq (wp_loadRefcountBlock _ s₂) ?_ ?_ (fun _ => False.elim)
    · rintro - s₃ ⟨-, hs₃⟩
      refine ⟨⟨m, hinv₂.moved hs₃.moved, hle, fun hc _ => (hclean hc).1⟩,
        hidle₂.moved hs₃.moved, ?_⟩
      exact fun hc _ x hx => ((hclean hc).2 x hx).congr hs₃.moved.img hs₃.freeClusterIndex
    · rintro e s₃ ⟨hs₃, hl⟩
      refine ⟨⟨m, hinv₂.moved hs₃.moved, hle, fun hc _ => (hclean hc).1⟩,
        hidle₂.moved hs₃.moved, ?_⟩
      exact fun hc => absurd (hinv₂.clean hc) hl
  rw [wp_attempt]
  have hlower := hupdate.lower s'.img.refcountTableOffset (s'.img.refcountTableSize * 8) 1 .other
    (succ_pos 0) (show _ = s'.img.tableFirst cfg from rfl)
    (tableEnd_eq h.inv.image.tableAligned) hinv₁ hidle hcan
    fun hq hc _ => ⟨hsound hq hc, fun _ => le_raised_of_mem n⟩
  rw [lowered_raised] at hlower
  refine wp_mono hlower ?_ ?_
  · rintro - s₂ ⟨hinv₂, hidle₂, hsame₂, hindex₂⟩
    refine ⟨n, hinv₂, hidle₂, fun _ => le_refl _, fun _ => ⟨rfl, fun x hx => ?_⟩⟩
    -- `x` is in neither the old nor the new table
    have hnotTable := (RefImage.metaCount_eq_zero.1 hx.separate).2.2
    have hlt : x < blocksUsed cfg c (b * cfg.clusterSize) * cfg.refcountBlockSize := by
      rcases hx.place with rfl | ⟨hxb, -⟩
      · exact (div_lt_iff_lt_mul (refcountBlockSize_pos cfg)).1 hf.index_lt
      · exact lt_trans hxb hf.block_lt
    have hmeta₂ : s₂.img.metaCount cfg x = 0 := by
      have hswitch := @TableFits.metaCount_switchTable cfg s'.img _ x b _ _ tableSize hf h.inv.image
        h.ne_zero h.fresh
      rw [if_neg hnotTable, if_neg (fun hin => not_lt.2 hin.1 hlt), if_neg hx.ne,
        hx.separate] at hswitch
      have hsame := hsame₂.metaCount cfg x
      dsimp only at hsame
      omega
    refine ⟨hinv₂.refcount_eq_zero hx.unused hmeta₂, ?_⟩
    rcases hx.place with rfl | ⟨-, hxi⟩
    · left
      have hindex := hf.index_lt
      unfold RefImage.HasBlock
      rw [hsame₂.blockOffset, hf.blockOffset_switchTable, if_neg (by omega), if_pos rfl]
      exact mul_clusterSize_ne_zero _ h.ne_zero
    rcases hindex₂ with heq | ⟨hlo, hhi, hzero⟩
    · right
      left
      rw [heq]
      exact hxi
    -- the search starts in the old table
    right
    right
    refine ⟨?_, hzero, ?_⟩
    · rintro rfl
      exact hnotTable ⟨hlo, hhi⟩
    · show s₂.img.blockOffset _ ≠ 0
      rw [hsame₂.blockOffset]
      exact hcan.block _ hlo hhi
  · rintro e s₂ ⟨⟨m, hinv₂, hle⟩, hidle₂, hclean⟩
    have hnot : ¬t.clean := by
      intro hc
      obtain ⟨c', hlo, hhi, hlt⟩ := hclean hc
      rw [raised_of_mem hlo hhi] at hlt
      omega
    exact ⟨m, hinv₂, hidle₂, hle, fun hc => absurd hc hnot⟩

theorem allocRefcountBlock_spec (hupdate : UpdateSpec cfg t update) (hsound : t.Sound)
    (fuel : Nat) : AllocSpec cfg t (allocRefcountBlock cfg fuel update) := by
  intro n s c h hidle hblock
  refine wp_ite (fun _ => h.stopped) fun _ => ?_
  rw [if_neg (show ¬s.img.blockOffset (c / cfg.refcountBlockSize) ≠ 0 from hblock)]
  refine wp_seq (wp_allocClustersNoref h hidle cfg.clusterSize) ?_ ?_
  · rintro - s₁ ⟨b, rfl, hs₁⟩
    have hsize : cfg.sizeToClusters cfg.clusterSize = 1 := by
      have := sizeToClusters_mul cfg.toQcow2Config 1
      rwa [one_mul] at this
    have hnext : s₁.freeClusterIndex = b + 1 := by rw [hs₁.next, hsize]
    have hfree : s₁.img.refcount cfg b = 0 := by
      rw [hs₁.img]
      exact hs₁.free b (le_refl _) (by omega)
    have hidle₁ : Idle t s₁ := fun hq _ => hs₁.queue hq
    have hblock₁ : ¬s₁.img.HasBlock cfg c := by rwa [hs₁.img]
    -- the new block is behind `x`, or it is where the search starts
    have hcase : ∀ {x}, Keeps cfg x c s → x < b ∨ c = x ∧ b ≠ x ∧ s₁.img.HasBlock cfg b := by
      rintro x (hc | hlt | ⟨rfl, -, hc | hlt | ⟨hne, hzero, hb⟩⟩)
      · exact absurd hc hblock
      · exact .inl (lt_of_lt_of_le hlt hs₁.ge)
      · exact absurd hc hblock
      · exact .inl (lt_of_lt_of_le hlt hs₁.ge)
      have hfirst : b = s.freeClusterIndex := by
        rcases hs₁.first with heq | ⟨c', hlo, hhi, hused⟩
        · exact heq
        · obtain rfl : c' = s.freeClusterIndex := by omega
          exact absurd hzero hused
      rw [hs₁.img, hfirst]
      exact .inr ⟨rfl, hne, hb⟩
    refine wp_seq (wp_initBlock hupdate hs₁.inv hidle₁ hs₁.queue hblock₁ hfree) ?_ ?_
    · rintro - s₂ ⟨hready, hidle₂, hsame₂, hindex₂⟩
      have hspared : ∀ x, s.img.refcount cfg x = 0 → Keeps cfg x c s → Spared cfg n c b x s₂ := by
        intro x hx hkeeps
        obtain ⟨hn, hmeta⟩ := h.image.of_free hx
        refine ⟨hn, ?_, ?_, ?_⟩
        · rw [hsame₂.metaCount cfg x, hs₁.img, hmeta]
        · rcases hcase hkeeps with hlt | ⟨-, hne, -⟩
          · omega
          · exact hne.symm
        · rcases hcase hkeeps with hlt | ⟨rfl, -, -⟩
          · exact .inr ⟨hlt, by omega⟩
          · exact .inl rfl
      refine wp_ite (fun hlt => ?_) fun hge => ?_
      · -- the block takes its place in the table
        refine ⟨Failed.of_inv (hready.hook hlt) _, hidle₂, fun _ _ x hx hkeeps => ?_⟩
        have hs := hspared x hx hkeeps
        refine ⟨(hready.hook hlt).refcount_eq_zero hs.unused ?_, ?_⟩
        · rw [RefImage.metaCount_setTable hlt hready.noBlock hready.ne_zero
            (not_isBlock hready.fresh), hs.separate, if_neg hs.ne]
        rcases hs.place with rfl | ⟨-, hxi⟩
        · left
          show (s₂.img.setTable _ _).blockOffset _ ≠ 0
          rw [RefImage.blockOffset_setTable hlt, if_pos rfl]
          exact mul_clusterSize_ne_zero _ hready.ne_zero
        · exact .inr (.inl hxi)
      · refine wp_mono (wp_growTable hupdate hsound fuel hready hidle₂ (not_lt.1 hge))
          (fun _ _ hq => hq) ?_
        rintro e s₃ ⟨hfail, hidle₃, havoid⟩
        exact ⟨hfail, hidle₃, fun hc he x hx hkeeps => havoid hc he x (hspared x hx hkeeps)⟩
    · rintro e s₂ ⟨hfail, hidle₂, hkept⟩
      refine ⟨hfail, hidle₂, fun hc he x hx hkeeps => hkept hc he x (by rwa [hs₁.img]) ?_⟩
      rcases hcase hkeeps with hlt | ⟨-, -, hb⟩
      · exact .inr (.inl (by omega))
      · exact .inl hb
  · rintro e s₁ ⟨hinv₁, hidle₁, he⟩
    refine ⟨Failed.of_inv hinv₁ e, hidle₁, fun hc heq => ?_⟩
    rw [he hc] at heq
    cases heq

end alloc

/-! ## Whole updates -/

theorem wp_updateRefcount_nonpos (fuel offset d : Nat) {length : Int} (h : length ≤ 0)
    (decrease : Bool) (type : DiscardType) (s : RefState) :
    wp (updateRefcount cfg fuel offset length d decrease type) (fun _ s' => s' = s)
      (fun _ s' => s' = s) (fun s' => s' = s) s := by
  cases fuel with
  | zero => rfl
  | succ fuel =>
    refine wp_ite (fun _ => rfl) fun hneg => ?_
    rw [if_pos (by omega)]
    rfl

/-- What is undone are the clusters before the one with the error. -/
theorem clusterCount_undo (h : cfg.firstCluster offset < last) :
    cfg.clusterCount offset (last * cfg.clusterSize - offset) = last - cfg.firstCluster offset := by
  have hpos := clusterSize_pos cfg.toQcow2Config
  unfold RefcountConfig.firstCluster at h ⊢
  have hlt : offset < last * cfg.clusterSize := (div_lt_iff_lt_mul hpos).1 h
  have hsum : offset + (last * cfg.clusterSize - offset) - 1 =
      cfg.clusterSize - 1 + (last - 1) * cfg.clusterSize := by
    have : last * cfg.clusterSize = (last - 1) * cfg.clusterSize + cfg.clusterSize := by
      rw [← succ_mul, succ_eq_add_one, Nat.sub_add_cancel (Nat.lt_of_le_of_lt (Nat.zero_le _) h)]
    omega
  unfold RefcountConfig.clusterCount
  rw [if_neg (by omega), hsum, add_mul_div_right _ _ hpos, div_eq_of_lt (by omega)]
  generalize offset / cfg.clusterSize = first at h ⊢
  omega

/-- After the loop, the queue is emptied unless discards are kept back. -/
theorem wp_afterLoop {n : Nat → Nat} (h : Inv cfg t n s) (failed : Bool)
    {Q : Unit → RefState → Prop} {R : Errno → RefState → Prop}
    (hQ : ∀ s', Inv cfg t n s' → Idle t s' → s'.img = s.img →
      s'.freeClusterIndex = s.freeClusterIndex → (t.cacheDiscards = false → s'.discards = []) →
      (t.cacheDiscards = true → s'.discards = s.discards) → Q () s') :
    wp (Prog.when (s.cacheDiscards = false) (processDiscards cfg failed)) Q R H s := by
  refine wp_when (fun hcache => ?_) fun hcache => ?_
  · refine hQ _ (h.processed failed) (fun _ _ => rfl) rfl rfl (fun _ => rfl) fun htrue => ?_
    rw [← h.cacheDiscards, hcache] at htrue
    cases htrue
  · rw [h.cacheDiscards] at hcache
    exact hQ s h (fun _ hc => absurd hc hcache) rfl rfl (fun hc => absurd hc hcache) fun _ => rfl

section update

variable {fuel : Nat}

/-- The part of an update that fails which has been done is undone, if there is one. -/
theorem wp_undo {decrease : Bool} {P : RefState → Prop} (hge : cfg.firstCluster offset ≤ last)
    (hstop : Stopped cfg t s) (hnone : last = cfg.firstCluster offset → P s)
    (hsome : ∀ size, cfg.firstCluster offset < last →
      cfg.firstCluster offset + cfg.clusterCount offset size = last →
      wp (updateRefcount cfg fuel offset size d decrease .never) (fun _ => P) (fun _ => P)
        (Stopped cfg t) s) : wp (do
      let _ ← Prog.attempt (updateRefcount cfg fuel offset
        ((last * cfg.clusterSize : Nat) - (offset : Int)) d decrease .never)
      Prog.raise e : RefProg Unit) (fun _ _ => False) (fun e' s' => e' = e ∧ P s') (Stopped cfg t)
      s := by
  rw [wp_bind, wp_attempt]
  rcases eq_or_lt_of_le hge with heq | hlt
  · have hP := hnone heq.symm
    have hle : cfg.firstCluster offset * cfg.clusterSize ≤ offset := div_mul_le_self _ _
    refine wp_mono (wp_updateRefcount_nonpos fuel offset d (by rw [← heq]; omega) decrease .never s)
      ?_ ?_ ?_
    · rintro - s' rfl
      exact ⟨rfl, hP⟩
    · rintro - s' rfl
      exact ⟨rfl, hP⟩
    · rintro s' rfl
      exact hstop
  · have hlength := (div_lt_iff_lt_mul (clusterSize_pos cfg.toQcow2Config)).1 hlt
    rw [show ((last * cfg.clusterSize : Nat) - (offset : Int)) =
      ((last * cfg.clusterSize - offset : Nat) : Int) by omega]
    refine wp_mono (hsome _ hlt (by rw [clusterCount_undo hlt]; omega)) ?_ ?_
    · exact fun _ _ hP => ⟨rfl, hP⟩
    · exact fun _ _ hP => ⟨rfl, hP⟩

theorem wp_undo_raise (hupdate : UpdateSpec cfg t (updateRefcount cfg fuel)) (hd : 0 < d)
    (hge : cfg.firstCluster offset ≤ last) (h : Inv cfg t m s) (hidle : Idle t s)
    (hle : ∀ c, raised n (cfg.firstCluster offset) last d c ≤ m c)
    (heq : t.clean → e ≠ .efbig → m = raised n (cfg.firstCluster offset) last d) : wp (do
      let _ ← Prog.attempt (updateRefcount cfg fuel offset
        ((last * cfg.clusterSize : Nat) - (offset : Int)) d true .never)
      Prog.raise e : RefProg Unit) (fun _ _ => False)
      (fun e' s' => e' = e ∧ Failed cfg t n e s' ∧ Idle t s' ∧
      (last = cfg.firstCluster offset → s' = s)) (Stopped cfg t) s := by
  refine wp_undo hge h.stopped (fun hlast => ?_) fun size hlt hhi => ?_
  · subst hlast
    rw [raised_self] at hle heq
    exact ⟨⟨m, h, hle, heq⟩, hidle, fun _ => rfl⟩
  have hin : ∀ c, cfg.firstCluster offset ≤ c → c < last → n c + d ≤ m c := by
    intro c hlo hc
    have := hle c
    rwa [raised_of_mem hlo hc] at this
  have hcan : CanLower cfg s.img m (cfg.firstCluster offset) last d := by
    refine ⟨fun c hlo hc => ?_, fun c hlo hc => .inr ?_⟩
    · apply RefImage.hasBlock_of_refcount
      rw [h.image.counts]
      have := hin c hlo hc
      omega
    · have := hin c hlo hc
      omega
  have hlower := hupdate.lower offset size d .never hd rfl hhi h hidle hcan
    (fun _ _ hpass => by rw [cfg.passthroughNever] at hpass; cases hpass)
  have hback : ∀ c, n c ≤ lowered m (cfg.firstCluster offset) last d c := by
    intro c
    unfold lowered
    split
    · rename_i hmem
      have := hin c hmem.1 hmem.2
      omega
    · exact le_trans (le_raised n _ _ d c) (hle c)
  refine wp_mono hlower ?_ ?_
  · rintro - s' ⟨hinv, hidle', -, -⟩
    refine ⟨⟨_, hinv, hback, fun hc he => ?_⟩, hidle', fun h0 => absurd h0 (by omega)⟩
    rw [heq hc he, lowered_raised]
  rintro - s' ⟨⟨m', hinv, hle'⟩, hidle', hclean⟩
  refine ⟨⟨m', hinv, fun c => le_trans (hback c) (hle' c), fun hc _ => ?_⟩, hidle',
    fun h0 => absurd h0 (by omega)⟩
  obtain ⟨c, hlo, hc', hlt'⟩ := hclean hc
  have := hin c hlo hc'
  omega

theorem wp_undo_lower (hupdate : UpdateSpec cfg t (updateRefcount cfg fuel)) (hd : 0 < d)
    (hge : cfg.firstCluster offset ≤ last)
    (h : Inv cfg t (lowered n (cfg.firstCluster offset) last d) s) (hidle : Idle t s)
    (hhad : ∀ c, cfg.firstCluster offset ≤ c → c < last → d ≤ n c)
    (hcan : CanRaise cfg t s (cfg.firstCluster offset) last) : wp (do
      let _ ← Prog.attempt (updateRefcount cfg fuel offset
        ((last * cfg.clusterSize : Nat) - (offset : Int)) d false .never)
      Prog.raise e : RefProg Unit) (fun _ _ => False)
      (fun e' s' => e' = e ∧ (∃ n', Inv cfg t n' s' ∧
        ∀ c, lowered n (cfg.firstCluster offset) last d c ≤ n' c) ∧ Idle t s') (Stopped cfg t)
        s := by
  refine wp_undo hge h.stopped (fun _ => ⟨⟨_, h, fun _ => le_refl _⟩, hidle⟩) fun size _ hhi => ?_
  · have hraise := hupdate.raise offset size d .never hd rfl hhi h hidle hcan
    rw [raised_lowered hhad] at hraise
    refine wp_mono hraise ?_ ?_
    · rintro - s' ⟨hinv, hidle', -, -⟩
      refine ⟨⟨n, hinv, fun c => ?_⟩, hidle'⟩
      unfold lowered
      split
      · exact sub_le _ _
      · exact le_refl _
    · rintro - s' ⟨⟨n', hinv, hle, -⟩, hidle', -⟩
      exact ⟨⟨n', hinv, hle⟩, hidle'⟩

theorem clusterCount_zero (cfg : RefcountConfig) (offset : Nat) : cfg.clusterCount offset 0 = 0 :=
  if_pos rfl

theorem updateRefcount_raise (hupdate : UpdateSpec cfg t (updateRefcount cfg fuel))
    (hsound : t.Sound) : RaiseSpec cfg t (updateRefcount cfg (fuel + 1)) := by
  rintro n s lo hi offset size d type hd rfl rfl h hidle hcan
  refine wp_ite (fun hneg => by omega) fun _ => wp_ite (fun hzero => ?_) fun hpos => ?_
  · obtain rfl : size = 0 := by omega
    rw [clusterCount_zero, add_zero, raised_self]
    exact ⟨h, hidle, SameTable.refl _, rfl⟩
  rw [wp_bind]
  refine wp_mono (wp_updateClusters_raise (allocRefcountBlock_spec hupdate hsound fuel) h hidle hd
    hcan rfl type) ?_ (fun _ _ => False.elim)
  rintro ⟨last, error⟩ s₁ hs₁
  rw [wp_bind, wp_get, wp_bind]
  cases error with
  | none =>
    obtain ⟨-, hs₁⟩ := hs₁
    refine wp_afterLoop hs₁.inv _ fun s₂ hinv₂ hidle₂ himg₂ hindex₂ _ _ => ?_
    refine ⟨hinv₂, hidle₂, ?_, hindex₂.trans hs₁.index⟩
    rw [himg₂]
    exact hs₁.same
  | some e =>
    obtain ⟨hge, hlt, ⟨m, hinv₁, hle, heq⟩, -, hkept⟩ := hs₁
    refine wp_afterLoop hinv₁ _ fun s₂ hinv₂ hidle₂ himg₂ hindex₂ _ _ => ?_
    refine wp_mono (wp_undo_raise hupdate hd hge hinv₂ hidle₂ hle heq) (fun _ _ => False.elim) ?_
    rintro e s₃ ⟨rfl, hfail, hidle₃, hsame⟩
    refine ⟨hfail, hidle₃, fun hone hc he x hx hkeeps => ?_⟩
    have hlast : last = cfg.firstCluster offset := by omega
    obtain rfl := hsame hlast
    exact (hkept hlast hc he x hx hkeeps).congr himg₂ hindex₂

theorem updateRefcount_lower (hupdate : UpdateSpec cfg t (updateRefcount cfg fuel)) :
    LowerSpec cfg t (updateRefcount cfg (fuel + 1)) := by
  rintro n s lo hi offset size d type hd rfl rfl h hidle hcan hkept
  refine wp_ite (fun hneg => by omega) fun _ => wp_ite (fun hzero => ?_) fun hpos => ?_
  · obtain rfl : size = 0 := by omega
    rw [clusterCount_zero, add_zero, lowered_self]
    exact ⟨h, hidle, SameTable.refl _, .inl rfl⟩
  rw [wp_bind]
  refine wp_mono (wp_updateClusters_lower h hd hcan rfl fuel _ type) ?_ (fun _ _ => False.elim)
  rintro ⟨last, error⟩ s₁ hs₁
  rw [wp_bind, wp_get, wp_bind]
  cases error with
  | none =>
    obtain ⟨-, hs₁⟩ := hs₁
    refine wp_afterLoop hs₁.inv _ fun s₂ hinv₂ hidle₂ himg₂ hindex₂ _ _ => ?_
    refine ⟨hinv₂, hidle₂, ?_, ?_⟩
    · rw [himg₂]
      exact hs₁.same
    · rw [hindex₂, himg₂]
      exact hs₁.index
  | some e =>
    obtain ⟨hge, hlt, hs₁, hfailed⟩ := hs₁
    refine wp_afterLoop hs₁.inv _ fun s₂ hinv₂ hidle₂ himg₂ hindex₂ hempty hkeep => ?_
    have hhad := hs₁.had
    -- nothing is queued of what is undone
    have hcanRaise : CanRaise cfg t s₂ (cfg.firstCluster offset) last := by
      refine ⟨fun hsep c hlo hhi => ?_, fun hq c hlo hhi => ?_⟩
      · have hmeta : s₂.img.metaCount cfg c = s.img.metaCount cfg c := by
          rw [himg₂]
          exact hs₁.same.metaCount cfg c
        by_contra hne
        rw [hmeta] at hne
        have := (h.separate hsep c hne).2
        have := hhad c hlo hhi
        omega
      cases hcache : t.cacheDiscards with
      | false =>
        exact not_queued (hempty hcache)
      | true =>
        cases hpass : cfg.discardPassthrough type with
        | true =>
          obtain ⟨hclean, hall⟩ := hkept hq hcache hpass
          obtain ⟨c', hlo', hhi', hlt⟩ := hfailed hclean
          exact absurd (hall c' hlo' hhi') (not_le.2 hlt)
        | false =>
          rw [hkeep hcache, hs₁.queue hpass]
          intro hqueued
          have hfree := ((h.queue hq).free c hqueued).1
          have hcount := h.image.counts c
          have := hhad c hlo hhi
          omega
    refine wp_mono (wp_undo_lower hupdate hd hge hinv₂ hidle₂ hhad hcanRaise)
      (fun _ _ => False.elim) ?_
    rintro - s₃ ⟨-, ⟨n', hinv₃, hle⟩, hidle₃⟩
    refine ⟨⟨n', hinv₃, fun c => le_trans ?_ (hle c)⟩, hidle₃, hfailed⟩
    unfold lowered
    split
    · split
      · exact le_refl _
      · exact sub_le _ _
    · rw [if_neg (by omega)]

/-- What updates of refcounts do, for every depth of their recursion. -/
theorem updateRefcount_spec (hsound : t.Sound) (fuel : Nat) :
    UpdateSpec cfg t (updateRefcount cfg fuel) := by
  induction fuel with
  | zero => exact ⟨fun _ _ _ _ _ _ _ h _ _ => h.stopped, fun _ _ _ _ _ _ _ h _ _ _ => h.stopped⟩
  | succ fuel ih => exact ⟨updateRefcount_raise ih hsound, updateRefcount_lower ih⟩

end update

end QemuAndroid.Qcow2
