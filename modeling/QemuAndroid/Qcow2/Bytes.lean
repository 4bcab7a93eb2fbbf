import QemuAndroid.Qcow2.Allocate

/-!
# Allocations of bytes

`qcow2_alloc_bytes` goes on behind the bytes that it allocated last, or takes a new cluster.  It
keeps such a cluster when its update has to be repeated, without a new search: so neither the
refcount block that the update has made nor a new refcount table may lie in it.  `Avoids` says why
they do not.
-/

namespace QemuAndroid.Qcow2

open Lib Prog Nat

variable {cfg : RefcountConfig} {t : Track} {s s' : RefState} {n m : Nat → Nat} {b c x : Nat}

/-! ## Bytes -/

/-- Bytes that fit into the rest of a cluster touch no other. -/
theorem clusterCount_of_fits {offset size : Nat} (hpos : 0 < size)
    (hfits : cfg.offsetIntoCluster offset + size ≤ cfg.clusterSize) :
    cfg.clusterCount offset size = 1 := by
  have hcs := clusterSize_pos cfg.toQcow2Config
  have hsplit := div_add_mod' offset cfg.clusterSize
  unfold Qcow2Config.offsetIntoCluster at hfits
  unfold RefcountConfig.clusterCount
  rw [if_neg (ne_of_gt hpos)]
  have hlast : (offset + size - 1) / cfg.clusterSize = offset / cfg.clusterSize := by
    rw [show offset + size - 1 =
        (offset % cfg.clusterSize + size - 1) + offset / cfg.clusterSize * cfg.clusterSize by omega,
      add_mul_div_right _ _ hcs, div_eq_of_lt (by omega), zero_add]
  omega

theorem clusterCount_single {size : Nat} (h : 0 < size) (hle : size ≤ cfg.clusterSize) (b : Nat) :
    cfg.clusterCount (b * cfg.clusterSize) size = 1 := by
  refine clusterCount_of_fits h ?_
  rw [Qcow2Config.offsetIntoCluster, mul_mod_left]
  omega

/-- At most a cluster of bytes touches two clusters. -/
theorem clusterCount_le_two {offset size : Nat} (hle : size ≤ cfg.clusterSize) :
    cfg.clusterCount offset size ≤ 2 := by
  have hcs := clusterSize_pos cfg.toQcow2Config
  unfold RefcountConfig.clusterCount
  split
  · omega
  have hlast : (offset + size - 1) / cfg.clusterSize ≤ offset / cfg.clusterSize + 1 := by
    rw [← add_div_right _ hcs]
    exact Nat.div_le_div_right (by omega)
  omega

/-- The cluster behind the one of an offset inside a cluster. -/
theorem roundUp_eq {offset : Nat} (hoff : cfg.offsetIntoCluster offset ≠ 0) :
    (offset + cfg.clusterSize - 1) / cfg.clusterSize = offset / cfg.clusterSize + 1 := by
  have hcs := clusterSize_pos cfg.toQcow2Config
  have hsplit := div_add_mod' offset cfg.clusterSize
  have hlt := mod_lt offset hcs
  unfold Qcow2Config.offsetIntoCluster at hoff
  rw [show offset + cfg.clusterSize - 1 = (offset % cfg.clusterSize - 1) +
      (offset / cfg.clusterSize + 1) * cfg.clusterSize by rw [add_mul]; omega,
    add_mul_div_right _ _ hcs, div_eq_of_lt (by omega), zero_add]

/-- The bytes from `offset` on have been allocated: what they touch had no use, except the cluster
that the bytes before are in. -/
structure NewBytes (cfg : RefcountConfig) (t : Track) (n : Nat → Nat) (size offset : Nat)
    (s : RefState) : Prop where
  inv : Inv cfg t (raised n (cfg.firstCluster offset)
    (cfg.firstCluster offset + cfg.clusterCount offset size) 1) s
  idle : Idle t s
  pos : offset ≠ 0
  unused : ∀ c, cfg.firstCluster offset ≤ c →
    c < cfg.firstCluster offset + cfg.clusterCount offset size →
    offset = t.freeByteOffset ∧ c = cfg.firstCluster offset ∨ n c = 0

/-- Where an attempt of `qcow2_alloc_bytes` starts. -/
structure BytesAt (cfg : RefcountConfig) (t : Track) (n : Nat → Nat) (start offset : Nat)
    (s : RefState) : Prop where
  inv : Inv cfg t n s
  idle : Idle t s
  place : offset = start ∨ ∃ x, offset = x * cfg.clusterSize ∧ x ≠ 0 ∧ Avoids cfg x s

section bytes

variable {start offset size : Nat}

/-- What the loop of `qcow2_alloc_bytes` asks of an attempt. -/
def AttemptSpec (cfg : RefcountConfig) (t : Track) (n : Nat → Nat) (start size : Nat)
    (m : RefProg (Nat ⊕ Nat)) (s : RefState) : Prop :=
  wp m
    (fun r s' => match r with
      | .inl offset => BytesAt cfg t n start offset s'
      | .inr offset => NewBytes cfg t n size offset s')
    (fun e s' => Failed cfg t n e s' ∧ Idle t s') (Stopped cfg t) s

theorem wp_bytesUpdate (hclean : t.clean) (hsound : t.Sound) (fuel : Nat) (h : Inv cfg t n s)
    (hidle : Idle t s) (hcan : CanRaise cfg t s (cfg.firstCluster offset)
      (cfg.firstCluster offset + cfg.clusterCount offset size)) (hpos : offset ≠ 0)
    (hunused : ∀ c, cfg.firstCluster offset ≤ c →
      c < cfg.firstCluster offset + cfg.clusterCount offset size →
      offset = t.freeByteOffset ∧ c = cfg.firstCluster offset ∨ n c = 0)
    (hagain : ∀ s', (cfg.clusterCount offset size = 1 →
        KeptOut cfg t s (cfg.firstCluster offset) .eagain s') →
      offset = start ∨ ∃ x, offset = x * cfg.clusterSize ∧ x ≠ 0 ∧ Avoids cfg x s') :
    AttemptSpec cfg t n start size (bytesUpdate cfg fuel size offset) s := by
  unfold AttemptSpec bytesUpdate
  rw [wp_bind, wp_attempt]
  refine wp_mono ((updateRefcount_spec hsound fuel).raise offset size 1 .never (succ_pos 0) rfl
    rfl h hidle hcan) ?_ ?_
  · rintro - s₁ ⟨hinv₁, hidle₁, -, -⟩
    exact ⟨hinv₁, hidle₁, hpos, hunused⟩
  rintro e s₁ ⟨hfail, hidle₁, hkept⟩
  cases e with
  | eagain =>
    obtain ⟨n', hinv₁, -, heq⟩ := hfail
    rw [heq hclean (by decide)] at hinv₁
    exact ⟨hinv₁, hidle₁, hagain s₁ hkept⟩
  | einval | eio | efbig => exact ⟨hfail, hidle₁⟩

theorem wp_bytesUpdate_cluster (hclean : t.clean) (hsound : t.Sound) (hqueue : ¬t.queue)
    (fuel : Nat) (h : Inv cfg t n s) (hidle : Idle t s) (hsize : 0 < size)
    (hle : size ≤ cfg.clusterSize) (hc : c ≠ 0) (hfree : s.img.refcount cfg c = 0)
    (hkeeps : Keeps cfg c c s) :
    AttemptSpec cfg t n start size (bytesUpdate cfg fuel size (c * cfg.clusterSize)) s := by
  obtain ⟨hn, hmeta⟩ := h.image.of_free hfree
  have hcan : CanRaise cfg t s c (c + 1) := by
    refine ⟨fun _ c' hlo hhi => ?_, fun hq => absurd hq hqueue⟩
    obtain rfl : c' = c := by omega
    exact hmeta
  refine wp_bytesUpdate hclean hsound fuel h hidle ?_ (mul_clusterSize_ne_zero _ hc) ?_ ?_
  · rw [firstCluster_mul, clusterCount_single hsize hle]
    exact hcan
  · rw [firstCluster_mul, clusterCount_single hsize hle]
    intro c' hlo hhi
    obtain rfl : c' = c := by omega
    exact .inr hn
  · rw [firstCluster_mul]
    exact fun s' hkept => .inr ⟨c, rfl, hc,
      hkept (clusterCount_single hsize hle c) hclean rfl c hfree hkeeps⟩

/-- An attempt of `qcow2_alloc_bytes`.  The bytes go on in the cluster of the last ones, also into a
free cluster behind it, or they are at the start of a free cluster. -/
theorem wp_bytesAttempt (hclean : t.clean) (hsep : t.separate) (hsound : t.Sound)
    (hqueue : ¬t.queue) (fuel : Nat) (hsize : 0 < size) (hle : size ≤ cfg.clusterSize)
    (hstart : start = 0 ∨ start = t.freeByteOffset ∧ cfg.offsetIntoCluster start ≠ 0 ∧
      n (cfg.firstCluster start) ≠ 0) (h : BytesAt cfg t n start offset s) :
    AttemptSpec cfg t n start size (bytesAttempt cfg fuel size start offset) s := by
  have hcs := clusterSize_pos cfg.toQcow2Config
  have hsize₁ : cfg.sizeToClusters cfg.clusterSize = 1 := by
    have := sizeToClusters_mul cfg.toQcow2Config 1
    rwa [one_mul] at this
  -- the cluster of the last bytes is not of the metadata
  have hlast : ∀ s₁, Inv cfg t n s₁ → start ≠ 0 →
      s₁.img.metaCount cfg (cfg.firstCluster start) = 0 := by
    intro s₁ hinv hne
    obtain hzero | ⟨-, -, hused⟩ := hstart
    · exact absurd hzero hne
    · by_contra hmeta
      exact hused (hinv.separate hsep _ hmeta).2
  have hassert : ∀ (o : Nat) s₁, Stopped cfg t s₁ →
      (o ≠ 0 → AttemptSpec cfg t n start size (bytesUpdate cfg fuel size o) s₁) →
      AttemptSpec cfg t n start size (do
        assert (o ≠ 0)
        bytesUpdate cfg fuel size o) s₁ := by
    intro o s₁ hstop ho
    unfold AttemptSpec
    rw [wp_bind]
    exact wp_assert (fun hne => ho hne) fun _ => hstop
  unfold AttemptSpec bytesAttempt newBytesCluster
  rw [wp_bind]
  refine wp_ite (fun hnew => ?_) fun hkeep => ?_
  · -- a search, from the start or since the bytes do not fit
    refine wp_seq (wp_allocClustersNoref h.inv h.idle cfg.clusterSize) ?_ ?_
    · rintro - s₁ ⟨b, rfl, hs₁⟩
      have hfree : s₁.img.refcount cfg b = 0 := by
        rw [hs₁.img]
        exact hs₁.free b (le_refl _) (by omega)
      have hidle₁ : Idle t s₁ := fun hq => absurd hq hqueue
      have hcluster : b * cfg.clusterSize ≠ 0 →
          AttemptSpec cfg t n start size (bytesUpdate cfg fuel size (b * cfg.clusterSize)) s₁ := by
        intro hne
        refine wp_bytesUpdate_cluster hclean hsound hqueue fuel hs₁.inv hidle₁ hsize hle ?_ hfree
          (.inr (.inl ?_))
        · rintro rfl
          exact hne (zero_mul _)
        · rw [hs₁.next, hsize₁]
          exact lt_succ_self b
      refine hassert _ s₁ hs₁.inv.stopped fun hne => ?_
      split at hne
      · rw [if_pos ‹_›]
        exact hcluster hne
      rename_i hround
      rw [if_neg hround]
      simp only [not_or, ne_eq, not_not] at hround
      obtain ⟨hne₀, hround⟩ := hround
      rcases h.place with rfl | ⟨x, rfl, -, -⟩
      · -- the bytes go on into the cluster behind
        obtain hzero | ⟨hfbo, hoff, hused⟩ := hstart
        · exact absurd hzero hne₀
        rw [roundUp_eq hoff] at hround
        have hb : offset / cfg.clusterSize + 1 = b := eq_of_mul_eq_mul_right hcs hround
        obtain ⟨hnb, hmb⟩ := hs₁.inv.image.of_free hfree
        have htwo := @clusterCount_le_two cfg offset size hle
        have hfirst : cfg.firstCluster offset = offset / cfg.clusterSize := rfl
        have hcase : ∀ c', cfg.firstCluster offset ≤ c' →
            c' < cfg.firstCluster offset + cfg.clusterCount offset size →
            c' = cfg.firstCluster offset ∨ c' = b := by
          omega
        refine wp_bytesUpdate hclean hsound fuel hs₁.inv hidle₁ ⟨fun _ c' hlo hhi => ?_,
          fun hq => absurd hq hqueue⟩ hne₀ (fun c' hlo hhi => ?_) fun _ _ => .inl rfl
        · rcases hcase c' hlo hhi with rfl | rfl
          · exact hlast s₁ hs₁.inv hne₀
          · exact hmb
        · rcases hcase c' hlo hhi with rfl | rfl
          · exact .inl ⟨hfbo, rfl⟩
          · exact .inr hnb
      · -- the search has found the cluster of the attempt before
        have hb : x = b := by
          rw [show x * cfg.clusterSize + cfg.clusterSize - 1 =
              cfg.clusterSize - 1 + x * cfg.clusterSize by omega,
            add_mul_div_right _ _ hcs, div_eq_of_lt (by omega), zero_add] at hround
          exact eq_of_mul_eq_mul_right hcs hround
        rw [hb] at hne₀ ⊢
        exact hcluster hne₀
    · rintro e s₁ ⟨hinv₁, hidle₁, -⟩
      exact ⟨Failed.of_inv hinv₁ e, hidle₁⟩
  · -- the bytes fit into the rest of the cluster
    rw [not_or] at hkeep
    obtain ⟨hne₀, hfits⟩ := hkeep
    refine hassert _ s h.inv.stopped fun _ => ?_
    rcases h.place with rfl | ⟨x, rfl, hx, havoid⟩
    · obtain hzero | ⟨hfbo, hoff, hused⟩ := hstart
      · exact absurd hzero hne₀
      have hone := @clusterCount_of_fits cfg offset size hsize (by omega)
      refine wp_bytesUpdate hclean hsound fuel h.inv h.idle ⟨fun _ c' hlo hhi => ?_,
        fun hq => absurd hq hqueue⟩ hne₀ (fun c' hlo hhi => ?_) fun _ _ => .inl rfl
      · obtain rfl : c' = cfg.firstCluster offset := by omega
        exact hlast s h.inv hne₀
      · exact .inl ⟨hfbo, by omega⟩
    · -- a cluster that is kept from the attempt before
      exact wp_bytesUpdate_cluster hclean hsound hqueue fuel h.inv h.idle hsize hle hx havoid.1
        (.inr (.inr ⟨rfl, havoid⟩))

/-- `qcow2_alloc_bytes`, where the cluster of the last bytes is still in use. -/
theorem wp_allocBytes (hclean : t.clean) (hsep : t.separate) (hsound : t.Sound) (hqueue : ¬t.queue)
    (fuel : Nat) (h : Inv cfg t n s) (hidle : Idle t s)
    (hlast : t.freeByteOffset = 0 ∨ n (cfg.firstCluster t.freeByteOffset) ≠ 0) :
    wp (allocBytes cfg fuel size) (fun offset s' => (0 < size ∧ size ≤ cfg.clusterSize) ∧
        ∃ s₁, NewBytes cfg t n size offset s₁ ∧
          s' = { s₁ with freeByteOffset := nextBytes cfg offset size })
      (fun e s' => Failed cfg t n e s' ∧ Idle t s') (Stopped cfg t) s := by
  unfold allocBytes
  rw [wp_bind]
  refine wp_assert (fun hsize => ?_) fun _ => h.stopped
  rw [wp_bind, wp_get, wp_bind]
  refine wp_assert (fun hoff => ?_) fun _ => h.stopped
  refine wp_seq (Q := fun start s₁ => Inv cfg t n s₁ ∧ Idle t s₁ ∧ (start = 0 ∨
    start = t.freeByteOffset ∧ cfg.offsetIntoCluster start ≠ 0 ∧ n (cfg.firstCluster start) ≠ 0))
    ?_ ?_ fun _ _ hr => hr
  · refine wp_ite (fun hzero => ⟨h, hidle, .inl rfl⟩) fun hne => ?_
    refine wp_seq (wp_getRefcount s h.image _) ?_ ?_ (fun _ => False.elim)
    · rintro r s₁ ⟨-, hs₁⟩
      refine ⟨h.moved hs₁.moved, hidle.moved hs₁.moved, ?_⟩
      split
      · exact .inl rfl
      · right
        rw [h.freeByteOffset] at hne hoff ⊢
        exact ⟨rfl, hoff.resolve_left hne, hlast.resolve_left hne⟩
    · rintro e s₁ ⟨-, hloads⟩
      exact absurd (h.clean hclean) hloads
  rintro start s₁ ⟨hinv₁, hidle₁, hstart⟩
  refine wp_seq (Q := NewBytes cfg t n size) ?_ ?_ fun _ _ hr => hr
  · refine wp_iterate (BytesAt cfg t n start) (fun _ _ hb => hb.inv.stopped) ?_ fuel
      ⟨hinv₁, hidle₁, .inl rfl⟩
    intro offset s₂ hb
    refine wp_mono (wp_bytesAttempt hclean hsep hsound hqueue fuel hsize.1 hsize.2 hstart hb) ?_
      (fun _ _ hr => hr)
    rintro (offset | offset) s₃ hs₃
    · exact hs₃
    · exact hs₃
  · intro offset s₂ hs₂
    exact ⟨hsize, s₂, hs₂, rfl⟩

end bytes

end QemuAndroid.Qcow2
