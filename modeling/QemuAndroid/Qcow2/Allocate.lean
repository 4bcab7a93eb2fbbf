import QemuAndroid.Qcow2.Updates

/-!
# Allocations of clusters

What `qcow2_alloc_clusters` and `qcow2_alloc_clusters_at` do to the uses of the clusters: those of
the range that they return had no use and have one now.  Both search again when their update has
made a refcount block.
-/

namespace QemuAndroid.Qcow2

open Lib Prog Nat

variable {cfg : RefcountConfig} {t : Track} {s s' : RefState} {n m : Nat → Nat} {c : Nat}

/-- The uses that a failed attempt may leave; without failing accesses it leaves none. -/
structure Attempted (cfg : RefcountConfig) (t : Track) (n : Nat → Nat) (m : Nat → Nat)
    (s : RefState) : Prop where
  inv : Inv cfg t m s
  idle : Idle t s
  le : ∀ c, n c ≤ m c
  eq : t.clean → m = n

theorem Attempted.refl (h : Inv cfg t n s) (hidle : Idle t s) : Attempted cfg t n n s :=
  ⟨h, hidle, fun _ => le_refl _, fun _ => rfl⟩

theorem Attempted.again {n m : Nat → Nat} (h : Attempted cfg t n m s)
    (hfail : Failed cfg t m .eagain s') (hidle : Idle t s') : ∃ m', Attempted cfg t n m' s' := by
  obtain ⟨m', hinv, hle, heq⟩ := hfail
  refine ⟨m', hinv, hidle, fun c => le_trans (h.le c) (hle c), fun hc => ?_⟩
  rw [heq hc (by decide), h.eq hc]

theorem Attempted.fail {n m : Nat → Nat} {e : Errno} (h : Attempted cfg t n m s)
    (hfail : Failed cfg t m e s') : Failed cfg t n e s' := by
  obtain ⟨m', hinv, hle, heq⟩ := hfail
  refine ⟨m', hinv, fun c => le_trans (h.le c) (hle c), fun hc he => ?_⟩
  rw [heq hc he, h.eq hc]

/-- The clusters from `lo` to `hi` have been allocated; they had no uses. -/
structure NewClusters (cfg : RefcountConfig) (t : Track) (n : Nat → Nat) (lo hi : Nat)
    (s : RefState) : Prop where
  inv : ∃ m, Inv cfg t (raised m lo hi 1) s ∧ (∀ c, n c ≤ m c) ∧ (t.clean → m = n) ∧
    ∀ c, lo ≤ c → c < hi → m c = 0
  idle : Idle t s

theorem wp_allocClusters (hsound : t.Sound) (h : Inv cfg t n s) (hidle : Idle t s)
    (fuel size : Nat) :
    wp (allocClusters cfg fuel size) (fun offset s' => ∃ c, offset = c * cfg.clusterSize ∧
        NewClusters cfg t n c (c + cfg.sizeToClusters size) s')
      (fun e s' => Failed cfg t n e s' ∧ Idle t s') (Stopped cfg t) s := by
  refine wp_iterate (fun _ s' => ∃ m, Attempted cfg t n m s') (fun _ s' ⟨m, hm⟩ => hm.inv.stopped)
    ?_ fuel ⟨n, Attempted.refl h hidle⟩
  rintro - s₁ ⟨m, hm⟩
  refine wp_seq (wp_allocClustersNoref hm.inv hm.idle size) ?_ ?_
  · rintro - s₂ ⟨c, rfl, hs₂⟩
    have hfree : ∀ c', c ≤ c' → c' < c + cfg.sizeToClusters size →
        m c' = 0 ∧ s₂.img.metaCount cfg c' = 0 := by
      intro c' hlo hhi
      apply hs₂.inv.image.of_free
      rw [hs₂.img]
      exact hs₂.free c' hlo hhi
    rw [wp_bind, wp_attempt]
    refine wp_mono ((updateRefcount_spec hsound fuel).raise (c * cfg.clusterSize) size 1 .never
      (succ_pos 0) (firstCluster_mul cfg c) (by rw [clusterCount_mul]) hs₂.inv
      (fun hq _ => hs₂.queue hq) ⟨fun _ c' hlo hhi => (hfree c' hlo hhi).2,
        fun hq _ _ _ => not_queued (hs₂.queue hq)⟩) ?_ ?_
    · rintro - s₃ ⟨hinv₃, hidle₃, -, -⟩
      exact ⟨c, rfl, ⟨m, hinv₃, hm.le, hm.eq, fun c' hlo hhi => (hfree c' hlo hhi).1⟩, hidle₃⟩
    rintro e s₃ ⟨hfail, hidle₃, -⟩
    cases e with
    | eagain => exact hm.again hfail hidle₃
    | einval | eio | efbig => exact ⟨hm.fail hfail, hidle₃⟩
  · rintro e s₂ ⟨hinv₂, hidle₂, -⟩
    exact ⟨hm.fail (Failed.of_inv hinv₂ e), hidle₂⟩

/-! ## Allocations at an offset -/

theorem Loaded.trans {s'' : RefState} (h : Loaded s s') (h' : Loaded s' s'') : Loaded s s'' := by
  obtain ⟨l, rfl, hl⟩ := h
  obtain ⟨l', rfl, hl'⟩ := h'
  exact ⟨l', rfl, fun hs => hl' (hl hs)⟩

theorem wp_countFree (h : ImageOk cfg s.img n) (count c : Nat) : wp (countFree cfg count c)
      (fun k s' => Loaded s s' ∧ k ≤ count ∧ FreeFrom cfg s.img c k)
      (fun _ s' => Loaded s s' ∧ s.loads ≠ []) (fun _ => False) s := by
  induction count generalizing c s with
  | zero =>
    refine ⟨Loaded.refl s, le_refl _, fun c' hlo hhi => ?_⟩
    omega
  | succ count ih =>
    refine wp_seq (wp_getRefcount s h c) ?_ (fun _ _ hr => hr)
    rintro - s₁ ⟨rfl, hs₁⟩
    refine wp_ite (fun _ => ?_) fun hzero => ?_
    · refine ⟨hs₁, zero_le _, fun c' hlo hhi => ?_⟩
      omega
    have himg₁ := hs₁.moved.img
    refine wp_seq (ih (s := s₁) (by rwa [himg₁]) (c + 1)) ?_ ?_
    · rintro k s₂ ⟨hs₂, hk, hfree⟩
      refine ⟨hs₁.trans hs₂, succ_le_succ hk, fun c' hlo hhi => ?_⟩
      by_cases hc : c' = c
      · rw [hc]
        exact not_not.1 hzero
      · rw [himg₁] at hfree
        exact hfree c' (by omega) (by omega)
    · rintro e s₂ ⟨hs₂, hl⟩
      exact ⟨hs₁.trans hs₂, fun hs => hl (hs₁.moved.loads hs)⟩

theorem wp_allocClustersAt (hsound : t.Sound) (h : Inv cfg t n s) (hidle : Idle t s)
    (hcache : t.queue → t.cacheDiscards = false) (fuel offset nbClusters : Nat)
    (haligned : t.separate → offset % cfg.clusterSize = 0) :
    wp (allocClustersAt cfg fuel offset nbClusters) (fun k s' => Idle t s' ∧ k ≤ nbClusters ∧
        (∃ m, Inv cfg t (raised m (cfg.firstCluster offset) (cfg.firstCluster offset +
            cfg.clusterCount offset (k * cfg.clusterSize)) 1) s' ∧ (∀ c, n c ≤ m c)) ∧
        (offset % cfg.clusterSize = 0 →
          NewClusters cfg t n (cfg.firstCluster offset) (cfg.firstCluster offset + k) s'))
      (fun e s' => Failed cfg t n e s' ∧ Idle t s') (Stopped cfg t) s := by
  refine wp_ite (fun hzero => ?_) fun _ => ?_
  · have hself : Inv cfg t (raised n (cfg.firstCluster offset) (cfg.firstCluster offset) 1) s := by
      rw [raised_self]
      exact h
    rw [wp_pure, zero_mul]
    exact ⟨hidle, zero_le _, ⟨n, hself, fun _ => le_refl _⟩, fun _ => ⟨⟨n, hself, fun _ =>
      le_refl _, fun _ => rfl, fun c' hlo hhi => by omega⟩, hidle⟩⟩
  refine wp_iterate (fun _ s' => ∃ m, Attempted cfg t n m s') (fun _ s' ⟨m, hm⟩ => hm.inv.stopped)
    ?_ fuel ⟨n, Attempted.refl h hidle⟩
  rintro - s₁ ⟨m, hm⟩
  refine wp_seq (wp_countFree hm.inv.image nbClusters (offset / cfg.clusterSize)) ?_ ?_
    (fun _ => False.elim)
  · rintro k s₂ ⟨hs₂, hk, hfree₁⟩
    have hinv₂ := hm.inv.moved hs₂.moved
    have hidle₂ := hm.idle.moved hs₂.moved
    have hfree : ∀ c', cfg.firstCluster offset ≤ c' → c' < cfg.firstCluster offset + k →
        m c' = 0 ∧ s₂.img.metaCount cfg c' = 0 := by
      intro c' hlo hhi
      apply hinv₂.image.of_free
      rw [hs₂.moved.img]
      exact hfree₁ c' hlo hhi
    have hcan : CanRaise cfg t s₂ (cfg.firstCluster offset)
        (cfg.firstCluster offset + cfg.clusterCount offset (k * cfg.clusterSize)) := by
      refine ⟨fun hsep c' hlo hhi => ?_, fun hq _ _ _ => not_queued (hidle₂ hq (hcache hq))⟩
      rw [clusterCount_aligned (haligned hsep)] at hhi
      exact (hfree c' hlo hhi).2
    rw [wp_bind, wp_attempt]
    refine wp_mono ((updateRefcount_spec hsound fuel).raise offset (k * cfg.clusterSize) 1 .never
      (succ_pos 0) rfl rfl hinv₂ hidle₂ hcan) ?_ ?_
    · rintro - s₃ ⟨hinv₃, hidle₃, -, -⟩
      refine ⟨hidle₃, hk, ⟨m, hinv₃, hm.le⟩, fun hoff => ⟨⟨m, ?_, hm.le, hm.eq, fun c' hlo hhi =>
        (hfree c' hlo hhi).1⟩, hidle₃⟩⟩
      rw [clusterCount_aligned hoff] at hinv₃
      exact hinv₃
    · rintro e s₃ ⟨hfail, hidle₃, -⟩
      cases e with
      | eagain => exact hm.again hfail hidle₃
      | einval | eio | efbig => exact ⟨hm.fail hfail, hidle₃⟩
  · rintro e s₂ ⟨hs₂, -⟩
    exact ⟨hm.fail (Failed.of_inv (hm.inv.moved hs₂.moved) e), hm.idle.moved hs₂.moved⟩

end QemuAndroid.Qcow2
