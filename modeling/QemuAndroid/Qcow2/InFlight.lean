import QemuAndroid.Qcow2.Cluster

/-!
# Allocations in flight are disjoint

The allocations in `s->cluster_allocs` are ranges of whole clusters.  A range of bytes that meets
none of them therefore meets none after rounding to clusters, so a new allocation is disjoint from
those before it, also from those of the same write.
-/

namespace QemuAndroid.Qcow2

open Lib List Nat Qcow2Config

variable {s : Qcow2Config} {img img' : Image} {m : L2Meta} {allocs metas : List L2Meta} {c : Choice}
variable {guestOffset hostOffset bytes offset : Nat}

/-! ## Clusters -/

section

variable (s)

theorem l2Size_pos : 0 < s.l2Size := Nat.two_pow_pos _

theorem startOfCluster_add (offset : Nat) :
    s.startOfCluster offset + s.offsetIntoCluster offset = offset :=
  Nat.sub_add_cancel (mod_le offset _)

theorem dvd_startOfCluster (offset : Nat) : s.clusterSize ∣ s.startOfCluster offset :=
  dvd_sub_mod offset

theorem offsetIntoCluster_lt (offset : Nat) : s.offsetIntoCluster offset < s.clusterSize :=
  mod_lt offset (clusterSize_pos s)

end

theorem dvd_offsetIntoCluster (h : 512 ∣ offset) : 512 ∣ s.offsetIntoCluster offset :=
  (dvd_mod_iff (dvd_clusterSize s)).2 h

theorem sizeToClusters_mul_lt (s : Qcow2Config) (size : Nat) :
    s.sizeToClusters size * s.clusterSize < size + s.clusterSize := by
  have hpos := clusterSize_pos s
  have hle := div_mul_le_self (size + (s.clusterSize - 1)) s.clusterSize
  rw [sizeToClusters]
  omega

theorem sizeToClusters_pos {size : Nat} (h : 0 < size) : 0 < s.sizeToClusters size := by
  have hpos := clusterSize_pos s
  exact div_pos (by omega) hpos

theorem clustersToLookFor_pos (s : Qcow2Config) (guestOffset : Nat) (h : 0 < bytes) :
    0 < clustersToLookFor s guestOffset bytes := by
  have hidx := mod_lt (guestOffset / s.clusterSize) (l2Size_pos s)
  refine Nat.lt_min.2 ⟨sizeToClusters_pos (by omega), ?_⟩
  exact Nat.sub_pos_of_lt hidx

/-! ## Allocations -/

/-- An allocation is a range of whole clusters of one L2 table. -/
structure MetaOk (s : Qcow2Config) (m : L2Meta) : Prop where
  dvd_start : s.clusterSize ∣ l2metaCowStart m
  end_eq : l2metaCowEnd m = l2metaCowStart m + m.nbClusters * s.clusterSize
  table : s.offsetToL2Index m.offset + m.nbClusters ≤ s.l2Size

theorem MetaOk.dvd_end (h : MetaOk s m) : s.clusterSize ∣ l2metaCowEnd m := by
  rw [h.end_eq]
  exact Nat.dvd_add h.dvd_start (dvd_mul_left _ _)

def Meets (guestOffset bytes : Nat) (m : L2Meta) : Prop :=
  l2metaCowStart m < guestOffset + bytes ∧ guestOffset < l2metaCowEnd m

def DisjointMetas (a b : L2Meta) : Prop :=
  l2metaCowEnd a ≤ l2metaCowStart b ∨ l2metaCowEnd b ≤ l2metaCowStart a

section NewMeta

variable {id allocOffset n cluster total : Nat}

theorem l2metaCowStart_newMeta :
    l2metaCowStart (newMeta s id guestOffset bytes allocOffset n) = s.startOfCluster guestOffset :=
  rfl

theorem l2metaCowEnd_newMeta : l2metaCowEnd (newMeta s id guestOffset bytes allocOffset n) =
      s.startOfCluster guestOffset + n * s.clusterSize := by
  obtain ⟨k, hk⟩ := dvd_clusterSize s
  have havail : n * (s.clusterSize / 512) * 512 = n * s.clusterSize := by
    rw [hk, Nat.mul_div_cancel_left k (by decide), mul_assoc, mul_comm k 512]
  simp only [l2metaCowEnd, newMeta]
  rw [add_assoc, ← add_mul, Nat.add_sub_cancel' (min_le_right _ _), havail]

theorem newMeta_ok (hn : n ≤ clustersToLookFor s guestOffset bytes) :
    MetaOk s (newMeta s id guestOffset bytes allocOffset n) where
  dvd_start := dvd_startOfCluster s guestOffset
  end_eq := l2metaCowEnd_newMeta
  table := by
    have hidx := mod_lt (guestOffset / s.clusterSize) (l2Size_pos s)
    have hsame : s.startOfCluster guestOffset / s.clusterSize = guestOffset / s.clusterSize := by
      have hmul := div_add_mod guestOffset s.clusterSize
      have hstart :
          s.startOfCluster guestOffset = s.clusterSize * (guestOffset / s.clusterSize) := by
        rw [startOfCluster]
        omega
      rw [hstart, Nat.mul_div_cancel_left _ (clusterSize_pos s)]
    have hle : n ≤ s.l2Size - s.offsetToL2Index guestOffset := le_trans hn (min_le_right _ _)
    show s.startOfCluster guestOffset / s.clusterSize % s.l2Size + n ≤ s.l2Size
    rw [hsame]
    rw [offsetToL2Index] at hle
    omega

/-- A range of bytes that does not meet an allocation does not meet it after rounding to
clusters. -/
theorem newMeta_disjoint (hm : MetaOk s m) (hn : n ≤ clustersToLookFor s guestOffset bytes)
    (hapart : ¬Meets guestOffset bytes m) :
    DisjointMetas (newMeta s id guestOffset bytes allocOffset n) m := by
  have hsum := startOfCluster_add s guestOffset
  have hlt := offsetIntoCluster_lt s guestOffset
  have hdvd := dvd_startOfCluster s guestOffset
  have hclusters : n * s.clusterSize < s.offsetIntoCluster guestOffset + bytes + s.clusterSize :=
    lt_of_le_of_lt (mul_le_mul_right _ (le_trans hn (min_le_left _ _)))
      (sizeToClusters_mul_lt s _)
  unfold DisjointMetas
  rw [l2metaCowEnd_newMeta, l2metaCowStart_newMeta]
  rcases lt_or_ge (l2metaCowStart m) (guestOffset + bytes) with hstart | hstart
  · -- the allocation ends before the request
    have hend : l2metaCowEnd m ≤ guestOffset := Nat.le_of_not_lt fun h => hapart ⟨hstart, h⟩
    exact .inr (le_of_lt_add_of_dvd (by omega) hm.dvd_end hdvd)
  · refine .inl (le_of_lt_add_of_dvd (by omega) ?_ hm.dvd_start)
    exact Nat.dvd_add hdvd (dvd_mul_left _ _)

end NewMeta

/-! ## Dependencies -/

structure DependencySpec (guestOffset : Nat) (hasMeta : Bool) (allocs : List L2Meta) (bytes : Nat)
    (d : Dependency) : Prop where
  /-- the bytes left meet no allocation -/
  apart : ∀ b, d = .proceed b → b ≤ bytes ∧ (0 < b → ∀ m ∈ allocs, ¬Meets guestOffset b m)
  /-- none are left only for a write with an allocation -/
  nonempty : d = .proceed 0 → 0 < bytes → hasMeta = true
  /-- bytes are left out for an allocation that meets the request, up to its start -/
  shortened : ∀ b, d = .proceed b → b < bytes →
    ∃ m ∈ allocs, Meets guestOffset bytes m ∧ (0 < b → guestOffset + b = l2metaCowStart m)
  /-- the request waits for an allocation that meets it -/
  waits : ∀ id, d = .wait id → hasMeta = false ∧ ∃ m ∈ allocs, m.id = id ∧ Meets guestOffset bytes m

/-- One more allocation, behind which at most `left` of the bytes are asked for. -/
theorem DependencySpec.cons {guestOffset bytes left : Nat} {hasMeta : Bool} {old : L2Meta}
    {allocs : List L2Meta} {d : Dependency} (h : DependencySpec guestOffset hasMeta allocs left d)
    (hle : left ≤ bytes) (hpos : 0 < bytes → 0 < left) (hold : ∀ b ≤ left, ¬Meets guestOffset b old)
    (hless : left < bytes → Meets guestOffset bytes old ∧ guestOffset + left = l2metaCowStart old) :
    DependencySpec guestOffset hasMeta (old :: allocs) bytes d where
  apart b hb := by
    obtain ⟨hb', hall⟩ := h.apart b hb
    exact ⟨hb'.trans hle, fun hpos => forall_mem_cons.2 ⟨hold b hb', hall hpos⟩⟩
  nonempty hb hbytes := h.nonempty hb (hpos hbytes)
  shortened b hb hlt := by
    rcases lt_or_eq_of_le (h.apart b hb).1 with hshort | rfl
    · obtain ⟨m, hm, ⟨hmm, hend⟩, hstart⟩ := h.shortened b hb hshort
      exact ⟨m, mem_cons_of_mem _ hm, ⟨by omega, hend⟩, hstart⟩
    · exact ⟨old, mem_cons_self, (hless hlt).1, fun _ => (hless hlt).2⟩
  waits id hid := by
    obtain ⟨hmeta, m, hm, hmid, hmm, hend⟩ := h.waits id hid
    exact ⟨hmeta, m, mem_cons_of_mem _ hm, hmid, by omega, hend⟩

theorem handleDependencies_spec (guestOffset : Nat) (hasMeta : Bool) (allocs : List L2Meta)
    (bytes : Nat) : DependencySpec guestOffset hasMeta allocs bytes
      (handleDependencies guestOffset hasMeta allocs bytes) := by
  fun_induction handleDependencies guestOffset hasMeta allocs bytes with
  | case1 bytes =>
    constructor
    · rintro b ⟨⟩
      exact ⟨le_refl _, fun _ m hm => absurd hm not_mem_nil⟩
    · rintro ⟨⟩ hpos
      exact absurd hpos (lt_irrefl 0)
    · rintro b ⟨⟩ hlt
      exact absurd hlt (lt_irrefl _)
    · rintro id ⟨⟩
  | case2 old allocs bytes hapart ih =>
    refine ih.cons (le_refl _) id ?_ fun hlt => absurd hlt (lt_irrefl _)
    rintro b hb ⟨h₁, h₂⟩
    omega
  | case3 old allocs bytes hmeets left hzero =>
    rw [not_or, not_le, not_le] at hmeets
    constructor
    · rintro b ⟨⟩
      exact ⟨zero_le _, fun hpos => absurd hpos (lt_irrefl 0)⟩
    · exact fun _ _ => hzero.2
    · rintro b ⟨⟩ _
      exact ⟨old, mem_cons_self, hmeets, fun hpos => absurd hpos (lt_irrefl 0)⟩
    · rintro id ⟨⟩
  | case4 old allocs bytes hmeets left hmeta hzero =>
    rw [not_or, not_le, not_le] at hmeets
    constructor
    · rintro b ⟨⟩
    · rintro ⟨⟩
    · rintro b ⟨⟩
    · rintro id ⟨⟩
      exact ⟨eq_false_of_ne_true fun h => hmeta ⟨hzero, h⟩, old, mem_cons_self, rfl, hmeets⟩
  | case5 old allocs bytes hmeets left _ hne ih =>
    -- stop at the start of a running allocation
    rw [not_or, not_le, not_le] at hmeets
    obtain ⟨hlt, hleft⟩ : guestOffset < l2metaCowStart old ∧
        left = l2metaCowStart old - guestOffset := by
      by_contra hnot
      exact hne (if_neg fun hlt => hnot ⟨hlt, if_pos hlt⟩)
    refine ih.cons (by omega) (by omega) ?_ fun _ => ⟨hmeets, by omega⟩
    rintro b hb ⟨h₁, h₂⟩
    omega

/-! ## Clusters for a request -/

theorem le_contiguousLoop (s : Qcow2Config) (l2 : Nat → L2Entry) (first left i : Nat) :
    i ≤ contiguousLoop s l2 first left i := by
  fun_induction contiguousLoop s l2 first left i with
  | case2 _ i _ ih => exact le_trans (le_succ i) ih
  | _ => exact le_refl _

theorem countContiguousClusters_pos {n : Nat} (h : 0 < n) (l2 : Nat → L2Entry) (first : Nat) :
    0 < countContiguousClusters s n l2 first := by
  obtain ⟨n, rfl⟩ := exists_eq_succ_of_ne_zero (ne_of_gt h)
  rw [countContiguousClusters, contiguousLoop, if_pos (by rw [zero_mul]; rfl)]
  exact le_contiguousLoop s l2 first n 1

theorem le_cowLoop (l2 : Nat → L2Entry) (first left i : Nat) : i ≤ cowLoop l2 first left i := by
  fun_induction cowLoop l2 first left i with
  | case3 _ i _ ih => exact le_trans (le_succ i) ih
  | _ => exact le_refl _

theorem cowLoop_le (l2 : Nat → L2Entry) (first left i : Nat) :
    cowLoop l2 first left i ≤ i + left := by
  fun_induction cowLoop l2 first left i with
  | case1 i => exact le_refl i
  | case2 => exact le_add_right _ _
  | case3 => omega

theorem countCowClusters_le (n : Nat) (l2 : Nat → L2Entry) (first : Nat) :
    countCowClusters n l2 first ≤ n := by
  have h := cowLoop_le l2 first n 0
  rwa [zero_add] at h

def InPlace (e : L2Entry) : Prop := getClusterType e = .normal ∧ e.copied

theorem countCowClusters_pos {l2 : Nat → L2Entry} {n first : Nat} (h : 0 < n)
    (hcow : ¬InPlace (l2 first)) : 0 < countCowClusters n l2 first := by
  obtain ⟨n, rfl⟩ := exists_eq_succ_of_ne_zero (ne_of_gt h)
  have hfirst : ¬(getClusterType (l2 (first + 0)) = .normal ∧ (l2 (first + 0)).copied) := hcow
  rw [countCowClusters, cowLoop, if_neg hfirst]
  exact le_cowLoop l2 first n 1

/-- A place in the image file: not in the first cluster, and as far into its cluster as the place of
the guest. -/
structure HostOk (s : Qcow2Config) (guestOffset hostOffset : Nat) : Prop where
  start_ne : s.startOfCluster hostOffset ≠ 0
  into_eq : s.offsetIntoCluster guestOffset = s.offsetIntoCluster hostOffset

theorem hostOk_add {cluster : Nat} (hdvd : s.clusterSize ∣ cluster) (hne : cluster ≠ 0)
    (guestOffset : Nat) : HostOk s guestOffset (cluster + s.offsetIntoCluster guestOffset) := by
  have hinto : s.offsetIntoCluster (cluster + s.offsetIntoCluster guestOffset) =
      s.offsetIntoCluster guestOffset := by
    obtain ⟨k, rfl⟩ := hdvd
    rw [offsetIntoCluster, mul_add_mod, mod_eq_of_lt (offsetIntoCluster_lt s _)]
  refine ⟨?_, hinto.symm⟩
  have hsum := startOfCluster_add s (cluster + s.offsetIntoCluster guestOffset)
  omega

/-- Going on behind some bytes. -/
theorem HostOk.add (h : HostOk s guestOffset hostOffset) (n : Nat) :
    HostOk s (guestOffset + n) (hostOffset + n) where
  start_ne := by
    have hdvd := dvd_startOfCluster s hostOffset
    have hsum := startOfCluster_add s hostOffset
    have hsum' := startOfCluster_add s (hostOffset + n)
    have hlt := offsetIntoCluster_lt s (hostOffset + n)
    have hle : s.clusterSize ≤ s.startOfCluster hostOffset :=
      le_of_dvd (Nat.pos_of_ne_zero h.start_ne) hdvd
    omega
  into_eq := by
    have hinto := h.into_eq
    unfold offsetIntoCluster at hinto ⊢
    rw [add_mod, hinto, ← add_mod]

/-- The bytes that a function leaves of those it was asked for. -/
structure PartOf (b bytes : Nat) : Prop where
  pos : 0 < b
  le : b ≤ bytes
  dvd : 512 ∣ b

def CopiedSpec (s : Qcow2Config) (l2 : Nat → L2Entry) (guestOffset hostOffset bytes : Nat) :
    Except Failure Copied → Prop
  | .error .assertion => False
  | .error .error => True
  | .ok (.keep h b) => PartOf b bytes ∧ HostOk s guestOffset h
  | .ok (.none b) =>
    b = 0 ∧ hostOffset ≠ 0 ∨ b = bytes ∧ ¬InPlace (l2 (guestOffset / s.clusterSize))

theorem handleCopied_spec (l2 : Nat → L2Entry) (c : Choice) (hpos : 0 < bytes)
    (hbytes : 512 ∣ bytes) (hguest : 512 ∣ guestOffset)
    (hhost : hostOffset = 0 ∨ HostOk s guestOffset hostOffset) :
    CopiedSpec s l2 guestOffset hostOffset bytes
      (handleCopied s c l2 guestOffset hostOffset bytes) := by
  have hassert : hostOffset = 0 ∨
      s.offsetIntoCluster guestOffset = s.offsetIntoCluster hostOffset :=
    hhost.imp_right HostOk.into_eq
  rw [handleCopied, if_neg (not_not_intro hassert)]
  split
  · trivial
  split
  · next hkeep =>
    split
    · trivial
    · next halign =>
      rw [Decidable.not_not] at halign
      split
      · next hmismatch => exact .inl ⟨rfl, hmismatch.1⟩
      have hcount := @countContiguousClusters_pos s _ (clustersToLookFor_pos s guestOffset hpos)
        l2 (guestOffset / s.clusterSize)
      have hlt := offsetIntoCluster_lt s guestOffset
      have hle := Nat.le_mul_of_pos_left s.clusterSize hcount
      have hne : (l2 (guestOffset / s.clusterSize)).offset ≠ 0 := by
        intro hzero
        have htype := hkeep.1
        unfold getClusterType at htype
        split at htype
        · cases htype
        · split at htype <;> cases htype
      refine ⟨⟨Nat.lt_min.2 ⟨hpos, by omega⟩, min_le_left _ _, min_rec' (_ ∣ ·) hbytes ?_⟩,
        hostOk_add (dvd_of_mod_eq_zero halign) hne _⟩
      exact dvd_sub (Nat.dvd_mul_left_of_dvd (dvd_clusterSize s) _) (dvd_offsetIntoCluster hguest)
  · next hcow => exact .inr ⟨rfl, hcow⟩

def AllocatedSpec (s : Qcow2Config) (img : Image) (guestOffset hostOffset bytes : Nat) :
    Except (Failure × Bool) Allocated → Prop
  | .error (.assertion, _) => False
  | .error (.error, _) => True
  | .ok .full => hostOffset ≠ 0
  | .ok (.new m h b) =>
    PartOf b bytes ∧ HostOk s guestOffset h ∧
      ∃ n allocOffset, n ≤ clustersToLookFor s guestOffset bytes ∧
        m = newMeta s img.nextId guestOffset bytes allocOffset n

theorem doAllocClusterOffset_spec {n n' cluster : Nat}
    (h : doAllocClusterOffset s c (s.startOfCluster hostOffset) n = some (cluster, n')) :
    s.clusterSize ∣ cluster ∧ n' ≤ n ∧ (n' = n ∨ s.startOfCluster hostOffset ≠ 0) := by
  unfold doAllocClusterOffset at h
  split at h
  · cases h
  split at h
  · cases h
    exact ⟨dvd_mul_left _ _, le_refl n, .inl rfl⟩
  · next hne =>
    cases h
    exact ⟨dvd_startOfCluster s hostOffset, min_le_right _ _, .inr hne⟩

theorem partOf_newMeta {id allocOffset n : Nat} (hpos : 0 < bytes) (hbytes : 512 ∣ bytes)
    (hguest : 512 ∣ guestOffset) (hn : n ≠ 0) :
    PartOf (min bytes ((newMeta s id guestOffset bytes allocOffset n).nbAvailable * 512 -
      s.offsetIntoCluster guestOffset)) bytes := by
  obtain ⟨b, rfl⟩ := hbytes
  obtain ⟨o, ho⟩ := dvd_offsetIntoCluster (s := s) hguest
  obtain ⟨k, hk⟩ := dvd_clusterSize s
  have hlt := offsetIntoCluster_lt s guestOffset
  have hle : k ≤ n * k := Nat.le_mul_of_pos_left k (Nat.pos_of_ne_zero hn)
  have havail : (newMeta s id guestOffset (512 * b) allocOffset n).nbAvailable = min (b + o)
      (n * k) := by
    simp only [newMeta]
    rw [ho, hk, ← mul_add, Nat.mul_div_cancel_left _ (by decide),
      Nat.mul_div_cancel_left _ (by decide)]
  rw [ho]
  refine ⟨by omega, min_le_left _ _, min_rec' (_ ∣ ·) (dvd_mul_right _ _) ?_⟩
  exact dvd_sub (dvd_mul_left _ _) (dvd_mul_right _ _)

theorem handleAlloc_spec (c : Choice) (hostOffset : Nat) (hpos : 0 < bytes) (hbytes : 512 ∣ bytes)
    (hguest : 512 ∣ guestOffset) (hcow : ¬InPlace (img.l2 (guestOffset / s.clusterSize))) :
    AllocatedSpec s img guestOffset hostOffset bytes
      (handleAlloc s c img guestOffset hostOffset bytes) := by
  have hlook := clustersToLookFor_pos s guestOffset hpos
  rw [handleAlloc, if_neg (ne_of_gt hpos)]
  split
  · trivial
  -- the number of clusters to allocate
  have hcount : ∀ n, n = (if (img.l2 (guestOffset / s.clusterSize)).compressed then 1
      else countCowClusters (clustersToLookFor s guestOffset bytes) img.l2
        (guestOffset / s.clusterSize)) →
      0 < n ∧ n ≤ clustersToLookFor s guestOffset bytes := by
    rintro n rfl
    split
    · exact ⟨one_pos, hlook⟩
    · exact ⟨countCowClusters_pos hlook hcow, countCowClusters_le _ _ _⟩
  generalize (if (img.l2 (guestOffset / s.clusterSize)).compressed then 1
      else countCowClusters (clustersToLookFor s guestOffset bytes) img.l2
        (guestOffset / s.clusterSize)) = n at hcount ⊢
  obtain ⟨hnpos, hnle⟩ := hcount n rfl
  simp only [if_neg (ne_of_gt hnpos)]
  split
  · trivial
  · next cluster n' hdo =>
    obtain ⟨hdvd, hle, hfull⟩ := doAllocClusterOffset_spec hdo
    split
    · next hzero =>
      have hstart : s.startOfCluster hostOffset ≠ 0 := hfull.resolve_left (by omega)
      rintro rfl
      exact hstart (Nat.zero_sub _)
    · next hne =>
      split
      · trivial
      · next hcluster =>
        have hpart := @partOf_newMeta s guestOffset bytes img.nextId cluster n' hpos hbytes
          hguest hne
        rw [if_neg (ne_of_gt hpart.pos)]
        exact ⟨hpart, hostOk_add hdvd hcluster guestOffset, n', cluster, le_trans hle hnle, rfl⟩

/-! ## The search -/

structure AllocsOk (s : Qcow2Config) (img : Image) : Prop where
  ok : ∀ m ∈ img.clusterAllocs, MetaOk s m
  disjoint : img.clusterAllocs.Pairwise DisjointMetas
  ids : (img.clusterAllocs.map L2Meta.id).Nodup
  fresh : ∀ m ∈ img.clusterAllocs, m.id < img.nextId

/-- Allocations are new, or were there before. -/
structure Evolves (img img' : Image) : Prop where
  le : img.nextId ≤ img'.nextId
  mem : ∀ m ∈ img'.clusterAllocs, m ∈ img.clusterAllocs ∨ img.nextId ≤ m.id

theorem Evolves.refl (img : Image) : Evolves img img := ⟨le_refl _, fun _ hm => .inl hm⟩

theorem Evolves.trans {img'' : Image} (h : Evolves img img') (h' : Evolves img' img'') :
    Evolves img img'' where
  le := le_trans h.le h'.le
  mem m hm := by
    rcases h'.mem m hm with hold | hnew
    · exact h.mem m hold
    · exact .inr (le_trans h.le hnew)

theorem AllocsOk.remove (h : AllocsOk s img) (id : Nat) : AllocsOk s (img.remove id) where
  ok m hm := h.ok m (mem_filter.1 hm).1
  disjoint := h.disjoint.filter _
  ids := h.ids.sublist (filter_sublist.map _)
  fresh m hm := h.fresh m (mem_filter.1 hm).1

theorem evolves_remove (img : Image) (id : Nat) : Evolves img (img.remove id) :=
  ⟨le_refl _, fun _ hm => .inl (mem_filter.1 hm).1⟩

/-- A new allocation, for bytes that meet none. -/
theorem AllocsOk.cons (h : AllocsOk s img) {n allocOffset : Nat}
    (hn : n ≤ clustersToLookFor s guestOffset bytes)
    (hapart : ∀ m ∈ img.clusterAllocs, ¬Meets guestOffset bytes m)
    (hm : m = newMeta s img.nextId guestOffset bytes allocOffset n) :
    AllocsOk s { img with clusterAllocs := m :: img.clusterAllocs, nextId := img.nextId + 1 } := by
  subst hm
  refine ⟨?_, ?_, ?_, ?_⟩
  · exact forall_mem_cons.2 ⟨newMeta_ok hn, h.ok⟩
  · refine pairwise_cons.2 ⟨fun old hold => ?_, h.disjoint⟩
    exact newMeta_disjoint (h.ok old hold) hn (hapart old hold)
  · refine nodup_cons.2 ⟨fun hmem => ?_, h.ids⟩
    obtain ⟨old, hold, hid⟩ := mem_map.1 hmem
    exact Nat.ne_of_lt (h.fresh old hold) hid
  · refine forall_mem_cons.2 ⟨lt_succ_self _, fun old hold => ?_⟩
    exact lt_succ_of_lt (h.fresh old hold)

theorem evolves_cons (img : Image) (hm : m.id = img.nextId) :
    Evolves img { img with clusterAllocs := m :: img.clusterAllocs, nextId := img.nextId + 1 } where
  le := le_succ _
  mem := forall_mem_cons.2 ⟨.inr (le_of_eq hm.symm), fun _ hold => .inl hold⟩

/-- The variables of a search, at the top of its loop: either it begins, or the last pass has found
`curBytes` bytes at `clusterOffset`. -/
structure SearchOk (s : Qcow2Config) (offset total : Nat) (v : Search) : Prop where
  cur_le : v.curBytes ≤ v.remaining
  sum : v.start + v.remaining = offset + total
  le_total : v.remaining ≤ total
  dvd_start : 512 ∣ v.start
  dvd_remaining : 512 ∣ v.remaining
  dvd_cur : 512 ∣ v.curBytes
  metas : ∀ m ∈ v.metas, MetaOk s m
  place : v.curBytes = 0 ∧ v.clusterOffset = 0 ∧ v.metas = [] ∧ 0 < v.remaining ∨
    0 < v.curBytes ∧ HostOk s v.start v.clusterOffset

def SearchSpec (s : Qcow2Config) (offset total : Nat) (metas : List L2Meta) (img : Image) :
    SearchResult → Prop
  | .found img' metas' hostOffset remaining =>
    AllocsOk s img' ∧ Evolves img img' ∧ (∀ m ∈ metas', MetaOk s m) ∧ hostOffset ≠ 0 ∧
      remaining < total ∧ 512 ∣ remaining
  | .wait id => metas = [] ∧ ∃ m ∈ img.clusterAllocs, m.id = id ∧ Meets offset total m
  | .error img' _ => AllocsOk s img' ∧ Evolves img img'
  | .abort => False

theorem SearchSpec.of_evolves {total : Nat} {r : SearchResult}
    (hev : Evolves img img') (h : SearchSpec s offset total (m :: metas) img' r) :
    SearchSpec s offset total metas img r := by
  cases r with
  | found img'' metas' hostOffset remaining =>
    exact ⟨h.1, hev.trans h.2.1, h.2.2⟩
  | wait id => cases h.1
  | error img'' metas' => exact ⟨h.1, hev.trans h.2⟩
  | abort => exact h

namespace SearchOk

variable {offset total : Nat} {v : Search}

section

variable (hv : SearchOk s offset total v)
include hv

theorem hostOffset_ne (hpos : 0 < v.curBytes) :
    (if v.hostOffset = 0 then s.startOfCluster v.clusterOffset else v.hostOffset) ≠ 0 := by
  rcases hv.place with ⟨hzero, -⟩ | ⟨-, hok⟩
  · omega
  · split
    · exact hok.start_ne
    · next hne => exact hne

/-- Behind the bytes of the last pass. -/
theorem place_add : v.clusterOffset + v.curBytes = 0 ∨
      HostOk s (v.start + v.curBytes) (v.clusterOffset + v.curBytes) := by
  rcases hv.place with ⟨hzero, hoff, -⟩ | ⟨-, hok⟩
  · exact .inl (by omega)
  · exact .inr (hok.add v.curBytes)

theorem pos_of
    (h : v.clusterOffset + v.curBytes ≠ 0 ∨ (!v.metas.isEmpty) = true ∨
      v.remaining - v.curBytes = 0) : 0 < v.curBytes := by
  rcases hv.place with ⟨hzero, hoff, hnil, hpos⟩ | ⟨hpos, -⟩
  · rw [hnil] at h
    rcases h with h | ⟨⟨⟩⟩ | h <;> omega
  · exact hpos

theorem dvd_remaining_sub : 512 ∣ v.remaining - v.curBytes :=
  dvd_sub hv.dvd_remaining hv.dvd_cur

/-- A pass that found some bytes. -/
theorem next {b b' h hostOffset : Nat} (hb : b ≤ v.remaining - v.curBytes) (hpart : PartOf b' b)
    (hok : HostOk s (v.start + v.curBytes) h) (hmetas : ∀ m ∈ metas, MetaOk s m) :
    SearchOk s offset total
      ⟨v.start + v.curBytes, v.remaining - v.curBytes, h, hostOffset, b', metas⟩ where
  cur_le := le_trans hpart.le hb
  sum := by
    have hcur := hv.cur_le
    have hsum := hv.sum
    show v.start + v.curBytes + (v.remaining - v.curBytes) = offset + total
    omega
  le_total := le_trans (sub_le _ _) hv.le_total
  dvd_start := Nat.dvd_add hv.dvd_start hv.dvd_cur
  dvd_remaining := hv.dvd_remaining_sub
  dvd_cur := hpart.dvd
  metas := hmetas
  place := .inr ⟨hpart.pos, hok⟩

/-- The search may end with what it found. -/
theorem found (himg : AllocsOk s img) (hpos : 0 < v.curBytes) :
    SearchSpec s offset total v.metas img (.found img v.metas
        (if v.hostOffset = 0 then s.startOfCluster v.clusterOffset else v.hostOffset)
        (v.remaining - v.curBytes)) := by
  have hcur := hv.cur_le
  have htotal := hv.le_total
  exact ⟨himg, .refl img, hv.metas, hv.hostOffset_ne hpos, by omega, hv.dvd_remaining_sub⟩

end

end SearchOk

/-- The bytes up to the next allocation are whole sectors. -/
theorem DependencySpec.dvd {hasMeta : Bool} {b : Nat} (himg : AllocsOk s img)
    (h : DependencySpec guestOffset hasMeta img.clusterAllocs bytes (.proceed b))
    (hguest : 512 ∣ guestOffset) (hbytes : 512 ∣ bytes) : 512 ∣ b := by
  rcases Nat.eq_zero_or_pos b with rfl | hpos
  · exact dvd_zero 512
  rcases eq_or_lt_of_le (h.apart b rfl).1 with heq | hlt
  · exact heq ▸ hbytes
  obtain ⟨m, hm, -, hend⟩ := h.shortened b rfl hlt
  have hdvd : 512 ∣ guestOffset + b :=
    hend hpos ▸ dvd_trans (dvd_clusterSize s) (himg.ok m hm).dvd_start
  exact (Nat.dvd_add_right hguest).1 hdvd

theorem searchLoop_spec (choices : Nat → Choice) {fuel total : Nat} {img : Image} {v : Search}
    (himg : AllocsOk s img) (hv : SearchOk s offset total v)
    (hfuel : v.remaining - v.curBytes < fuel) :
    SearchSpec s offset total v.metas img (searchLoop s choices fuel img v) := by
  induction fuel generalizing img v with
  | zero => exact absurd hfuel (not_lt_zero _)
  | succ fuel ih =>
    have hcur := hv.cur_le
    have hstart : 512 ∣ v.start + v.curBytes := Nat.dvd_add hv.dvd_start hv.dvd_cur
    have hfound := hv.found himg
    simp only [searchLoop, if_neg (not_lt.2 hcur)]
    split
    · next hzero => exact hfound (hv.pos_of (.inr (.inr hzero)))
    next hne =>
    have hdep := handleDependencies_spec (v.start + v.curBytes) (!v.metas.isEmpty)
      img.clusterAllocs (v.remaining - v.curBytes)
    generalize handleDependencies (v.start + v.curBytes) (!v.metas.isEmpty) img.clusterAllocs
      (v.remaining - v.curBytes) = d at hdep ⊢
    cases d with
    | wait id =>
      obtain ⟨hmeta, m, hm, hid, hmeets⟩ := hdep.waits id rfl
      have hnil : v.metas = [] := by
        rwa [Bool.not_eq_false', List.isEmpty_iff] at hmeta
      have hsum := hv.sum
      have htotal := hv.le_total
      have h₁ := hmeets.1
      have h₂ := hmeets.2
      simp only [if_pos hnil]
      exact ⟨hnil, m, hm, hid, by omega, by omega⟩
    | proceed b =>
      dsimp only
      split
      · next hzero =>
        subst hzero
        exact hfound (hv.pos_of (.inr (.inl (hdep.nonempty rfl (Nat.pos_of_ne_zero hne)))))
      next hb =>
      have hbpos := Nat.pos_of_ne_zero hb
      obtain ⟨hble, hapart⟩ := hdep.apart b rfl
      have hbd : 512 ∣ b := hdep.dvd himg hstart hv.dvd_remaining_sub
      have hnextFuel {b' : Nat} (hpart : PartOf b' b) : v.remaining - v.curBytes - b' < fuel := by
        have := hpart.pos
        omega
      have hcop := handleCopied_spec img.l2 (choices fuel) hbpos hbd hstart hv.place_add
      generalize handleCopied s (choices fuel) img.l2 (v.start + v.curBytes)
        (v.clusterOffset + v.curBytes) b = r at hcop ⊢
      rcases r with (_ | _) | (⟨h, b'⟩ | b')
      · exact ⟨himg, .refl img⟩
      · exact hcop.elim
      · exact ih himg (hv.next hble hcop.1 hcop.2 hv.metas) (hnextFuel hcop.1)
      dsimp only
      rcases hcop with ⟨rfl, hplace⟩ | ⟨rfl, hcow⟩
      · exact hfound (hv.pos_of (.inl hplace))
      rw [if_neg hb]
      have halloc := handleAlloc_spec (choices fuel) (v.clusterOffset + v.curBytes) hbpos hbd hstart
        hcow
      generalize handleAlloc s (choices fuel) img (v.start + v.curBytes)
        (v.clusterOffset + v.curBytes) b' = r at halloc ⊢
      rcases r with ⟨_ | _, _ | _⟩ | (⟨m, h, b''⟩ | _)
      · exact ⟨himg, .refl img⟩
      · cases v.metas with
        | nil => exact ⟨himg, .refl img⟩
        | cons m metas => exact ⟨himg.remove m.id, evolves_remove img m.id⟩
      · exact halloc.elim
      · exact halloc.elim
      · obtain ⟨hpart, hok, n, allocOffset, hn, hm⟩ := halloc
        have hid : m.id = img.nextId := hm ▸ rfl
        have hms : ∀ m' ∈ m :: v.metas, MetaOk s m' :=
          forall_mem_cons.2 ⟨hm ▸ newMeta_ok hn, hv.metas⟩
        exact (ih (himg.cons hn (hapart hbpos) hm) (hv.next hble hpart hok hms)
          (hnextFuel hpart)).of_evolves (evolves_cons img hid)
      · exact hfound (hv.pos_of (.inl halloc))

/-- A search finds some sectors, or waits for an allocation that meets the request. -/
theorem qcow2AllocClusterOffset_spec (choices : Nat → Choice) {num : Nat}
    (himg : AllocsOk s img) (hoffset : 512 ∣ offset) (hnum : 0 < num) :
    SearchSpec s offset (num * 512) [] img (qcow2AllocClusterOffset s choices img offset num) := by
  have hpos : 0 < num * 512 := Nat.mul_pos hnum (by decide)
  have hv : SearchOk s offset (num * 512) ⟨offset, num * 512, 0, 0, 0, []⟩ :=
    ⟨zero_le _, rfl, le_refl _, hoffset, dvd_mul_left _ _, dvd_zero _,
      fun m hm => absurd hm not_mem_nil, .inl ⟨rfl, rfl, rfl, hpos⟩⟩
  have h := searchLoop_spec choices himg hv (lt_succ_self (num * 512))
  rw [qcow2AllocClusterOffset, if_neg (not_not_intro (mod_eq_zero_of_dvd hoffset))]
  generalize searchLoop s choices (num * 512 + 1) img ⟨offset, num * 512, 0, 0, 0, []⟩ = r at h ⊢
  cases r with
  | found img' metas hostOffset remaining =>
    have hhost : hostOffset ≠ 0 := h.2.2.2.1
    have hrem : remaining < num * 512 := h.2.2.2.2.1
    have hassert : ¬(num - remaining / 512 = 0 ∨ hostOffset = 0) := by
      rintro (hzero | hzero)
      · omega
      · exact hhost hzero
    simp only [if_neg hassert]
    exact h
  | wait id => exact h
  | error img' metas => exact h
  | abort => exact h

/-! ## Writes -/

/-- A write between two steps. -/
def ReqOk (s : Qcow2Config) (img : Image) (r : WriteReq) : Prop :=
  0 < r.remainingSectors ∧
    match r.phase with
    | .waiting entry woken => woken = false →
        ∃ m ∈ img.clusterAllocs, m.id = entry ∧
        Meets (r.sectorNum * 512) (r.remainingSectors * 512) m
    | .data num metas => 0 < num ∧ ∀ m ∈ metas, MetaOk s m
    | .cow _ num metas => 0 < num ∧ ∀ m ∈ metas, MetaOk s m

/-- What a step of a write leaves behind. -/
def Outcome.Good (s : Qcow2Config) (img : Image) : Outcome → Prop
  | .parked img' req => AllocsOk s img' ∧ Evolves img img' ∧ ReqOk s img' req
  | .ended img' => AllocsOk s img' ∧ Evolves img img'
  | .abort => False

theorem Outcome.Good.of_evolves {o : Outcome} (hev : Evolves img img') (h : o.Good s img') :
    o.Good s img := by
  cases o with
  | parked img'' req => exact ⟨h.1, hev.trans h.2.1, h.2.2⟩
  | ended img'' => exact ⟨h.1, hev.trans h.2⟩
  | abort => exact h

theorem failWrite_good (himg : AllocsOk s img) (metas : List L2Meta) :
    (failWrite img metas).Good s img := by
  induction metas generalizing img with
  | nil => exact ⟨himg, .refl img⟩
  | cons m metas ih => exact (ih (himg.remove m.id)).of_evolves (evolves_remove img m.id)

section Request

variable {c : Choices} {req : WriteReq} {num : Nat} {metas rest : List L2Meta}

theorem curNrSectors_pos (h : 0 < req.remainingSectors) : 0 < curNrSectors s req := by
  obtain ⟨k, hk⟩ := dvd_clusterSize s
  have hpos := clusterSize_pos s
  have hk' : s.clusterSize / 512 = k := by rw [hk, Nat.mul_div_cancel_left k (by decide)]
  unfold curNrSectors
  rw [hk']
  split
  · have hlt := mod_lt req.sectorNum (show 0 < k by omega)
    exact Nat.lt_min.2 ⟨h, by omega⟩
  · exact h

theorem curNrSectors_le : curNrSectors s req ≤ req.remainingSectors := by
  unfold curNrSectors
  split
  · exact min_le_left _ _
  · exact le_refl _

theorem writePart_good (c : Choices) (himg : AllocsOk s img) (hpos : 0 < req.remainingSectors) :
    (writePart s c img req).Good s img := by
  have hcur := @curNrSectors_pos s req hpos
  have hle := @curNrSectors_le s req
  unfold writePart
  generalize curNrSectors s req = cur at hcur hle
  have hspec := qcow2AllocClusterOffset_spec c.search himg
    (dvd_mul_left 512 req.sectorNum) hcur
  dsimp only
  generalize qcow2AllocClusterOffset s c.search img (req.sectorNum * 512) cur = r at hspec ⊢
  cases r with
  | found img' metas hostOffset remaining =>
    obtain ⟨himg', hev, hmetas, -, hrem, -⟩ := hspec
    dsimp only
    split
    · exact ⟨himg', hev, hpos, by omega, hmetas⟩
    · exact (failWrite_good himg' metas).of_evolves hev
  | wait entry =>
    obtain ⟨-, m, hm, hid, hmeets⟩ := hspec
    refine ⟨himg, .refl img, hpos, fun _ => ⟨m, hm, hid, ?_, hmeets.2⟩⟩
    exact Nat.lt_of_lt_of_le hmeets.1 (Nat.add_le_add_left (Nat.mul_le_mul_right 512 hle) _)
  | error img' metas => exact (failWrite_good hspec.1 metas).of_evolves hspec.2
  | abort => exact hspec

variable {next : Image → Outcome}

section

variable (c)

section

variable (himg : AllocsOk s img)
include himg

theorem linkTable_good (hm : MetaOk s m) (rest : List L2Meta)
    (hnext : ∀ img', AllocsOk s img' → (next img').Good s img') :
    (linkTable s c img m rest next).Good s img := by
  unfold linkTable
  split
  · exact failWrite_good himg (m :: rest)
  rw [if_neg (not_lt.2 hm.table)]
  have hlinked (l2 : Nat → L2Entry) : (next ({ img with l2 := l2 }.remove m.id)).Good s img := by
    have himg' : AllocsOk s { img with l2 := l2 } :=
      ⟨himg.ok, himg.disjoint, himg.ids, himg.fresh⟩
    have hev : Evolves img ({ img with l2 := l2 }.remove m.id) :=
      ⟨le_refl _, fun _ hmem => .inl (mem_filter.1 hmem).1⟩
    exact (hnext _ (himg'.remove m.id)).of_evolves hev
  exact hlinked _

theorem linkCowEnd_good (hpos : 0 < req.remainingSectors) (hnum : 0 < num)
    (hmetas : ∀ m' ∈ m :: rest, MetaOk s m')
    (hnext : ∀ img', AllocsOk s img' → (next img').Good s img') :
    (linkCowEnd s c img req num m rest next).Good s img := by
  unfold linkCowEnd
  split
  · exact ⟨himg, .refl img, hpos, hnum, hmetas⟩
  · exact linkTable_good c himg (hmetas m mem_cons_self) rest hnext

theorem endPart_good : (endPart s c req num img).Good s img := by
  unfold endPart
  dsimp only
  split
  · exact ⟨himg, .refl img⟩
  · next hne => exact writePart_good c himg (Nat.pos_of_ne_zero hne)

theorem linkMetas_good (hpos : 0 < req.remainingSectors) (hnum : 0 < num)
    (hmetas : ∀ m ∈ metas, MetaOk s m) : (linkMetas s c req num metas img).Good s img := by
  induction metas generalizing img with
  | nil => exact endPart_good c himg
  | cons m rest ih =>
    rw [linkMetas]
    split
    · exact ⟨himg, .refl img, hpos, hnum, hmetas⟩
    · have hrest : ∀ m' ∈ rest, MetaOk s m' := fun m' h => hmetas m' (mem_cons_of_mem _ h)
      exact linkCowEnd_good c himg hpos hnum hmetas fun img' himg' => ih himg' hrest

end

end

/-- A write that waits is woken when the allocation it waits for is gone. -/
theorem ReqOk.wake (himg : AllocsOk s img) (hev : Evolves img img') {r : WriteReq}
    (h : ReqOk s img r) : ReqOk s img' (r.wake img') := by
  obtain ⟨hpos, hphase⟩ := h
  unfold WriteReq.wake
  cases hp : r.phase with
  | waiting entry woken =>
    dsimp only
    rw [hp] at hphase
    split
    · refine ⟨hpos, ?_⟩
      intro hfalse
      cases hfalse
    · next hin =>
      refine ⟨hpos, ?_⟩
      rw [hp]
      intro hwoken
      obtain ⟨m, hm, hid, hmeets⟩ := hphase hwoken
      simp only [all_eq_true, decide_eq_true_eq, not_forall, Decidable.not_not] at hin
      obtain ⟨m', hm', hid'⟩ := hin
      rcases hev.mem m' hm' with hold | hnew
      · -- addresses are unique, so it is the same allocation
        obtain rfl : m' = m := inj_on_of_nodup_map himg.ids hold hm (hid'.trans hid.symm)
        exact ⟨m', hm', hid', hmeets⟩
      · have hlt := himg.fresh m hm
        omega
  | data | cow =>
    rw [hp] at hphase
    exact ⟨hpos, by rw [hp]; exact hphase⟩

end Request

/-! ## Runs -/

/-- The writes of an image between two steps. -/
structure WriteState.Ok (s : Qcow2Config) (st : WriteState) : Prop where
  img : AllocsOk s st.img
  reqs : ∀ r ∈ st.reqs, ReqOk s st.img r
  aborted : st.aborted = false

theorem WriteState.Ok.after {st : WriteState} (h : st.Ok s) (id : Nat) {o : Outcome}
    (hgood : o.Good s st.img) : (st.after id o).Ok s := by
  have hothers {img' : Image} (hev : Evolves st.img img') :
      ∀ r ∈ (st.reqs.filter (·.id ≠ id)).map (WriteReq.wake img'), ReqOk s img' r := by
    refine forall_mem_map.2 fun r hr => ?_
    exact (h.reqs r (mem_filter.1 hr).1).wake h.img hev
  cases o with
  | parked img' req =>
    obtain ⟨himg', hev, hreq⟩ := hgood
    refine ⟨himg', ?_, h.aborted⟩
    exact forall_mem_cons.2 ⟨hreq.wake himg' (.refl img'), hothers hev⟩
  | ended img' => exact ⟨hgood.1, hothers hgood.2, h.aborted⟩
  | abort => exact hgood.elim

theorem writeStep_ok {st st' : WriteState} {e : WriteEvent} (h : st.Ok s)
    (hstep : writeStep s st e = some st') : st'.Ok s := by
  have hreq {id : Nat} {req : WriteReq} (hfind : st.reqs.find? (·.id = id) = some req) :
      ReqOk s st.img req := h.reqs req (mem_of_find?_eq_some hfind)
  revert hstep
  -- the branches of `writeStep` that lead to a state
  fun_cases writeStep s st e <;> rintro ⟨⟩
  · next id _ _ c hne =>
    rw [not_or] at hne
    exact h.after id (writePart_good c h.img (Nat.pos_of_ne_zero hne.2))
  · next id c _ hfind _ _ => exact h.after id (writePart_good c h.img (hreq hfind).1)
  · next id c _ hfind _ _ hphase =>
    obtain ⟨hpos, hmetas⟩ := hreq hfind
    rw [hphase] at hmetas
    exact h.after id (linkMetas_good c h.img hpos hmetas.1 hmetas.2)
  · next id _ _ _ _ _ metas _ _ => exact h.after id (failWrite_good h.img metas)
  · next id c req hfind atEnd num m rest hphase =>
    obtain ⟨hpos, hmetas⟩ := hreq hfind
    rw [hphase] at hmetas
    have hnext : ∀ img', AllocsOk s img' → (linkMetas s c req num rest img').Good s img' :=
      fun img' himg' => linkMetas_good c himg' hpos hmetas.1
        fun m' hm' => hmetas.2 m' (mem_cons_of_mem _ hm')
    refine h.after id ?_
    split
    · exact linkTable_good c h.img (hmetas.2 m mem_cons_self) rest hnext
    · exact linkCowEnd_good c h.img hpos hmetas.1 hmetas.2 hnext
  · next id _ _ _ _ _ _ m rest _ _ => exact h.after id (failWrite_good h.img (m :: rest))

theorem ok_of_reachable {st : WriteState} (h : (writeMachine s).Reachable st) : st.Ok s := by
  refine h.invariant ?_ ?_
  · rintro ⟨⟨l2, allocs, nextId⟩, reqs, aborted⟩ ⟨rfl, rfl, rfl⟩
    exact ⟨⟨nofun, .nil, .nil, nofun⟩, nofun, rfl⟩
  · intro st e st' _ hok _ hstep
    exact writeStep_ok hok hstep

/-- In every reachable state the allocations in flight are disjoint, and no assertion has failed.  A
request is shortened or made to wait only for an allocation that meets it; nothing is left of it
without a wait only when it has an allocation already, and what is written is never empty. -/
theorem cluster_allocs_disjoint (s : Qcow2Config) (st : WriteState)
    (h : (writeMachine s).Reachable st) : st.img.clusterAllocs.Pairwise DisjointMetas ∧
    (∀ guestOffset hasMeta bytes b,
      handleDependencies guestOffset hasMeta st.img.clusterAllocs bytes = .proceed b →
        (b < bytes → ∃ m ∈ st.img.clusterAllocs, Meets guestOffset bytes m) ∧
        (b = 0 → 0 < bytes → hasMeta = true)) ∧
    (∀ r ∈ st.reqs, ∀ entry, r.phase = .waiting entry false →
      ∃ m ∈ st.img.clusterAllocs, m.id = entry ∧
        Meets (r.sectorNum * 512) (r.remainingSectors * 512) m) ∧
    (∀ r ∈ st.reqs, ∀ num metas, r.phase = .data num metas → 0 < num) ∧ st.aborted = false := by
  have hok := ok_of_reachable h
  refine ⟨hok.img.disjoint, ?_, ?_, ?_, hok.aborted⟩
  · intro guestOffset hasMeta bytes b hb
    have hspec := handleDependencies_spec guestOffset hasMeta st.img.clusterAllocs bytes
    refine ⟨fun hlt => ?_, ?_⟩
    · obtain ⟨m, hm, hmeets, -⟩ := hspec.shortened b hb hlt
      exact ⟨m, hm, hmeets⟩
    · rintro rfl hpos
      exact hspec.nonempty hb hpos
  · intro r hr entry hphase
    have hreq := (hok.reqs r hr).2
    rw [hphase] at hreq
    exact hreq rfl
  · intro r hr num metas hphase
    have hreq := (hok.reqs r hr).2
    rw [hphase] at hreq
    exact hreq.1

/-- The environment finds free clusters from cluster 5 on, and nothing fails. -/
def allFree : Choices := ⟨fun _ => ⟨true, true, some (5, 5)⟩, true, fun _ => true⟩

/-- An image with clusters of 1024 bytes, none of which is allocated. -/
def emptyImage : WriteState := ⟨⟨fun _ => ⟨0, false, false, false⟩, [], 0⟩, [], false⟩

/-- A write of sectors 1 to 4, one of sectors 7 and 8, and one of sectors 5 to 7, which waits for
the first one's allocation and then for the second one's. -/
def threeWrites : List WriteEvent :=
  [.write 1 1 4 allFree, .write 2 7 2 allFree, .write 3 5 3 allFree, .dataDone 1 true allFree,
    .cowDone 1 true allFree, .cowDone 1 true allFree, .resume 3 allFree]

theorem cluster_allocs_disjoint_threeWrites :
    ∃ st, (writeMachine ⟨10, false, by decide⟩).run emptyImage threeWrites = some st ∧
      st.img.clusterAllocs.map (fun m => (l2metaCowStart m, l2metaCowEnd m)) = [(3072, 5120)] ∧
      st.img.clusterAllocs.Pairwise DisjointMetas := by
  obtain ⟨st, hst, hreach, hallocs⟩ := Machine.Reachable.exists_of_run
    (M := writeMachine ⟨10, false, by decide⟩) (s := emptyImage) (.init ⟨rfl, rfl, rfl⟩)
    threeWrites (P := fun st =>
      st.img.clusterAllocs.map (fun m => (l2metaCowStart m, l2metaCowEnd m)) = [(3072, 5120)])
        (by decide)
  exact ⟨st, hst, hallocs, (cluster_allocs_disjoint _ st hreach).1⟩

end QemuAndroid.Qcow2
