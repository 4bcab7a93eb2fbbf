import Mathlib.Data.List.Pairwise
import QemuAndroid.Qcow2.Bytes
import QemuAndroid.Qcow2.Discards

/-!
# Ranges of clusters

`qcow2_alloc_clusters`, `qcow2_alloc_clusters_at`, `qcow2_alloc_bytes` and `qcow2_free_clusters` in
any order, with all accesses to the image succeeding.  The ranges that have been allocated and not
been freed stay apart from each other and from the refcount blocks and the refcount table, and the
refcounts count them.

A cluster that is handed out was free before, or it belonged to a refcount table that the same call
has replaced and freed: `qcow2_alloc_clusters` searches again after that.
-/

namespace QemuAndroid.Qcow2

open Lib Prog List Nat RefcountConfig

/-! ## Ranges -/

/-- A range of an image file that has been allocated. -/
structure Range where
  offset : Nat
  size : Nat
  /-- allocated by `qcow2_alloc_bytes` -/
  bytes : Bool
  deriving DecidableEq

instance (cfg : RefcountConfig) (offset size c : Nat) : Decidable (cfg.Touches offset size c) :=
  inferInstanceAs (Decidable (_ ∧ _))

variable (cfg : RefcountConfig)

def Range.Touches (r : Range) (c : Nat) : Prop := cfg.Touches r.offset r.size c
deriving Decidable

/-- The number of ranges that have a part of a cluster. -/
def rangeCount (live : List Range) (c : Nat) : Nat := live.countP fun r => r.Touches cfg c

/-- Two ranges do not overlap: they have no byte in common if both come from `qcow2_alloc_bytes`,
and otherwise no cluster. -/
def Range.Apart (r r' : Range) : Prop :=
  if r.bytes = true ∧ r'.bytes = true then
    r.offset + r.size ≤ r'.offset ∨ r'.offset + r'.size ≤ r.offset
  else ∀ c, r.Touches cfg c → ¬r'.Touches cfg c

variable {cfg} {r r' : Range} {c fuel size : Nat}

theorem RefcountConfig.touches_byte {offset x : Nat} (hlo : offset ≤ x) (hhi : x < offset + size) :
    cfg.Touches offset size (cfg.firstCluster x) := by
  have hlast : x / cfg.clusterSize ≤ (offset + size - 1) / cfg.clusterSize :=
    Nat.div_le_div_right (by omega)
  have hfirst : offset / cfg.clusterSize ≤ x / cfg.clusterSize := Nat.div_le_div_right hlo
  refine ⟨hfirst, ?_⟩
  unfold firstCluster clusterCount
  rw [if_neg (by omega)]
  omega

/-- Two bytes with no start of a cluster between them. -/
theorem RefcountConfig.firstCluster_pred {x : Nat} (h : cfg.offsetIntoCluster x ≠ 0) :
    cfg.firstCluster x = cfg.firstCluster (x - 1) := by
  have hpos := clusterSize_pos cfg.toQcow2Config
  have hsplit := div_add_mod' x cfg.clusterSize
  have hlt := mod_lt x hpos
  unfold Qcow2Config.offsetIntoCluster at h
  have hpred : x - 1 = x % cfg.clusterSize - 1 + x / cfg.clusterSize * cfg.clusterSize := by omega
  have hzero : (x % cfg.clusterSize - 1) / cfg.clusterSize = 0 := div_eq_of_lt (by omega)
  unfold firstCluster
  rw [hpred, add_mul_div_right _ _ hpos, hzero, zero_add]

/-- Ranges without a common cluster have no byte in common either. -/
theorem Range.Apart.of_clusters (hr : r.bytes = true → 0 < r.size)
    (hr' : r'.bytes = true → 0 < r'.size) (h : ∀ c, r.Touches cfg c → ¬r'.Touches cfg c) :
    r.Apart cfg r' := by
  unfold Range.Apart
  split
  · rename_i hbytes
    have hs := hr hbytes.1
    have hs' := hr' hbytes.2
    by_contra hover
    rw [not_or, not_le, not_le] at hover
    obtain ⟨hlt, hlt'⟩ := hover
    -- the larger offset is in both
    have hmax := le_max_left r.offset r'.offset
    have hmax' := le_max_right r.offset r'.offset
    exact h _ (touches_byte hmax (Nat.max_lt.2 ⟨by omega, hlt⟩))
      (touches_byte hmax' (Nat.max_lt.2 ⟨hlt', by omega⟩))
  · exact h

theorem Range.Apart.symm (h : r.Apart cfg r') : r'.Apart cfg r := by
  unfold Range.Apart at h ⊢
  split at h
  · rename_i hbytes
    rw [if_pos hbytes.symm]
    exact h.symm
  · rename_i hbytes
    rw [if_neg fun hb => hbytes hb.symm]
    exact fun c hc hc' => h c hc' hc

instance : Std.Symm (Range.Apart cfg) := ⟨fun _ _ => Range.Apart.symm⟩

theorem rangeCount_eq_zero {live : List Range} :
    rangeCount cfg live c = 0 ↔ ∀ r ∈ live, ¬r.Touches cfg c := by
  unfold rangeCount
  rw [countP_eq_zero]
  constructor
  · intro h r hr ht
    exact h r hr (decide_eq_true ht)
  · intro h r hr ht
    exact h r hr (of_decide_eq_true ht)

theorem rangeCount_cons (r : Range) (live : List Range) :
    rangeCount cfg (r :: live) = raised (rangeCount cfg live) (cfg.firstCluster r.offset)
      (cfg.firstCluster r.offset + cfg.clusterCount r.offset r.size) 1 := by
  funext c
  unfold rangeCount raised
  rw [countP_cons]
  by_cases ht : r.Touches cfg c
  · rw [if_pos (decide_eq_true ht)]
    exact (if_pos ht).symm
  · rw [if_neg (fun h => ht (of_decide_eq_true h))]
    exact (if_neg ht).symm

theorem rangeCount_erase {live : List Range} (h : r ∈ live) :
    rangeCount cfg live = rangeCount cfg (r :: live.erase r) := by
  funext c
  exact (perm_cons_erase h).countP_eq _

/-! ## Runs -/

inductive AllocEvent
  | allocClusters (size : Nat)
  | allocClustersAt (offset nbClusters : Nat)
  | allocBytes (size : Nat)
  | freeClusters (r : Range) (type : DiscardType)

structure AllocState where
  st : RefState
  /-- the ranges that have been allocated and not been freed -/
  live : List Range
  /-- other uses of the clusters, which never end -/
  used : Nat → Nat
  /-- a call has failed with `-EFBIG` -/
  tooBig : Bool

/-- The state after a call; a call that does not go on has none. -/
def afterCall {α : Type} (a : AllocState) (f : RefProg α) (live : α → List Range) :
    Option AllocState :=
  match f a.st with
  | (.ok x, s') => some { a with st := s', live := live x }
  | (.raised e, s') => some { a with st := s', tooBig := a.tooBig || e == .efbig }
  | (.halted _, _) => none

def allocNext (cfg : RefcountConfig) (fuel : Nat) (a : AllocState) : AllocEvent → Option AllocState
  | .allocClusters size =>
    afterCall a (allocClusters cfg fuel size) fun offset => ⟨offset, size, false⟩ :: a.live
  | .allocClustersAt offset nbClusters =>
    afterCall a (allocClustersAt cfg fuel offset nbClusters) fun n =>
      ⟨offset, n * cfg.clusterSize, false⟩ :: a.live
  | .allocBytes size =>
    afterCall a (allocBytes cfg fuel size) fun offset => ⟨offset, size, true⟩ :: a.live
  | .freeClusters r type =>
    if r ∈ a.live then
      afterCall a (freeClusters cfg fuel r.offset r.size type) fun _ => a.live.erase r
    else none

/-- The uses of a cluster other than by the metadata. -/
def AllocState.uses (cfg : RefcountConfig) (a : AllocState) (c : Nat) : Nat :=
  a.used c + rangeCount cfg a.live c

/-- An image whose refcounts match its use, before the first call. -/
structure Fresh (cfg : RefcountConfig) (a : AllocState) : Prop where
  image : ImageOk cfg a.st.img (a.uses cfg)
  separate : Separate cfg a.st.img (a.uses cfg)
  apart : a.live.Pairwise (Range.Apart cfg)
  alone : ∀ r ∈ a.live, ∀ c, r.Touches cfg c → a.used c = 0
  nonempty : ∀ r ∈ a.live, r.bytes = true → 0 < r.size
  loads : a.st.loads = []
  freeByteOffset : a.st.freeByteOffset = 0
  tooBig : a.tooBig = false

/-- Any calls, one after the other. -/
def allocMachine (cfg : RefcountConfig) (fuel : Nat) : Machine AllocState AllocEvent where
  init := Fresh cfg
  step := allocNext cfg fuel

/-- `qcow2_alloc_clusters_at` is given the offset of a cluster, and the cluster where
`qcow2_alloc_bytes` goes on still has bytes that it has allocated. -/
def KeepsBytes (cfg : RefcountConfig) (a : AllocState) : AllocEvent → Prop
  | .allocClusters _ => True
  | .allocClustersAt offset _ => cfg.offsetIntoCluster offset = 0
  | .allocBytes _ => a.st.freeByteOffset = 0 ∨
      ∃ r ∈ a.live, r.bytes = true ∧ r.Touches cfg (cfg.firstCluster a.st.freeByteOffset)
  | .freeClusters _ _ => True

instance (cfg : RefcountConfig) (a : AllocState) : (e : AllocEvent) → Decidable (KeepsBytes cfg a e)
  | .allocClusters _ => instDecidableTrue
  | .allocClustersAt _ _ => inferInstanceAs (Decidable (_ = _))
  | .allocBytes _ => inferInstanceAs (Decidable (_ ∨ ∃ r ∈ a.live, _))
  | .freeClusters _ _ => instDecidableTrue

/-! ## What a call keeps -/

variable {a a' : AllocState} {s' : RefState} {n leaked : Nat → Nat}

def rangeTrack (s : RefState) : Track where
  clean := True
  separate := True
  queue := False
  cacheDiscards := s.cacheDiscards
  freeByteOffset := s.freeByteOffset
  base := s.img

theorem rangeTrack_sound (s : RefState) : (rangeTrack s).Sound := False.elim

theorem rangeTrack_idle (s s' : RefState) : Idle (rangeTrack s) s' := False.elim

/-- The uses of a cluster, with those that nobody has. -/
def AllocState.total (cfg : RefcountConfig) (a : AllocState) (leaked : Nat → Nat) (c : Nat) : Nat :=
  a.uses cfg c + leaked c

/-- The state between two calls. -/
structure RangesOk (cfg : RefcountConfig) (a : AllocState) : Prop where
  counts : ∃ leaked, (a.tooBig = false → leaked = fun _ => 0) ∧
    ImageOk cfg a.st.img (a.total cfg leaked) ∧ Separate cfg a.st.img (a.total cfg leaked)
  apart : a.live.Pairwise (Range.Apart cfg)
  alone : ∀ r ∈ a.live, ∀ c, r.Touches cfg c → a.used c = 0
  nonempty : ∀ r ∈ a.live, r.bytes = true → 0 < r.size
  loads : a.st.loads = []
  /-- the next bytes are behind all others of their cluster -/
  bytes : a.st.freeByteOffset ≠ 0 → ∀ r ∈ a.live, r.bytes = true →
    r.Touches cfg (cfg.firstCluster a.st.freeByteOffset) → r.offset + r.size ≤ a.st.freeByteOffset

theorem RangesOk.inv (h : RangesOk cfg a) : ∃ leaked, (a.tooBig = false → leaked = fun _ => 0) ∧
    Inv cfg (rangeTrack a.st) (a.total cfg leaked) a.st := by
  obtain ⟨leaked, hleaked, himage, hsep⟩ := h.counts
  exact ⟨leaked, hleaked, himage, RefImage.Extends.refl _, fun _ => h.loads, fun _ => hsep,
    False.elim, False.elim, rfl, rfl⟩

theorem Fresh.rangesOk (h : Fresh cfg a) : RangesOk cfg a where
  counts := ⟨fun _ => 0, fun _ => rfl, h.image, h.separate⟩
  apart := h.apart
  alone := h.alone
  nonempty := h.nonempty
  loads := h.loads
  bytes := fun hne => absurd h.freeByteOffset hne

theorem total_eq_zero (h : a.total cfg leaked c = 0) :
    a.used c = 0 ∧ ∀ r ∈ a.live, ¬r.Touches cfg c := by
  unfold AllocState.total AllocState.uses at h
  exact ⟨by omega, rangeCount_eq_zero.1 (by omega)⟩

theorem total_cons (r : Range) (st : RefState) :
    ({ a with st := st, live := r :: a.live } : AllocState).total cfg leaked =
      raised (a.total cfg leaked) (cfg.firstCluster r.offset)
        (cfg.firstCluster r.offset + cfg.clusterCount r.offset r.size) 1 := by
  funext c
  unfold AllocState.total AllocState.uses
  rw [rangeCount_cons]
  unfold raised
  split
  · dsimp only
    omega
  · rfl

theorem RangesOk.failed (h : RangesOk cfg a) {e : Errno}
    (hleaked : a.tooBig = false → leaked = fun _ => 0)
    (hfail : Failed cfg (rangeTrack a.st) (a.total cfg leaked) e s') :
    RangesOk cfg { a with st := s', tooBig := a.tooBig || e == .efbig } := by
  obtain ⟨n', hinv, hle, heq⟩ := hfail
  have htotal : ({ a with st := s', tooBig := a.tooBig || e == .efbig } : AllocState).total cfg
      (fun c => n' c - a.uses cfg c) = n' := by
    funext c
    have := hle c
    show a.uses cfg c + (n' c - a.uses cfg c) = n' c
    unfold AllocState.total at this
    omega
  refine ⟨⟨fun c => n' c - a.uses cfg c, fun hbig => ?_, ?_, ?_⟩, h.apart, h.alone, h.nonempty,
    hinv.clean trivial, fun hne r hr hb ht => ?_⟩
  · obtain ⟨hbig₁, hbig₂⟩ := Bool.or_eq_false_iff.1 hbig
    have hn := heq trivial fun he => by rw [he] at hbig₂; cases hbig₂
    funext c
    rw [hn, hleaked hbig₁]
    exact Nat.sub_self _
  · rw [htotal]
    exact hinv.image
  · rw [htotal]
    exact hinv.separate trivial
  · have hfbo : s'.freeByteOffset = a.st.freeByteOffset := hinv.freeByteOffset
    rw [hfbo] at hne ht ⊢
    exact h.bytes hne r hr hb ht

/-- A call that returns a range. -/
theorem RangesOk.cons (h : RangesOk cfg a) {s₁ : RefState}
    (hleaked : a.tooBig = false → leaked = fun _ => 0)
    (hinv : Inv cfg (rangeTrack a.st) (raised (a.total cfg leaked) (cfg.firstCluster r.offset)
      (cfg.firstCluster r.offset + cfg.clusterCount r.offset r.size) 1) s₁) (himg : s'.img = s₁.img)
    (hloads : s'.loads = s₁.loads) (hapart : ∀ r' ∈ a.live, r.Apart cfg r')
    (halone : ∀ c, r.Touches cfg c → a.used c = 0) (hnonempty : r.bytes = true → 0 < r.size)
    (hbytes : s'.freeByteOffset ≠ 0 → ∀ r' ∈ r :: a.live, r'.bytes = true →
      r'.Touches cfg (cfg.firstCluster s'.freeByteOffset) →
      r'.offset + r'.size ≤ s'.freeByteOffset) :
    RangesOk cfg { a with st := s', live := r :: a.live } := by
  refine ⟨⟨leaked, hleaked, ?_, ?_⟩, ?_, ?_, ?_, ?_, hbytes⟩
  · rw [total_cons]
    rw [himg]
    exact hinv.image
  · rw [total_cons]
    rw [himg]
    exact hinv.separate trivial
  · exact pairwise_cons.2 ⟨hapart, h.apart⟩
  · exact forall_mem_cons.2 ⟨halone, h.alone⟩
  · exact forall_mem_cons.2 ⟨hnonempty, h.nonempty⟩
  · rw [hloads]
    exact hinv.clean trivial

/-- Clusters without any use are apart from all ranges. -/
theorem RangesOk.apart_of_unused (h : RangesOk cfg a) (leaked : Nat → Nat)
    (hnonempty : r.bytes = true → 0 < r.size)
    (hunused : ∀ c, r.Touches cfg c → a.total cfg leaked c = 0) :
    ∀ r' ∈ a.live, r.Apart cfg r' := by
  intro r' hr'
  refine .of_clusters hnonempty (h.nonempty r' hr') fun c hc hc' => ?_
  exact (total_eq_zero (hunused c hc)).2 r' hr' hc'

/-- The clusters of a range that is handed out have a refcount of 1 now, and had one of 0 before,
except those of a refcount table that has been replaced since. -/
def HandedOut (cfg : RefcountConfig) (img img' : RefImage) (r : Range) : Prop :=
  ∀ c, r.Touches cfg c → (img.refcount cfg c = 0 ∨ img.IsTable cfg c ∧ ¬img'.IsTable cfg c) ∧
    img'.refcount cfg c = 1

/-- A step hands out clusters, or none. -/
def Stepped (cfg : RefcountConfig) (a a' : AllocState) : Prop :=
  a'.live = a.live ∨ ∃ r, a'.live = r :: a.live ∧ HandedOut cfg a.st.img a'.st.img r

theorem RangesOk.newClusters (h : RangesOk cfg a) (hbytes : r.bytes = false)
    (hleaked : a.tooBig = false → leaked = fun _ => 0)
    (himage : ImageOk cfg a.st.img (a.total cfg leaked)) {lo hi : Nat}
    (hlo : cfg.firstCluster r.offset = lo) (hhi : lo + cfg.clusterCount r.offset r.size = hi)
    (hnew : NewClusters cfg (rangeTrack a.st) (a.total cfg leaked) lo hi s') :
    RangesOk cfg { a with st := s', live := r :: a.live } ∧
      Stepped cfg a { a with st := s', live := r :: a.live } := by
  subst hlo hhi
  obtain ⟨⟨m, hinv, -, heq, hzero⟩, -⟩ := hnew
  obtain rfl := heq trivial
  have hunused : ∀ c, r.Touches cfg c → a.total cfg leaked c = 0 := fun c hc =>
    hzero c hc.1 hc.2
  have hnonempty : r.bytes = true → 0 < r.size := fun hb =>
    absurd (hbytes.symm.trans hb) Bool.false_ne_true
  refine ⟨h.cons hleaked hinv rfl rfl (h.apart_of_unused leaked hnonempty hunused)
    (fun c hc => (total_eq_zero (hunused c hc)).1) hnonempty ?_, .inr ⟨r, rfl, fun c hc => ?_⟩⟩
  · have hfbo : s'.freeByteOffset = a.st.freeByteOffset := hinv.freeByteOffset
    rw [hfbo]
    intro hne r' hr' hb ht
    rcases mem_cons.1 hr' with rfl | hr'
    · rw [hbytes] at hb
      cases hb
    · exact h.bytes hne r' hr' hb ht
  have huse : raised (a.total cfg leaked) (cfg.firstCluster r.offset)
      (cfg.firstCluster r.offset + cfg.clusterCount r.offset r.size) 1 c = 1 := by
    rw [raised_of_mem hc.1 hc.2, hunused c hc]
  -- the cluster is not of the metadata now
  have hmeta : s'.img.metaCount cfg c = 0 := by
    by_contra hne
    have := (hinv.separate trivial c hne).2
    rw [huse] at this
    cases this
  refine ⟨?_, by rw [hinv.image.counts, huse, hmeta]⟩
  by_cases hfree : a.st.img.refcount cfg c = 0
  · exact .inl hfree
  right
  rw [himage.counts, hunused c hc, zero_add] at hfree
  obtain ⟨hheader, hblock, htable'⟩ := RefImage.metaCount_eq_zero.1 hmeta
  refine ⟨?_, htable'⟩
  by_contra htable
  exact hfree (RefImage.metaCount_eq_zero.2 ⟨hheader, fun hb => hblock (hinv.grows.isBlock hb),
    htable⟩)

theorem afterCall_cases {α : Type} {f : RefProg α} {live : α → List Range} {Q : α → RefState → Prop}
    {R : Errno → RefState → Prop} {H : RefState → Prop} (hwp : wp f Q R H a.st)
    (h : afterCall a f live = some a') :
    (∃ x s', Q x s' ∧ a' = { a with st := s', live := live x }) ∨
      ∃ e s', R e s' ∧ a' = { a with st := s', tooBig := a.tooBig || e == .efbig } := by
  unfold afterCall at h
  unfold wp at hwp
  split at h
  · rename_i x s' heq
    rw [heq] at hwp
    cases h
    exact .inl ⟨x, s', hwp, rfl⟩
  · rename_i e s' heq
    rw [heq] at hwp
    cases h
    exact .inr ⟨e, s', hwp, rfl⟩
  · cases h

section

variable (h : RangesOk cfg a)
include h

theorem RangesOk.allocClusters (hstep : allocNext cfg fuel a (.allocClusters size) = some a') :
    RangesOk cfg a' ∧ Stepped cfg a a' := by
  obtain ⟨leaked, hleaked, hinv⟩ := h.inv
  rcases afterCall_cases (wp_allocClusters (rangeTrack_sound a.st) hinv (rangeTrack_idle _ _)
    fuel size) hstep with ⟨-, s', ⟨c, rfl, hnew⟩, rfl⟩ | ⟨e, s', ⟨hfail, -⟩, rfl⟩
  · exact h.newClusters rfl hleaked hinv.image (firstCluster_mul cfg c)
      (by rw [clusterCount_mul]) hnew
  · exact ⟨h.failed hleaked hfail, .inl rfl⟩

theorem RangesOk.allocClustersAt {offset nbClusters : Nat}
    (haligned : cfg.offsetIntoCluster offset = 0)
    (hstep : allocNext cfg fuel a (.allocClustersAt offset nbClusters) = some a') :
    RangesOk cfg a' ∧ Stepped cfg a a' := by
  obtain ⟨leaked, hleaked, hinv⟩ := h.inv
  rcases afterCall_cases (wp_allocClustersAt (rangeTrack_sound a.st) hinv (rangeTrack_idle _ _)
      False.elim fuel offset nbClusters fun _ => haligned)
    hstep with ⟨k, s', ⟨-, -, -, hnew⟩, rfl⟩ | ⟨e, s', ⟨hfail, -⟩, rfl⟩
  · exact h.newClusters rfl hleaked hinv.image rfl (by rw [clusterCount_aligned haligned])
      (hnew haligned)
  · exact ⟨h.failed hleaked hfail, .inl rfl⟩

/-- A cluster with bytes of `qcow2_alloc_bytes` is in no other range. -/
theorem RangesOk.bytes_of_touches (hr : r ∈ a.live) (hb : r.bytes = true) (ht : r.Touches cfg c)
    (hr' : r' ∈ a.live) (ht' : r'.Touches cfg c) : r'.bytes = true := by
  by_contra hb'
  have hne : r ≠ r' := by
    rintro rfl
    exact hb' hb
  have hapart := h.apart.forall hr hr' hne
  unfold Range.Apart at hapart
  rw [if_neg fun hboth => hb' hboth.2] at hapart
  exact hapart c ht ht'

/-- The bytes behind the last ones, in a cluster that still has some of them. -/
theorem RangesOk.apart_of_bytes (leaked : Nat → Nat) (hsize : 0 < size)
    (hlast : ∃ r ∈ a.live, r.bytes = true ∧ r.Touches cfg (cfg.firstCluster a.st.freeByteOffset))
    (hne : a.st.freeByteOffset ≠ 0)
    (hunused : ∀ c, cfg.Touches a.st.freeByteOffset size c →
      c = cfg.firstCluster a.st.freeByteOffset ∨ a.total cfg leaked c = 0) :
    ∀ r' ∈ a.live, Range.Apart cfg ⟨a.st.freeByteOffset, size, true⟩ r' := by
  obtain ⟨r, hr, hb, ht⟩ := hlast
  intro r' hr'
  by_cases ht' : r'.Touches cfg (cfg.firstCluster a.st.freeByteOffset)
  · have hb' := h.bytes_of_touches hr hb ht hr' ht'
    unfold Range.Apart
    rw [if_pos ⟨rfl, hb'⟩]
    exact .inr (h.bytes hne r' hr' hb' ht')
  refine .of_clusters (fun _ => hsize) (h.nonempty r' hr') fun c hc hc' => ?_
  rcases hunused c hc with rfl | hzero
  · exact ht' hc'
  · exact (total_eq_zero hzero).2 r' hr' hc'

theorem RangesOk.allocBytes (hlast : KeepsBytes cfg a (.allocBytes size))
    (hstep : allocNext cfg fuel a (.allocBytes size) = some a') : RangesOk cfg a' := by
  obtain ⟨leaked, hleaked, hinv⟩ := h.inv
  have hused : a.st.freeByteOffset = 0 ∨
      a.total cfg leaked (cfg.firstCluster a.st.freeByteOffset) ≠ 0 := by
    rcases hlast with hzero | ⟨r, hr, -, ht⟩
    · exact .inl hzero
    · exact .inr fun hzero => (total_eq_zero hzero).2 r hr ht
  rcases afterCall_cases (wp_allocBytes trivial trivial (rangeTrack_sound a.st) (fun hq => hq)
      fuel hinv (rangeTrack_idle _ _) hused)
    hstep with ⟨offset, -, ⟨⟨hpos, hle⟩, s₁, hnew, rfl⟩, rfl⟩ | ⟨e, s', ⟨hfail, -⟩, rfl⟩
  · have hunused : ∀ c, cfg.Touches offset size c →
        offset = a.st.freeByteOffset ∧ c = cfg.firstCluster offset ∨ a.total cfg leaked c = 0 :=
      fun c hc => hnew.unused c hc.1 hc.2
    refine @RangesOk.cons cfg ⟨offset, size, true⟩ a _ leaked h s₁ hleaked hnew.inv rfl rfl ?_ ?_
      (fun _ => hpos) ?_
    · by_cases hcont : offset = a.st.freeByteOffset
      · have hne : a.st.freeByteOffset ≠ 0 := hcont ▸ hnew.pos
        rw [hcont] at hunused ⊢
        exact h.apart_of_bytes leaked hpos (hlast.resolve_left hne) hne fun c hc =>
          (hunused c hc).imp_left And.right
      · exact h.apart_of_unused leaked (fun _ => hpos) fun c hc =>
        (hunused c hc).resolve_left fun h => hcont h.1
    · intro c hc
      rcases hunused c hc with ⟨heq, hcl⟩ | hzero
      · have hne : a.st.freeByteOffset ≠ 0 := heq ▸ hnew.pos
        obtain ⟨r, hr, -, ht⟩ := hlast.resolve_left hne
        rw [hcl, heq]
        exact h.alone r hr _ ht
      · exact (total_eq_zero hzero).1
    -- the next bytes are in the cluster of the last byte
    intro hne r' hr' hb ht
    dsimp only at hne ht ⊢
    unfold nextBytes at hne ht ⊢
    by_cases hround : cfg.offsetIntoCluster (offset + size) = 0
    · rw [if_pos hround] at hne
      exact absurd rfl hne
    rw [if_neg hround] at ht ⊢
    have hsame := firstCluster_pred hround
    rcases mem_cons.1 hr' with rfl | hr'
    · exact le_refl _
    have htouch : cfg.Touches offset size (cfg.firstCluster (offset + size)) := by
      rw [hsame]
      exact touches_byte (by omega) (by omega)
    rcases hunused _ htouch with ⟨heq, hcl⟩ | hzero
    · have hne : a.st.freeByteOffset ≠ 0 := heq ▸ hnew.pos
      rw [hcl, heq] at ht
      have := h.bytes hne r' hr' hb ht
      omega
    · exact absurd ht ((total_eq_zero hzero).2 r' hr')
  · exact h.failed hleaked hfail

theorem RangesOk.freeClusters {type : DiscardType}
    (hstep : allocNext cfg fuel a (.freeClusters r type) = some a') : RangesOk cfg a' := by
  obtain ⟨leaked, hleaked, hinv⟩ := h.inv
  dsimp only [allocNext] at hstep
  split at hstep
  · rename_i hr
    let b : AllocState := { a with live := a.live.erase r }
    have htotal : a.total cfg leaked = raised (b.total cfg leaked) (cfg.firstCluster r.offset)
        (cfg.firstCluster r.offset + cfg.clusterCount r.offset r.size) 1 := by
      rw [← total_cons r a.st]
      unfold AllocState.total AllocState.uses
      rw [rangeCount_erase hr]
    rw [htotal] at hinv
    have hfree : wp (Qcow2.freeClusters cfg fuel r.offset r.size type)
        (fun _ s' => Inv cfg (rangeTrack a.st) (b.total cfg leaked) s') (fun _ _ => False)
        (fun _ => True) a.st := by
      unfold Qcow2.freeClusters
      rw [wp_bind, wp_attempt]
      refine wp_mono ((updateRefcount_spec (rangeTrack_sound a.st) fuel).lower r.offset r.size
        1 type (succ_pos 0) rfl rfl hinv (rangeTrack_idle _ _) (hinv.canLower (succ_pos 0))
        False.elim) ?_ ?_ (fun _ _ => trivial)
      · rintro - s' ⟨hinv', -, -, -⟩
        rw [lowered_raised] at hinv'
        exact hinv'
      rintro e s' ⟨-, -, hless⟩
      obtain ⟨c, hlo, hhi, hlt⟩ := hless trivial
      rw [raised_of_mem hlo hhi] at hlt
      omega
    rcases afterCall_cases hfree hstep with ⟨-, s', hinv', rfl⟩ | ⟨e, s', hfalse, -⟩
    · have hsub : ∀ r' ∈ a.live.erase r, r' ∈ a.live := fun r' hr' => mem_of_mem_erase hr'
      refine ⟨⟨leaked, hleaked, hinv'.image, hinv'.separate trivial⟩,
        h.apart.sublist erase_sublist, fun r' hr' => h.alone r' (hsub r' hr'),
        fun r' hr' => h.nonempty r' (hsub r' hr'), hinv'.clean trivial, ?_⟩
      have hfbo : s'.freeByteOffset = a.st.freeByteOffset := hinv'.freeByteOffset
      rw [hfbo]
      exact fun hne r' hr' => h.bytes hne r' (hsub r' hr')
    · exact hfalse.elim
  · cases hstep

end

def AllocEvent.ofClusters : AllocEvent → Bool
  | .allocClusters _ => true
  | .allocClustersAt _ _ => true
  | .allocBytes _ => false
  | .freeClusters _ _ => false

theorem RangesOk.next (h : RangesOk cfg a) {e : AllocEvent} (hok : KeepsBytes cfg a e)
    (hstep : allocNext cfg fuel a e = some a') :
    RangesOk cfg a' ∧ (e.ofClusters = true → Stepped cfg a a') := by
  cases e with
  | allocClusters size =>
    obtain ⟨hok', hstepped⟩ := h.allocClusters hstep
    exact ⟨hok', fun _ => hstepped⟩
  | allocClustersAt offset nbClusters =>
    obtain ⟨hok', hstepped⟩ := h.allocClustersAt hok hstep
    exact ⟨hok', fun _ => hstepped⟩
  | allocBytes size => exact ⟨h.allocBytes hok hstep, nofun⟩
  | freeClusters r type => exact ⟨h.freeClusters hstep, nofun⟩

theorem RangesOk.of_reach (h : (allocMachine cfg fuel).Reach (KeepsBytes cfg) a) :
    RangesOk cfg a := by
  refine h.invariant (fun _ hfresh => hfresh.rangesOk) ?_
  intro a e a' _ ha hok hstep
  exact (ha.next hok hstep).1

/-- The clusters in use are not handed out.  In every run whose calls keep the bytes of
`qcow2_alloc_bytes` in place, the ranges that have been allocated and not freed do not overlap each
other, the refcount blocks, the refcount table or anything else that uses the image; the refcounts
count them; and the clusters that `qcow2_alloc_clusters` and `qcow2_alloc_clusters_at` return were
free before, except those of a refcount table that the call has replaced. -/
theorem allocated_apart (cfg : RefcountConfig) (fuel : Nat) {a : AllocState}
    (h : (allocMachine cfg fuel).Reach (KeepsBytes cfg) a) : a.live.Pairwise (Range.Apart cfg) ∧
      (∀ r ∈ a.live, ∀ c, r.Touches cfg c → a.used c = 0 ∧ a.st.img.metaCount cfg c = 0) ∧
      (∀ c, a.uses cfg c + a.st.img.metaCount cfg c ≤ a.st.img.refcount cfg c ∧ (a.tooBig = false →
          a.st.img.refcount cfg c = a.uses cfg c + a.st.img.metaCount cfg c)) ∧
      ∀ e a', KeepsBytes cfg a e → (allocMachine cfg fuel).step a e = some a' →
        e.ofClusters = true → Stepped cfg a a' := by
  have hok := RangesOk.of_reach h
  obtain ⟨leaked, hleaked, himage, hsep⟩ := hok.counts
  refine ⟨hok.apart, fun r hr c hc => ⟨hok.alone r hr c hc, ?_⟩, fun c => ⟨?_, fun hbig => ?_⟩, ?_⟩
  · by_contra hmeta
    exact (total_eq_zero (hsep c hmeta).2).2 r hr hc
  · rw [himage.counts]
    unfold AllocState.total
    omega
  · rw [himage.counts, hleaked hbig]
    rfl
  · intro e a' hkeeps hstep
    exact (hok.next hkeeps hstep).2

/-! ## A refcount table that is replaced -/

/-- An image with a refcount table of one cluster that has no place left: the table is in cluster 1,
its blocks are in clusters 2 to 65, and all clusters that they describe are used.  The last one has
just been allocated, so the next search starts behind it. -/
def fullTable : AllocState where
  st :=
    { img :=
        { refcountTable := fun i => 1024 + i * 512
          refcountTableSize := 64
          refcountTableOffset := 512
          refcountBlocks := fun _ _ => 1 }
      freeClusterIndex := 4096
      freeByteOffset := 0
      cacheDiscards := false
      discards := []
      issued := []
      loads := [] }
  live := []
  used := fun c => if 66 ≤ c ∧ c < 4096 then 1 else 0
  tooBig := false

theorem checked_fullTable :
    Checked smallClusters fullTable.st.img (fullTable.uses smallClusters) 66 where
  table := by decide
  blocks := by decide +kernel
  metas := by decide +kernel
  counts := by decide +kernel
  unused c (hc : 4096 ≤ c) := if_neg (by omega)

theorem fresh_fullTable : Fresh smallClusters fullTable :=
  ⟨checked_fullTable.imageOk, checked_fullTable.separate, .nil, nofun, nofun, rfl, rfl, rfl⟩

/-- The call that makes a larger refcount table frees the old one and returns it: its cluster had a
refcount of 1 before. -/
theorem old_table_handed_out : ∃ a, (allocMachine smallClusters 8).Reachable fullTable ∧
    (allocMachine smallClusters 8).step fullTable (.allocClusters 512) = some a ∧
    a.live = [⟨512, 512, false⟩] ∧ fullTable.st.img.refcount smallClusters 1 = 1 := by
  have hrun : ((allocMachine smallClusters 8).step fullTable (.allocClusters 512)).map
      (fun a => a.live) = some [⟨512, 512, false⟩] := by
    decide +kernel
  obtain ⟨a, ha, hlive⟩ := Option.map_eq_some_iff.1 hrun
  exact ⟨a, .init fresh_fullTable, ha, hlive, rfl⟩

def twoUsed : AllocState where
  st := twoBlocks.st
  live := [⟨32256, 1024, false⟩]
  used := fun _ => 0
  tooBig := false

theorem uses_twoUsed (c : Nat) :
    twoUsed.uses smallClusters c = if c = 63 ∨ c = 64 then 1 else 0 := by
  have hzero : rangeCount smallClusters [] = fun _ => 0 := rfl
  show 0 + rangeCount smallClusters [⟨32256, 1024, false⟩] c = _
  rw [rangeCount_cons, zero_add]
  show (if 63 ≤ c ∧ c < 65 then 0 + 1 else 0) = _
  split <;> split <;> omega

theorem fresh_twoUsed : Fresh smallClusters twoUsed := by
  have huses : twoUsed.uses smallClusters = fun c => if c = 63 ∨ c = 64 then 1 else 0 :=
    funext uses_twoUsed
  refine ⟨?_, ?_, pairwise_singleton _ _, fun _ _ _ _ => rfl, ?_, rfl, rfl, rfl⟩
  · rw [huses]
    exact checked_twoBlocks.imageOk
  · rw [huses]
    exact checked_twoBlocks.separate
  · intro r hr hb
    obtain rfl := mem_singleton.1 hr
    cases hb

/-- Clusters and bytes are allocated while others are freed. -/
theorem allocated_apart_twoUsed : ∃ a,
    (allocMachine smallClusters 8).Reach (KeepsBytes smallClusters) a ∧
      a.live = [⟨3372, 100, true⟩, ⟨3072, 300, true⟩, ⟨2048, 1000, false⟩] ∧
      a.live.Pairwise (Range.Apart smallClusters) := by
  let events : List AllocEvent := [.allocClusters 1000, .freeClusters ⟨32256, 1024, false⟩ .request,
    .allocBytes 300, .allocBytes 100]
  have hmeets : (allocMachine smallClusters 8).Meets (KeepsBytes smallClusters) twoUsed events := by
    decide +kernel
  obtain ⟨a, -, hreach, hlive⟩ := Machine.Reach.exists_of_run (.init fresh_twoUsed) hmeets
    (P := (·.live = [⟨3372, 100, true⟩, ⟨3072, 300, true⟩, ⟨2048, 1000, false⟩]))
    (by decide +kernel)
  exact ⟨a, hreach, hlive, (allocated_apart smallClusters 8 hreach).1⟩

end QemuAndroid.Qcow2
