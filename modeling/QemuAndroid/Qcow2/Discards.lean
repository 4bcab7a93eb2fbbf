import QemuAndroid.Qcow2.Allocate

/-!
# Discards of clusters

Updates of refcounts, allocations and `qcow2_process_discards` in any order, from any image with
sound refcounts, where accesses to refcount blocks may fail.  Every discard that is issued is one of
clusters whose refcount is 0 at this time, as long as no step raises a refcount for which a discard
is queued; the error path of `update_refcount` does so when discards are kept back.  The queue of
discards is a canonical set of regions.
-/

namespace QemuAndroid.Qcow2

open Lib Prog

/-! ## Runs -/

/-- What can happen to the refcounts of an image; the accesses to refcount blocks fail as `loads`
says. -/
inductive DiscardEvent
  | update (offset size addend : Nat) (decrease : Bool) (type : DiscardType)
      (loads : List (Option Errno))
  | allocClusters (size : Nat) (loads : List (Option Errno))
  | allocClustersAt (offset nbClusters : Nat) (loads : List (Option Errno))
  | allocBytes (size : Nat) (loads : List (Option Errno))
  | processDiscards (failed : Bool)
  | cacheDiscards
  /-- `s->cache_discards = false`, and then `qcow2_process_discards` -/
  | releaseDiscards (failed : Bool)

/-- A `BDRVQcowState`, which has no more steps once a function has not gone on. -/
structure DiscardState where
  st : RefState
  halted : Bool

/-- The state after a function has been called. -/
def callWith {α : Type} (f : RefProg α) (loads : List (Option Errno)) (s : RefState) :
    DiscardState :=
  match f { s with loads := loads } with
  | (.halted _, s') => ⟨s', true⟩
  | (_, s') => ⟨s', false⟩

def discardNext (cfg : RefcountConfig) (fuel : Nat) (s : RefState) : DiscardEvent → DiscardState
  | .update offset size addend decrease type loads =>
    callWith (updateRefcount cfg fuel offset size addend decrease type) loads s
  | .allocClusters size loads => callWith (allocClusters cfg fuel size) loads s
  | .allocClustersAt offset nbClusters loads =>
    callWith (allocClustersAt cfg fuel offset nbClusters) loads s
  | .allocBytes size loads => callWith (allocBytes cfg fuel size) loads s
  | .processDiscards failed => callWith (processDiscards cfg failed) s.loads s
  | .cacheDiscards => ⟨{ s with cacheDiscards := true }, false⟩
  | .releaseDiscards failed =>
    callWith (processDiscards cfg failed) s.loads { s with cacheDiscards := false }

/-- An image as it has been opened: the refcounts count its metadata, and no discard is queued. -/
structure Opened (cfg : RefcountConfig) (s : DiscardState) : Prop where
  image : ∃ n, ImageOk cfg s.st.img n
  discards : s.st.discards = []
  issued : s.st.issued = []
  running : s.halted = false

def discardMachine (cfg : RefcountConfig) (fuel : Nat) : Machine DiscardState DiscardEvent where
  init := Opened cfg
  step s e := if s.halted then none else some (discardNext cfg fuel s.st e)

/-- The cluster is touched by a range of bytes. -/
def RefcountConfig.Touches (cfg : RefcountConfig) (offset size c : Nat) : Prop :=
  cfg.firstCluster offset ≤ c ∧ c < cfg.firstCluster offset + cfg.clusterCount offset size

/-- No step raises a refcount for which a discard is queued:

* while discards are kept back, no access to a refcount block fails, and refcounts that are lowered
  are large enough if their clusters are to be discarded;
* an increase concerns no cluster that is queued, and the allocations that do not process the queue
  are not made while discards are kept back;
* a decrease concerns clusters that have refcount blocks, and not the references of the metadata. -/
def KeepsQueue (cfg : RefcountConfig) (s : DiscardState) : DiscardEvent → Prop
  | .update offset size addend decrease type loads =>
    0 < addend ∧ (s.st.cacheDiscards = true → loads = []) ∧
      if decrease then
        ∀ c, cfg.Touches offset size c → s.st.img.HasBlock cfg c ∧
          (s.st.img.metaCount cfg c + addend ≤ s.st.img.refcount cfg c ∨
            s.st.img.refcount cfg c < addend ∧
              ¬(s.st.cacheDiscards = true ∧ cfg.discardPassthrough type = true))
      else ∀ c, cfg.Touches offset size c → ¬Queued cfg s.st.discards c
  | .allocClusters _ loads => s.st.cacheDiscards = true → loads = []
  | .allocClustersAt _ _ _ => s.st.cacheDiscards = false
  | .allocBytes _ _ => s.st.cacheDiscards = false
  | .processDiscards _ => True
  | .cacheDiscards => True
  | .releaseDiscards _ => True

/-! ## What a call keeps -/

variable {cfg : RefcountConfig} {s s' : RefState} {n : Nat → Nat} {loads : List (Option Errno)}

/-- The state between two calls. -/
structure Quiet (cfg : RefcountConfig) (s : RefState) : Prop where
  image : ∃ n, ImageOk cfg s.img n
  queue : QueueOk cfg s
  logged : Logged cfg s
  idle : s.cacheDiscards = false → s.discards = []

def callTrack (s : RefState) : Track where
  clean := s.cacheDiscards = true
  separate := False
  queue := True
  cacheDiscards := s.cacheDiscards
  freeByteOffset := s.freeByteOffset
  base := s.img

theorem callTrack_sound (s : RefState) : (callTrack s).Sound := fun _ h => h

theorem Quiet.inv (h : Quiet cfg s) (hn : ImageOk cfg s.img n)
    (hloads : s.cacheDiscards = true → loads = []) :
    Inv cfg (callTrack s) n { s with loads := loads } where
  image := hn
  grows := RefImage.Extends.refl _
  clean := hloads
  separate := False.elim
  queue := fun _ => ⟨h.queue.aligned, h.queue.free⟩
  logged := fun _ => h.logged
  cacheDiscards := rfl
  freeByteOffset := rfl

theorem Quiet.idle_callTrack (h : Quiet cfg s) : Idle (callTrack s) { s with loads := loads } :=
  fun _ hc => h.idle hc

/-- A call leaves a quiet state behind. -/
theorem Inv.quiet (h : Inv cfg (callTrack s) n s') (hidle : Idle (callTrack s) s') :
    Quiet cfg s' := by
  refine ⟨⟨n, h.image⟩, h.queue trivial, h.logged trivial, fun hc => hidle trivial ?_⟩
  rw [← h.cacheDiscards, hc]

theorem Failed.quiet {e : Errno} (h : Failed cfg (callTrack s) n e s')
    (hidle : Idle (callTrack s) s') : Quiet cfg s' := by
  obtain ⟨n', hinv, -, -⟩ := h
  exact hinv.quiet hidle

/-- What holds after a call, even one that has not gone on. -/
def Watched (cfg : RefcountConfig) (s : DiscardState) : Prop :=
  Logged cfg s.st ∧ (s.halted = false → Quiet cfg s.st)

theorem watched_callWith {α : Type} {f : RefProg α}
    (h : wp f (fun _ => Quiet cfg) (fun _ => Quiet cfg) (Logged cfg) { s with loads := loads }) :
    Watched cfg (callWith f loads s) := by
  unfold wp at h
  unfold callWith
  split at h
  · rename_i heq
    rw [heq]
    exact ⟨h.logged, fun _ => h⟩
  · rename_i heq
    rw [heq]
    exact ⟨h.logged, fun _ => h⟩
  · rename_i heq
    rw [heq]
    exact ⟨h, nofun⟩

section

variable (h : Quiet cfg s)
include h

theorem watched_update {fuel offset size addend : Nat} {decrease : Bool} {type : DiscardType}
    (hok : KeepsQueue cfg ⟨s, false⟩ (.update offset size addend decrease type loads)) :
    Watched cfg (callWith (updateRefcount cfg fuel offset size addend decrease type) loads s) := by
  obtain ⟨n, hn⟩ := h.image
  obtain ⟨hadd, hloads, hok⟩ := hok
  have hinv := h.inv hn hloads
  have hspec : UpdateSpec cfg _ _ := updateRefcount_spec (callTrack_sound s) fuel
  apply watched_callWith
  cases decrease with
  | false =>
    refine wp_mono (hspec.raise offset size addend type hadd rfl rfl hinv h.idle_callTrack
      ⟨False.elim, fun _ c hlo hhi => hok c ⟨hlo, hhi⟩⟩) ?_ ?_ (fun _ hh => hh trivial)
    · rintro - s' ⟨hinv', hidle', -, -⟩
      exact hinv'.quiet hidle'
    · rintro e s' ⟨hfail, hidle', -⟩
      exact hfail.quiet hidle'
  | true =>
    have hle : ∀ c, s.img.metaCount cfg c + addend ≤ s.img.refcount cfg c → addend ≤ n c := by
      intro c hc
      have := hn.counts c
      omega
    refine wp_mono (hspec.lower offset size addend type hadd rfl rfl hinv h.idle_callTrack
      ⟨fun c hlo hhi => (hok c ⟨hlo, hhi⟩).1, fun c hlo hhi => ?_⟩ ?_) ?_ ?_
      (fun _ hh => hh trivial)
    · rcases (hok c ⟨hlo, hhi⟩).2 with hc | hc
      · exact .inr (hle c hc)
      · exact .inl hc.1
    · intro _ hcache hpass
      refine ⟨hcache, fun c hlo hhi => ?_⟩
      rcases (hok c ⟨hlo, hhi⟩).2 with hc | hc
      · exact hle c hc
      · exact absurd ⟨hcache, hpass⟩ hc.2
    · rintro - s' ⟨hinv', hidle', -, -⟩
      exact hinv'.quiet hidle'
    · rintro - s' ⟨⟨n', hinv', -⟩, hidle', -⟩
      exact hinv'.quiet hidle'

/-- `qcow2_alloc_bytes`, with an empty queue. -/
theorem watched_allocBytes (hcache : s.cacheDiscards = false) {fuel size : Nat} :
    Watched cfg (callWith (allocBytes cfg fuel size) loads s) := by
  obtain ⟨n, hn⟩ := h.image
  have hinv : Inv cfg (callTrack s) n { s with loads := loads } :=
    h.inv hn fun hc => by rw [hcache] at hc; cases hc
  have hidle : Idle (callTrack s) { s with loads := loads } := h.idle_callTrack
  have hspec : UpdateSpec cfg _ _ := updateRefcount_spec (callTrack_sound s) fuel
  apply watched_callWith
  have hstop : ∀ {m s'}, Inv cfg (callTrack s) m s' → Logged cfg s' := fun hm => hm.logged trivial
  unfold allocBytes
  rw [wp_bind]
  refine wp_assert (fun _ => ?_) fun _ => hstop hinv
  rw [wp_bind, wp_get, wp_bind]
  refine wp_assert (fun _ => ?_) fun _ => hstop hinv
  -- where the bytes start
  refine wp_seq (Q := fun _ s' => Inv cfg (callTrack s) n s' ∧ Idle (callTrack s) s') ?_ ?_
    fun _ _ hr => hr
  · refine wp_ite (fun _ => ⟨hinv, hidle⟩) fun _ => ?_
    refine wp_seq (wp_getRefcount _ hinv.image _) ?_ ?_ (fun _ => False.elim)
    · rintro r s₁ ⟨-, hs₁⟩
      exact ⟨hinv.moved hs₁.moved, hidle.moved hs₁.moved⟩
    · rintro e s₁ ⟨hs₁, -⟩
      exact (hinv.moved hs₁.moved).quiet (hidle.moved hs₁.moved)
  rintro start s₁ ⟨hinv₁, hidle₁⟩
  refine wp_seq (Q := fun _ s' => ∃ m, Inv cfg (callTrack s) m s' ∧ Idle (callTrack s) s')
    ?_ ?_ fun _ _ hr => hr
  · refine wp_iterate (fun _ s' => ∃ m, Inv cfg (callTrack s) m s' ∧ Idle (callTrack s) s')
      (fun _ s' ⟨m, hm, _⟩ => hstop hm) ?_ fuel ⟨n, hinv₁, hidle₁⟩
    rintro offset s₂ ⟨m, hinv₂, hidle₂⟩
    -- a new cluster changes no refcount
    refine wp_seq (Q := fun _ s' => Inv cfg (callTrack s) m s' ∧ Idle (callTrack s) s') ?_ ?_
      fun _ _ hr => hr
    · refine wp_ite (fun _ => ?_) fun _ => ⟨hinv₂, hidle₂⟩
      refine wp_seq (wp_allocClustersNoref hinv₂ hidle₂ cfg.clusterSize) ?_ ?_
        (fun _ hh => hh trivial)
      · rintro - s₃ ⟨c, -, hs₃⟩
        exact ⟨hs₃.inv, fun hq _ => hs₃.queue hq⟩
      · rintro e s₃ ⟨hinv₃, hidle₃, -⟩
        exact hinv₃.quiet hidle₃
    rintro offset' s₃ ⟨hinv₃, hidle₃⟩
    rw [wp_bind]
    refine wp_assert (fun _ => ?_) fun _ => hstop hinv₃
    rw [bytesUpdate, wp_bind, wp_attempt]
    refine wp_mono (hspec.raise offset' size 1 .never (Nat.succ_pos 0) rfl rfl hinv₃ hidle₃
      ⟨False.elim, fun _ _ _ _ => not_queued (hidle₃ trivial hcache)⟩)
      ?_ ?_ (fun _ hh => hh trivial)
    · rintro - s₄ ⟨hinv₄, hidle₄, -, -⟩
      exact ⟨_, hinv₄, hidle₄⟩
    rintro e s₄ ⟨⟨m', hinv₄, hle, heq⟩, hidle₄, -⟩
    cases e with
    | eagain => exact ⟨m', hinv₄, hidle₄⟩
    | einval | eio | efbig => exact hinv₄.quiet hidle₄
  · rintro offset s₂ ⟨m, hinv₂, hidle₂⟩
    have hquiet := hinv₂.quiet hidle₂
    exact ⟨hquiet.image, ⟨hquiet.queue.aligned, hquiet.queue.free⟩, hquiet.logged, hquiet.idle⟩

theorem watched_allocClusters (hloads : s.cacheDiscards = true → loads = []) {fuel size : Nat} :
    Watched cfg (callWith (allocClusters cfg fuel size) loads s) := by
  obtain ⟨n, hn⟩ := h.image
  apply watched_callWith
  refine wp_mono (wp_allocClusters (callTrack_sound s) (h.inv hn hloads) h.idle_callTrack fuel size)
    ?_ ?_ (fun _ hh => hh trivial)
  · rintro - s' ⟨c, -, ⟨⟨m, hinv, -⟩, hidle⟩⟩
    exact hinv.quiet hidle
  · rintro e s' ⟨hfail, hidle⟩
    exact hfail.quiet hidle

theorem watched_allocClustersAt (hcache : s.cacheDiscards = false) {fuel offset nbClusters : Nat} :
    Watched cfg (callWith (allocClustersAt cfg fuel offset nbClusters) loads s) := by
  obtain ⟨n, hn⟩ := h.image
  apply watched_callWith
  refine wp_mono (wp_allocClustersAt (callTrack_sound s)
    (h.inv hn fun hc => by rw [hcache] at hc; cases hc) h.idle_callTrack (fun _ => hcache)
    fuel offset
    nbClusters False.elim) ?_ ?_ (fun _ hh => hh trivial)
  · rintro k s' ⟨hidle, -, ⟨m, hinv, -⟩, -⟩
    exact hinv.quiet hidle
  · rintro e s' ⟨hfail, hidle⟩
    exact hfail.quiet hidle

theorem Quiet.processed (failed : Bool) : Quiet cfg (processed cfg failed s) := by
  obtain ⟨n, hn⟩ := h.image
  -- accesses to refcount blocks play no part, so they may all succeed
  have hinv : Inv cfg (callTrack s) n { s with loads := [] } := h.inv hn fun _ => rfl
  have hq := (hinv.processed failed).quiet fun _ _ => rfl
  exact ⟨hq.image, ⟨hq.queue.aligned, hq.queue.free⟩, hq.logged, hq.idle⟩

theorem watched_discardNext {fuel : Nat} {e : DiscardEvent} (hok : KeepsQueue cfg ⟨s, false⟩ e) :
    Watched cfg (discardNext cfg fuel s e) := by
  cases e with
  | update offset size addend decrease type loads => exact watched_update h hok
  | allocClusters size loads => exact watched_allocClusters h hok
  | allocClustersAt offset nbClusters loads => exact watched_allocClustersAt h hok
  | allocBytes size loads => exact watched_allocBytes h hok
  | processDiscards failed =>
    have hq := h.processed failed
    exact ⟨hq.logged, fun _ => hq⟩
  | cacheDiscards =>
    exact ⟨h.logged, fun _ => ⟨h.image, ⟨h.queue.aligned, h.queue.free⟩, h.logged, nofun⟩⟩
  | releaseDiscards failed =>
    have hq := h.processed failed
    exact ⟨hq.logged, fun _ => ⟨hq.image, ⟨hq.queue.aligned, hq.queue.free⟩, hq.logged,
      fun _ => rfl⟩⟩

end

/-- No cluster that is in use is discarded: in every run that raises no refcount for which a discard
is queued, all discards are of whole clusters with a refcount of 0. -/
theorem discards_unused (cfg : RefcountConfig) (fuel : Nat) {s : DiscardState}
    (h : (discardMachine cfg fuel).Reach (KeepsQueue cfg) s) : ∀ d ∈ s.st.issued, d.Safe cfg := by
  have hwatched : Watched cfg s := by
    refine h.invariant ?_ ?_
    · rintro s ⟨himage, hqueue, hissued, hrunning⟩
      have hlogged : Logged cfg s.st := by
        intro d hd
        rw [hissued] at hd
        cases hd
      refine ⟨hlogged, fun _ => ⟨himage, ⟨?_, ?_⟩, hlogged, fun _ => hqueue⟩⟩
      · intro d hd
        rw [hqueue] at hd
        cases hd
      · rintro c ⟨d, hd, -⟩
        rw [hqueue] at hd
        cases hd
    · rintro s e s' - hs hok hstep
      obtain ⟨st, halted⟩ := s
      cases halted with
      | true => cases hstep
      | false =>
        cases hstep
        exact watched_discardNext (hs.2 rfl) hok
  exact hwatched.1

/-! ## An update that fails half-way -/

/-- The table is in cluster 1 and has blocks in clusters 2 and 3; the last cluster that the first
block describes and the first one of the second are used once. -/
def twoBlocks : DiscardState where
  st :=
    { img :=
        { refcountTable := fun i => if i = 0 then 1024 else if i = 1 then 1536 else 0
          refcountTableSize := 64
          refcountTableOffset := 512
          refcountBlocks := fun b i =>
            if b = 1024 ∧ (i < 4 ∨ i = 63) ∨ b = 1536 ∧ i = 0 then 1 else 0 }
      freeClusterIndex := 0
      freeByteOffset := 0
      cacheDiscards := false
      discards := []
      issued := []
      loads := [] }
  halted := false

theorem checked_twoBlocks :
    Checked smallClusters twoBlocks.st.img (fun c => if c = 63 ∨ c = 64 then 1 else 0) 4 where
  table := by decide
  blocks := by decide +kernel
  metas := by decide +kernel
  counts := by decide +kernel
  unused c (hc : 4096 ≤ c) := if_neg (by omega)

theorem opened_twoBlocks : Opened smallClusters twoBlocks :=
  ⟨⟨_, checked_twoBlocks.imageOk⟩, rfl, rfl, rfl⟩

/-- With discards kept back, a free of two clusters whose second refcount block cannot be read is
undone, but the discard of the first one stays queued and is issued. -/
theorem undone_free_discarded : ∃ s, (discardMachine smallClusters 8).Reachable s ∧
    s.st.img.refcount smallClusters 63 = 1 ∧ s.st.issued = [⟨63, 1, [1]⟩] := by
  exact Machine.Reachable.exists_of_eval (.init opened_twoBlocks) [.cacheDiscards,
    .update 32256 1024 1 true .request [none, some .eio], .processDiscards false]
    (by decide +kernel)

theorem touches_two (c : Nat) : smallClusters.Touches 32256 1024 c ↔ c = 63 ∨ c = 64 := by
  show 63 ≤ c ∧ c < 65 ↔ _
  omega

/-- The same free, with all refcount blocks read. -/
theorem discards_unused_twoClusters : ∃ s,
    (discardMachine smallClusters 8).Reach (KeepsQueue smallClusters) s ∧
      s.st.issued = [⟨63, 2, [0, 0]⟩] ∧ ∀ d ∈ s.st.issued, d.Safe smallClusters := by
  have hmeets : (discardMachine smallClusters 8).Meets (KeepsQueue smallClusters) twoBlocks
      [.cacheDiscards, .update 32256 1024 1 true .request [], .processDiscards false] := by
    refine ⟨trivial, ?_⟩
    rintro s₁ ⟨rfl⟩
    refine ⟨⟨Nat.succ_pos 0, fun _ => rfl, fun c hc => ?_⟩, fun s₂ _ =>
      ⟨trivial, fun _ _ => trivial⟩⟩
    rcases (touches_two c).1 hc with rfl | rfl
    · exact ⟨by decide, .inl (by decide +kernel)⟩
    · exact ⟨by decide, .inl (by decide +kernel)⟩
  obtain ⟨s, -, hreach, heq⟩ := Machine.Reach.exists_of_run (.init opened_twoBlocks) hmeets
    (P := (·.st.issued = [⟨63, 2, [0, 0]⟩])) (by decide +kernel)
  exact ⟨s, hreach, heq, discards_unused smallClusters 8 hreach⟩

/-! ## The queue as a set of bytes -/

section Canonical

open List Nat DiscardRegion

variable {queue ps : List DiscardRegion} {d r p : DiscardRegion}

def Covers (queue : List DiscardRegion) (x : Nat) : Prop := ∃ d ∈ queue, d.Has x

/-- The regions are not empty, and no byte of one is a byte of another or next to one. -/
structure Canonical (queue : List DiscardRegion) : Prop where
  nonempty : ∀ d ∈ queue, 0 < d.bytes
  apart : queue.Pairwise fun d p => ∀ x y, d.Has x → p.Has y → x + 1 < y ∨ y + 1 < x

/-- A region that is not empty, and of which no byte is queued. -/
structure Unqueued (queue : List DiscardRegion) (r : DiscardRegion) : Prop where
  nonempty : 0 < r.bytes
  new : ∀ x, r.Has x → ¬Covers queue x

theorem covers_cons {x : Nat} : Covers (d :: queue) x ↔ d.Has x ∨ Covers queue x := by
  simp [Covers]

theorem canonical_cons : Canonical (d :: queue) ↔ 0 < d.bytes ∧ Canonical queue ∧
    ∀ x y, d.Has x → Covers queue y → x + 1 < y ∨ y + 1 < x := by
  constructor
  · rintro ⟨hne, hap⟩
    obtain ⟨hd, hap⟩ := pairwise_cons.1 hap
    obtain ⟨hpos, hne⟩ := forall_mem_cons.1 hne
    exact ⟨hpos, ⟨hne, hap⟩, fun x y hx ⟨p, hp, hy⟩ => hd p hp x y hx hy⟩
  · rintro ⟨hpos, ⟨hne, hap⟩, hfar⟩
    exact ⟨forall_mem_cons.2 ⟨hpos, hne⟩,
      pairwise_cons.2 ⟨fun p hp x y hx hy => hfar x y hx ⟨p, hp, hy⟩, hap⟩⟩

theorem Canonical.perm (h : Canonical queue) (hp : queue ~ ps) : Canonical ps :=
  ⟨fun d hd => h.nonempty d (hp.mem_iff.2 hd),
    (hp.pairwise_iff fun h x y hx hy => (h y x hy hx).symm).1 h.apart⟩

/-- The first region of the queue is adjacent to a new one, and they are joined; or it is apart from
the new one and from the rest of the queue. -/
theorem Unqueued.first (h : Unqueued (p :: ps) r) (hcan : Canonical (p :: ps)) :
    (∃ j, j = DiscardRegion.mk (min r.offset p.offset) (r.bytes + p.bytes) ∧
      (p.offset = r.offset + r.bytes ∨ r.offset = p.offset + p.bytes) ∧ Unqueued ps j ∧
      ∀ x, Covers (j :: ps) x ↔ Covers (r :: p :: ps) x) ∨
    (p.offset > r.offset + r.bytes ∨ r.offset > p.offset + p.bytes) ∧ Unqueued ps r ∧
      ∀ x y, p.Has x → Covers (r :: ps) y → x + 1 < y ∨ y + 1 < x := by
  obtain ⟨hr, hnew⟩ := h
  obtain ⟨hp, hps, hfar⟩ := canonical_cons.1 hcan
  simp only [covers_cons] at hnew ⊢
  have hdisj : r.offset + r.bytes ≤ p.offset ∨ p.offset + p.bytes ≤ r.offset := by
    by_contra
    exact hnew (max r.offset p.offset) ⟨by omega, by omega⟩ (.inl ⟨by omega, by omega⟩)
  by_cases htouch : p.offset = r.offset + r.bytes ∨ r.offset = p.offset + p.bytes
  · have hjoin (x : Nat) : Has ⟨min r.offset p.offset, r.bytes + p.bytes⟩ x ↔ r.Has x ∨
        p.Has x := by
      simp only [Has]
      omega
    refine .inl ⟨_, rfl, htouch, ⟨by dsimp only; omega, ?_⟩, ?_⟩
    · grind
    · grind
  · refine .inr ⟨by omega, ⟨hr, by grind⟩, ?_⟩
    grind [Has]

theorem extendDiscard_canonical (h : Unqueued queue r) (hcan : Canonical queue) :
    ∃ before d after, extendDiscard r queue = some (before, d, after) ∧
    Unqueued (before ++ after) d ∧
      Canonical (before ++ after) ∧ ∀ x, Covers (d :: (before ++ after)) x ↔
      Covers (r :: queue) x := by
  induction queue with
  | nil => exact ⟨[], r, [], rfl, h, hcan, fun _ => .rfl⟩
  | cons p ps ih =>
    obtain ⟨hp, hps, -⟩ := canonical_cons.1 hcan
    rcases h.first hcan with ⟨j, rfl, htouch, hj, hcov⟩ | ⟨hfar, hr, hap⟩
    · refine ⟨[], _, ps, ?_, hj, hps, hcov⟩
      rw [extendDiscard, if_pos (by omega), if_pos (by omega)]
      congr 4
      omega
    · obtain ⟨before, d, after, hrun, ⟨hd, hnew⟩, hcan', hcov⟩ := ih hr hps
      simp only [covers_cons] at hcov hap
      have hfirst :=
        canonical_cons.2 ⟨hp, hcan', fun x y hx hy => hap x y hx ((hcov y).1 (.inr hy))⟩
      refine ⟨p :: before, d, after, ?_, ⟨hd, ?_⟩, hfirst, ?_⟩
      · rw [extendDiscard, if_neg (by omega), hrun]
        rfl
      all_goals
        simp only [covers_cons, cons_append]
        grind

theorem mergeDiscards_canonical (h : Unqueued ps d) (hcan : Canonical ps) :
    ∃ d' ps', mergeDiscards d ps = some (d', ps') ∧ Canonical (d' :: ps') ∧
      ∀ x, Covers (d' :: ps') x ↔ Covers (d :: ps) x := by
  induction ps generalizing d with
  | nil => exact ⟨d, [], rfl, canonical_cons.2 ⟨h.nonempty, hcan, by simp [Covers]⟩, fun _ => .rfl⟩
  | cons p ps ih =>
    obtain ⟨hp, hps, -⟩ := canonical_cons.1 hcan
    rcases h.first hcan with ⟨j, rfl, htouch, hj, hcov⟩ | ⟨hfar, hd, hap⟩
    · obtain ⟨d', ps', hrun, hcan', hcov'⟩ := ih hj hps
      refine ⟨d', ps', ?_, hcan', fun x => (hcov' x).trans (hcov x)⟩
      rw [mergeDiscards, if_neg (by omega), if_pos htouch, hrun]
    · obtain ⟨d', ps', hrun, hcan', hcov⟩ := ih hd hps
      have hfirst := canonical_cons.2 ⟨hp, hcan', fun x y hx hy => hap x y hx ((hcov y).1 hy)⟩
      refine ⟨d', p :: ps', ?_, hfirst.perm (.swap ..), fun x => ?_⟩
      · rw [mergeDiscards, if_pos hfar, hrun]
        rfl
      · simp only [covers_cons] at hcov ⊢
        grind

theorem mergeDiscards_append (d : DiscardRegion) (ps qs : List DiscardRegion) :
    mergeDiscards d (ps ++ qs) = (mergeDiscards d ps).bind fun (d', ps') =>
      (mergeDiscards d' qs).map fun (d'', qs') => (d'', ps' ++ qs') := by
  induction ps generalizing d with
  | nil => simp [mergeDiscards]
  | cons p ps ih =>
    simp only [cons_append, mergeDiscards, ih]
    split_ifs
    · simp [Option.bind_map, Function.comp_def]
    · rfl
    · rfl

/-- Calls of `update_refcount_discard` from an empty queue, with their ranges. -/
def queueMachine : Machine (RefState × List DiscardRegion) DiscardRegion where
  init s := s.1.discards = [] ∧ s.2 = []
  step s r := match updateRefcountDiscard r.offset r.bytes s.1 with
    | (.ok (), st) => some (st, r :: s.2)
    | _ => none

variable {s : RefState × List DiscardRegion}

/-- A new region is queued without an assertion that fails. -/
theorem Unqueued.step (h : Unqueued s.1.discards r) (hcan : Canonical s.1.discards) : ∃ queue,
    queueMachine.step s r = some ({ s.1 with discards := queue }, r :: s.2) ∧ Canonical queue ∧
      ∀ x, Covers queue x ↔ Covers (r :: s.1.discards) x := by
  obtain ⟨before, d, after, hext, hd, hcan₁, hcov⟩ := extendDiscard_canonical h hcan
  obtain ⟨d', ps', hmerge, hcan₂, hcov'⟩ := mergeDiscards_canonical hd hcan₁
  rw [mergeDiscards_append] at hmerge
  obtain ⟨⟨d₁, b⟩, hb, hmerge⟩ := Option.bind_eq_some_iff.1 hmerge
  obtain ⟨⟨d₂, a⟩, ha, heq⟩ := Option.map_eq_some_iff.1 hmerge
  obtain ⟨rfl, rfl⟩ := Prod.mk.inj heq
  have hperm : d₂ :: (b ++ a) ~ b ++ d₂ :: a := perm_middle.symm
  have hqueue : queueDiscard r s.1.discards = some (b ++ d₂ :: a) := by
    simp [queueDiscard, hext, hb, ha]
  refine ⟨b ++ d₂ :: a, ?_, hcan₂.perm hperm, fun x => ?_⟩
  · simp [queueMachine, updateRefcountDiscard, hqueue, bind, Prog.get, Prog.modify]
  · rw [← hcov, ← hcov']
    simp only [Covers, hperm.mem_iff]

/-- In every run with ranges that are not queued already, the regions of the queue are not empty,
and neither overlap nor are adjacent; they have the bytes of the ranges, and no assertion fails. -/
theorem queue_canonical (h : queueMachine.Reach (fun s => Unqueued s.1.discards) s) :
    Canonical s.1.discards ∧ (∀ x, Covers s.1.discards x ↔ Covers s.2 x) ∧
      ∀ r, Unqueued s.1.discards r → (queueMachine.step s r).isSome := by
  have hinv : Canonical s.1.discards ∧ ∀ x, Covers s.1.discards x ↔ Covers s.2 x := by
    refine h.invariant ?_ ?_
    · rintro ⟨s, _⟩ ⟨hempty, rfl⟩
      rw [hempty]
      exact ⟨⟨nofun, .nil⟩, fun _ => .rfl⟩
    · rintro s r s' - ⟨hcan, hcov⟩ hr hs
      obtain ⟨queue, hrun, hcan', hcov'⟩ := hr.step hcan
      obtain rfl := Option.some.inj (hrun.symm.trans hs)
      refine ⟨hcan', fun x => ?_⟩
      rw [hcov', covers_cons, covers_cons, hcov]
  refine ⟨hinv.1, hinv.2, fun r hr => ?_⟩
  obtain ⟨queue, hrun, -⟩ := hr.step hinv.1
  rw [hrun]
  rfl

end Canonical

/-- The second range is joined to the first one. -/
theorem queue_canonical_joined : queueMachine.Reach (fun s => Unqueued s.1.discards)
      ({ twoBlocks.st with discards := [⟨0, 1024⟩] }, [⟨512, 512⟩, ⟨0, 512⟩]) ∧
    Canonical [⟨0, 1024⟩] := by
  have hreach : queueMachine.Reach (fun s => Unqueued s.1.discards)
      ({ twoBlocks.st with discards := [⟨0, 1024⟩] }, [⟨512, 512⟩, ⟨0, 512⟩]) := by
    refine .step (e := ⟨512, 512⟩) (.step (e := ⟨0, 512⟩)
      (.init (s := (twoBlocks.st, [])) ⟨rfl, rfl⟩) ?_ rfl) ?_ rfl
    · exact ⟨by decide, by simp [twoBlocks, Covers]⟩
    · exact ⟨by decide, by simp [Covers, DiscardRegion.Has]; omega⟩
  exact ⟨hreach, (queue_canonical hreach).1⟩

end QemuAndroid.Qcow2
