import QemuAndroid.Exec.Tree

/-!
# Compacting the tree

`phys_page_compact` makes the entry of a node with a single child point past that
node.  A compacted tree still routes every mapped page to its section, but a page
that is not mapped may end up anywhere (`Routed`): the bits of the page number that
an entry skips are not looked at.  `phys_page_find` therefore finds some section
that is mapped somewhere, and the right one for a page that is mapped
(`findLoop_of_routed`).

Compaction changes nodes in place.  It starts at the leaves, so it meets a tree
that is compacted to the left of the current slot and has its old shape to the
right (`CompactInv`).
-/

namespace QemuAndroid.Exec

open Lib

variable {ρ : Type}

/-! ## Routing -/

/-- The entry `e` with prefix `q` at height `h` leads every page of its block that `m` maps to
its section. -/
inductive Routed (nodes : Nat → Nat → PhysPageEntry) (nb : Nat) (lab : Nat → Nat × Nat)
    (m : Nat → Nat) : Nat → Nat → PhysPageEntry → Prop
  /-- A leaf, for a section that is mapped somewhere. -/
  | leaf {h q e} (hskip : e.skip = 0) (hptr : e.ptr = sectionUnassigned ∨ ∃ y, m y = e.ptr)
      (hm : ∀ x, x / l2Size ^ h = q → m x ≠ sectionUnassigned → m x = e.ptr) :
      Routed nodes nb lab m h q e
  /-- No node. -/
  | nil {h q e} (hskip : e.skip ≠ 0) (hle : e.skip ≤ h) (hptr : e.ptr = nodeNil)
      (hm : ∀ x, x / l2Size ^ h = q → m x = sectionUnassigned) : Routed nodes nb lab m h q e
  /-- A node for the part `q'` of the block, outside which nothing is mapped. -/
  | node {h q e l} (q' : Nat) (hskip : e.skip ≠ 0) (hh : h = l + e.skip) (hptr : e.ptr ≠ nodeNil)
      (hnb : e.ptr < nb) (hlab : lab e.ptr = (l + 1, q')) (hunder : Under l2Size h q (l + 1, q'))
      (hm : ∀ x, x / l2Size ^ h = q → m x ≠ sectionUnassigned → x / l2Size ^ (l + 1) = q')
      (hslots : ∀ j < l2Size, Routed nodes nb lab m l (l2Size * q' + j) (nodes e.ptr j)) :
      Routed nodes nb lab m h q e

abbrev Dispatch.Routed (d : Dispatch ρ) (lab : Nat → Nat × Nat) (m : Nat → Nat) (h q : Nat)
    (e : PhysPageEntry) : Prop :=
  Exec.Routed d.nodes d.nodesNb lab m h q e

variable {nodes : Nat → Nat → PhysPageEntry} {nb h q level n validPtr valid fuel : Nat}
  {lab : Nat → Nat × Nat} {m : Nat → Nat} {e : PhysPageEntry} {d : Dispatch ρ}

/-- Routes depend on the nodes under their block. -/
theorem Routed.frame {nodes' : Nat → Nat → PhysPageEntry} (hr : Routed nodes nb lab m h q e)
    (hnodes : ∀ n < nb, Under l2Size h q (lab n) → nodes' n = nodes n) :
    Routed nodes' nb lab m h q e := by
  induction hr with
  | leaf hskip hptr hm => exact .leaf hskip hptr hm
  | nil hskip hle hptr hm => exact .nil hskip hle hptr hm
  | node q' hskip hh hptr hnb hlab hunder hm hslots ih =>
    refine .node q' hskip hh hptr hnb hlab hunder hm fun j hj => ?_
    rw [hnodes _ hnb (by rw [hlab]; exact hunder)]
    exact ih j hj fun n hn hu => hnodes n hn (hunder.trans (hu.parent hj))

/-- `phys_page_find` ends at a section that is mapped somewhere, and at the right one for a page
that is mapped. -/
theorem findLoop_of_routed (hr : d.Routed lab m h q e) (x : Nat) (hfuel : h < fuel) :
    ∃ s, findLoop d x fuel h e = some s ∧ (s = sectionUnassigned ∨ ∃ y, m y = s) ∧
      (x / l2Size ^ h = q → m x ≠ sectionUnassigned → s = m x) := by
  induction hr generalizing fuel with
  | leaf hskip hptr hm =>
    obtain ⟨fuel, rfl⟩ : ∃ f, fuel = f + 1 := ⟨fuel - 1, by omega⟩
    exact ⟨_, by simp [findLoop, hskip], hptr, fun hx hne => (hm x hx hne).symm⟩
  | nil hskip hle hptr hm =>
    obtain ⟨fuel, rfl⟩ : ∃ f, fuel = f + 1 := ⟨fuel - 1, by omega⟩
    refine ⟨sectionUnassigned, ?_, .inl rfl, fun hx hne => absurd (hm x hx) hne⟩
    simp [findLoop, hskip, hptr, hle.not_gt]
  | @node h q e l q' hskip hh hptr hnb hlab hunder hm hslots ih =>
    obtain ⟨fuel, rfl⟩ : ∃ f, fuel = f + 1 := ⟨fuel - 1, by omega⟩
    have hmod : x / l2Size ^ l % l2Size < l2Size := Nat.mod_lt _ (by decide)
    have hgo : ¬ (e.skip = 0 ∨ h < e.skip) := by omega
    have hl : h - e.skip = l := by omega
    obtain ⟨s, hfind, hs, hmem⟩ := ih _ hmod (show l < fuel by omega)
    refine ⟨s, ?_, hs, fun hx hne => hmem (div_pow_eq_child (hm x hx hne)) hne⟩
    rw [findLoop, if_neg hgo, if_neg hptr, if_pos hnb, hl]
    exact hfind

theorem Shape.routed_of_skip_eq_zero (hs : Shape nodes nb lab m h q e) (hskip : e.skip = 0) :
    Routed nodes nb lab m h q e := by
  cases h with
  | zero =>
    refine .leaf hskip (.inr ⟨q, hs.2.symm⟩) fun x hx _ => ?_
    obtain rfl : x = q := by simpa using hx
    exact hs.2.symm
  | succ h =>
    rcases hs with ⟨-, -, hm⟩ | ⟨hskip', -⟩ | ⟨hskip', -⟩
    · have hpos : 0 < l2Size ^ (h + 1) := Nat.pow_pos (by decide)
      exact .leaf hskip (.inr ⟨q * l2Size ^ (h + 1), hm _ (Nat.mul_div_cancel _ hpos)⟩)
        fun x hx _ => hm x hx
    · omega
    · omega

theorem Shape.routed_of_nil (hs : Shape nodes nb lab m h q e) (hnil : e.ptr = nodeNil)
    (hm : ∀ x, m x ≠ nodeNil) :
    Routed nodes nb lab m h q e ∧ ∀ x, x / l2Size ^ h = q → m x = sectionUnassigned := by
  cases h with
  | zero => exact absurd (hs.2.symm.trans hnil) (hm q)
  | succ h =>
    rcases hs with ⟨-, -, hptr⟩ | ⟨hskip, -, hfree⟩ | ⟨-, hptr, -⟩
    · have hpos : 0 < l2Size ^ (h + 1) := Nat.pow_pos (by decide)
      exact absurd ((hptr _ (Nat.mul_div_cancel q hpos)).trans hnil) (hm _)
    · exact ⟨.nil (by omega) (by omega) hnil hfree, hfree⟩
    · exact absurd hnil hptr

/-- Nothing is mapped below an entry without a node. -/
theorem Routed.free_of_nil (hr : Routed nodes nb lab m h q e) (hnil : e.ptr = nodeNil)
    (hm : ∀ x, m x ≠ nodeNil) {x : Nat} (hx : x / l2Size ^ h = q) : m x = sectionUnassigned := by
  cases hr with
  | leaf _ _ hleaf =>
    by_contra hne
    exact hm x ((hleaf x hx hne).trans hnil)
  | nil _ _ _ hfree => exact hfree x hx
  | node _ _ _ hptr => exact absurd hnil hptr

/-! ## One node -/

/-- What `phys_page_compact` leaves: the same nodes, with the entry routed and `NIL` as before. -/
structure CompactPost (d : Dispatch ρ) (lab : Nat → Nat × Nat) (m : Nat → Nat) (h q : Nat) (lp : Lp)
    (e : PhysPageEntry) (d' : Dispatch ρ) : Prop where
  below : Below h q (d.write lp e) d' lab lab
  nodes : d'.nodesNb = d.nodesNb
  routed : d'.Routed lab m h q e
  nil_iff : e.ptr = nodeNil ↔ (d.read lp).ptr = nodeNil

/-- `compact` compacts an entry of height `h` that is not a leaf. -/
def CompactSpec (m : Nat → Nat) (h : Nat) (compact : Dispatch ρ → Lp → Option (Dispatch ρ)) :
    Prop :=
  ∀ d lab q lp, d.Shape lab m h q (d.read lp) → lp.Outside d.nodesNb lab h q →
    (d.read lp).skip ≠ 0 → ∃ d' e, compact d lp = some d' ∧ CompactPost d lab m h q lp e d'

/-- The loop of `phys_page_compact` before slot `i` of node `n`. -/
structure CompactInv (d : Dispatch ρ) (lab : Nat → Nat × Nat) (m : Nat → Nat) (level q n i : Nat)
    (validPtr valid : Nat) : Prop where
  node : n < d.nodesNb
  label : lab n = (level + 1, q)
  done : ∀ j < i, d.Routed lab m level (l2Size * q + j) (d.nodes n j)
  todo : ∀ j < l2Size, i ≤ j → d.Shape lab m level (l2Size * q + j) (d.nodes n j)
  none : valid = 0 → ∀ j < i, (d.nodes n j).ptr = nodeNil
  one : valid = 1 → validPtr < i ∧ (d.nodes n validPtr).ptr ≠ nodeNil ∧
    ∀ j < i, j ≠ validPtr → (d.nodes n j).ptr = nodeNil

/-- One slot: a slot with an entry is counted. -/
theorem CompactInv.next {d' : Dispatch ρ} {i : Nat}
    (hinv : CompactInv d lab m level q n i validPtr valid) (hi : i < l2Size)
    (hpost : CompactPost d lab m level (l2Size * q + i) (.slot n i) e d') :
    Below (level + 1) q d d' lab lab ∧
      ((d.nodes n i).ptr = nodeNil → CompactInv d' lab m level q n (i + 1) validPtr valid) ∧
      ((d.nodes n i).ptr ≠ nodeNil → CompactInv d' lab m level q n (i + 1) i (valid + 1)) := by
  have hchange := hpost.below.slotChange hi hinv.node hinv.label
  have hnb := hpost.nodes
  have hdone (j : Nat) (hj : j < i + 1) :
      d'.Routed lab m level (l2Size * q + j) (d'.nodes n j) := by
    rcases eq_or_ne j i with rfl | hne
    · rw [hchange.self]
      exact hpost.routed
    · rw [hchange.other j hne, Dispatch.Routed, hnb]
      exact (hinv.done j (by omega)).frame (hchange.nodes j hne)
  have htodo (j : Nat) (hj : j < l2Size) (hij : i + 1 ≤ j) :
      d'.Shape lab m level (l2Size * q + j) (d'.nodes n j) := by
    have hne : j ≠ i := by omega
    rw [hchange.other j hne]
    exact (hinv.todo j hj (by omega)).frame hnb.ge (fun _ _ => rfl) (hchange.nodes j hne)
      fun _ _ => rfl
  have hptr : (d'.nodes n i).ptr = nodeNil ↔ (d.nodes n i).ptr = nodeNil := by
    rw [hchange.self]
    exact hpost.nil_iff
  -- the slots before `i` are as they were, and slot `i` is `NIL` as it was
  have hbefore {k : Nat} (h : ∀ j < i, j ≠ k → (d.nodes n j).ptr = nodeNil)
      (hk : i ≠ k → (d.nodes n i).ptr = nodeNil) :
      ∀ j < i + 1, j ≠ k → (d'.nodes n j).ptr = nodeNil := by
    intro j hj hjk
    rcases eq_or_ne j i with rfl | hne
    · exact hptr.2 (hk hjk)
    · rw [hchange.other j hne]
      exact h j (by omega) hjk
  refine ⟨hchange.below, fun hnil => ?_, fun hval => ?_⟩
  · refine ⟨hchange.node, hinv.label, hdone, htodo, fun h₀ j hj => ?_, fun h₁ => ?_⟩
    · exact hbefore (k := i + 1) (fun j hj _ => hinv.none h₀ j hj) (fun _ => hnil) j hj (by omega)
    obtain ⟨hlt, hvalid, hrest⟩ := hinv.one h₁
    refine ⟨by omega, ?_, hbefore hrest fun _ => hnil⟩
    rw [hchange.other _ hlt.ne]
    exact hvalid
  · refine ⟨hchange.node, hinv.label, hdone, htodo, fun h₀ => by omega, fun h₁ => ?_⟩
    refine ⟨by omega, fun h => hval (hptr.1 h), ?_⟩
    exact hbefore (fun j hj _ => hinv.none (by omega) j hj) fun h => absurd rfl h

theorem compactPost_self (lp : Lp) (hr : d.Routed lab m h q (d.read lp)) :
    CompactPost d lab m h q lp (d.read lp) d := by
  refine ⟨?_, rfl, hr, Iff.rfl⟩
  rw [write_read_self]
  exact Below.refl ..

/-- The loop of `phys_page_compact`, by induction on the slots left. -/
theorem compactLoop_spec {compact : Dispatch ρ → Lp → Option (Dispatch ρ)} (hm : ∀ x, m x ≠ nodeNil)
    (hcompact : CompactSpec m level compact) {k i : Nat} (hk : i + k = l2Size)
    (hinv : CompactInv d lab m level q n i validPtr valid) :
    ∃ d' validPtr' valid', compactLoop n compact k d i validPtr valid =
        some (d', validPtr', valid') ∧ Below (level + 1) q d d' lab lab ∧ d'.nodesNb = d.nodesNb ∧
      CompactInv d' lab m level q n l2Size validPtr' valid' := by
  induction k generalizing d i validPtr valid with
  | zero =>
    obtain rfl : i = l2Size := hk
    exact ⟨d, validPtr, valid, rfl, Below.refl .., rfl, hinv⟩
  | succ k ih =>
    have hi : i < l2Size := by omega
    have hshape := hinv.todo i hi (le_refl i)
    rw [compactLoop]
    split
    · next hnil =>
      have hpost := compactPost_self (.slot n i) (hshape.routed_of_nil hnil hm).1
      exact ih (by omega) ((hinv.next hi hpost).2.1 hnil)
    · next hnil =>
      split
      · next hskip =>
        have hpost := compactPost_self (.slot n i) (hshape.routed_of_skip_eq_zero hskip)
        exact ih (by omega) ((hinv.next hi hpost).2.2 hnil)
      · next hskip =>
        have hout : (Lp.slot n i).Outside d.nodesNb lab level (l2Size * q + i) :=
          ⟨hinv.node, by rw [hinv.label]; exact not_under_succ _ _ _ _⟩
        obtain ⟨d₁, e, hrun, hpost⟩ := hcompact d lab _ _ hshape hout hskip
        obtain ⟨hbelow, -, hnext⟩ := hinv.next hi hpost
        obtain ⟨d', validPtr', valid', hrun', hbelow', hnb, hinv'⟩ := ih (by omega) (hnext hnil)
        refine ⟨d', validPtr', valid', ?_, hbelow.trans hbelow', hnb.trans hpost.nodes, hinv'⟩
        rw [hrun]
        exact hrun'

/-! ## The entry of a node -/

/-- A node whose slots are routed is routed by an entry that skips nothing. -/
theorem CompactInv.routed (hinv : CompactInv d lab m level q e.ptr l2Size validPtr valid)
    (hskip : e.skip = 1) (hptr : e.ptr ≠ nodeNil) : d.Routed lab m (level + 1) q e :=
  .node q (by omega) (by omega) hptr hinv.node hinv.label (under_self ..) (fun _ hx _ => hx)
    hinv.done

theorem CompactInv.routed_child (hm : ∀ x, m x ≠ nodeNil)
    (hinv : CompactInv d lab m level q n l2Size validPtr 1) : d.Routed lab m (level + 1) q
      ⟨if (d.nodes n validPtr).skip = 0 then 0 else 1 + (d.nodes n validPtr).skip,
        (d.nodes n validPtr).ptr⟩ := by
  obtain ⟨hlt, hvalid, hrest⟩ := hinv.one rfl
  -- every page that is mapped lies in the block of the child
  have hchild (x : Nat) (hx : x / l2Size ^ (level + 1) = q) (hne : m x ≠ sectionUnassigned) :
      x / l2Size ^ level = l2Size * q + validPtr := by
    have hmod : x / l2Size ^ level % l2Size < l2Size := Nat.mod_lt _ (by decide)
    have hx' := div_pow_eq_child hx
    by_contra h
    have hnil := hrest _ hmod fun h' => h (by rw [hx', h'])
    exact hne ((hinv.done _ hmod).free_of_nil hnil hm hx')
  have hrouted := hinv.done validPtr hlt
  cases hrouted with
  | leaf hskip hptr hleaf =>
    exact .leaf (by simp [hskip]) hptr fun x hx hne => hleaf x (hchild x hx hne) hne
  | nil _ _ hptr => exact absurd hptr hvalid
  | @node _ _ _ l q' hskip hh hptr hnb hlab hunder hmap hslots =>
    refine .node q' (by simp [hskip]) ?_ hptr hnb hlab (hunder.parent hlt) ?_ hslots
    · simp only [hskip, if_false]
      omega
    · exact fun x hx hne => hmap x (hchild x hx hne) hne

/-- Writing the entry of a block on both sides. -/
theorem Below.write_both {d' : Dispatch ρ} {lab' : Nat → Nat × Nat} (hb : Below h q d d' lab lab')
    (lp : Lp) (e : PhysPageEntry) : Below h q (d.write lp e) (d'.write lp e) lab lab' where
  sections := by simpa using hb.sections
  subpages := by simpa using hb.subpages
  alloc := by simpa using hb.alloc
  nb_le := by simpa using hb.nb_le
  labels n hn := hb.labels n (by simpa using hn)
  same lp' hlp' := by
    rcases eq_or_ne lp' lp with rfl | hne
    · rw [read_write, read_write]
    · rw [write_read_of_ne _ _ hne, write_read_of_ne _ _ hne]
      exact hb.same lp' (by simpa using hlp')

/-- Writing an entry outside a block keeps its routes. -/
theorem Routed.write (hr : d.Routed lab m h q e) {lp : Lp} (hlp : lp.Outside d.nodesNb lab h q)
    (e' : PhysPageEntry) : (d.write lp e').Routed lab m h q e := by
  rw [Dispatch.Routed, write_nodesNb]
  refine hr.frame fun n hn hu => ?_
  funext j
  have hne : Lp.slot n j ≠ lp := by
    rintro rfl
    exact hlp.2 hu
  exact write_read_of_ne d e' hne

/-- The end of `phys_page_compact`. -/
theorem compactEntry_post {d₁ : Dispatch ρ} {lp : Lp} (hm : ∀ x, m x ≠ nodeNil)
    (hout : lp.Outside d.nodesNb lab (level + 1) q) (hskip : (d.read lp).skip = 1)
    (hptr : (d.read lp).ptr ≠ nodeNil) (hbelow : Below (level + 1) q d d₁ lab lab)
    (hnb : d₁.nodesNb = d.nodesNb)
    (hinv : CompactInv d₁ lab m level q (d.read lp).ptr l2Size validPtr 1) :
    ∃ e, CompactPost d lab m (level + 1) q lp e
      (compactEntry d₁ lp (d₁.nodes (d.read lp).ptr validPtr)) := by
  have hread : d₁.read lp = d.read lp := hbelow.same lp hout
  have hvalid := (hinv.one rfl).2.1
  simp only [compactEntry, hread, hskip]
  split
  · refine ⟨d.read lp, ?_, hnb, hinv.routed hskip hptr, Iff.rfl⟩
    rw [write_read_self]
    exact hbelow
  · refine ⟨_, hbelow.write_both lp _, by simpa using hnb, ?_, ?_⟩
    · exact (hinv.routed_child hm).write (hbelow.outside hout) _
    · exact ⟨fun h => absurd h hvalid, fun h => absurd h hptr⟩

/-- `phys_page_compact` on an entry of height `h` keeps the routes of the tree. -/
theorem physPageCompact_spec (hm : ∀ x, m x ≠ nodeNil) (hfuel : h ≤ fuel) :
    CompactSpec (ρ := ρ) m h (physPageCompact fuel) := by
  induction h generalizing fuel with
  | zero => exact fun d lab q lp hs _ hskip => absurd hs.1 hskip
  | succ level ih =>
    obtain ⟨fuel, rfl⟩ : ∃ f, fuel = f + 1 := ⟨fuel - 1, by omega⟩
    intro d lab q lp hs hout hskip
    rcases hs with ⟨hskip', -⟩ | ⟨hskip', hnil, hfree⟩ | ⟨hskip', hptr, hnb, hlab, hslots⟩
    · exact absurd hskip' hskip
    · refine ⟨d, d.read lp, by simp [physPageCompact, hnil], compactPost_self lp ?_⟩
      exact .nil hskip (by omega) hnil hfree
    have hinv : CompactInv d lab m level q (d.read lp).ptr 0 l2Size 0 :=
      ⟨hnb, hlab, fun j hj => absurd hj (Nat.not_lt_zero j), fun j hj _ => hslots j hj,
        fun _ j hj => absurd hj (Nat.not_lt_zero j), fun h => absurd h (by decide)⟩
    obtain ⟨d₁, validPtr, valid, hrun, hbelow, hnb₁, hinv₁⟩ :=
      compactLoop_spec hm (ih (show level ≤ fuel by omega)) (zero_add _) hinv
    simp only [physPageCompact, if_neg hptr, if_pos hnb, hrun, Option.bind_eq_bind,
      Option.bind_some]
    by_cases hone : valid = 1
    · subst hone
      obtain ⟨e, hpost⟩ := compactEntry_post hm hout hskip' hptr hbelow hnb₁ hinv₁
      exact ⟨_, e, by rw [if_neg (by simp), if_pos (hinv₁.one rfl).1], hpost⟩
    · refine ⟨d₁, d.read lp, if_pos hone, ?_, hnb₁, hinv₁.routed hskip' hptr, Iff.rfl⟩
      rw [write_read_self]
      exact hbelow

/-! ## The whole tree -/

/-- The tree of `d`, which may be compacted, leads every page that `m` maps to its section. -/
def Routes (p : Nat) (d : Dispatch ρ) (m : Nat → Nat) : Prop :=
  ∃ lab, d.Routed lab m (l2Levels p) 0 d.physMap

theorem physPageCompactAll_spec {p : Nat} (hmaps : Maps p d m) (hm : ∀ x, m x ≠ nodeNil) :
    ∃ d', physPageCompactAll p d = some d' ∧ Routes p d' m ∧
      d'.sections = d.sections ∧ d'.subpages = d.subpages := by
  obtain ⟨lab, hs⟩ := hmaps
  unfold physPageCompactAll
  by_cases hskip : d.physMap.skip = 0
  · exact ⟨d, if_neg (by simp [hskip]), ⟨lab, hs.routed_of_skip_eq_zero hskip⟩, rfl, rfl⟩
  obtain ⟨d', e, hrun, hpost⟩ :=
    physPageCompact_spec hm (le_refl _) d lab 0 .root hs trivial hskip
  have hroot : d'.physMap = e := hpost.below.same .root trivial
  refine ⟨d', by rw [if_pos hskip, hrun], ⟨lab, ?_⟩, ?_, ?_⟩
  · rw [hroot]
    exact hpost.routed
  · simpa using hpost.below.sections
  · simpa using hpost.below.subpages

end QemuAndroid.Exec
