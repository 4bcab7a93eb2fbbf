import QemuAndroid.Exec.Model
import QemuAndroid.Lib.Radix

/-!
# Setting pages

The tree before compaction, read as a map from page numbers to sections (`Shape`).
`lab` labels every node with the block of pages it stands for.  Nodes are only
reached through entries of their own block, so a write below one entry leaves the
subtrees of all other blocks alone (`Shape.frame`).

`phys_page_set_level` sets an interval of free pages and keeps the shape
(`physPageSetLevel_spec`).  It allocates nodes along the two ends of the interval
only, which is why the nodes that `phys_page_set` reserves are enough
(`physPageSet_spec`).
-/

namespace QemuAndroid.Exec

open Lib Function Option Nat Dispatch

variable {ρ : Type}

/-! ## The tree as a map -/

/-- The entry `e` with prefix `q` at height `h` maps its block of pages as `m` does.
Page `q` is the block of height 0.  A section is never mapped above a free page. -/
def Shape (nodes : Nat → Nat → PhysPageEntry) (nb : Nat) (lab : Nat → Nat × Nat) (m : Nat → Nat) :
    Nat → Nat → PhysPageEntry → Prop
  | 0, q, e => e.skip = 0 ∧ e.ptr = m q
  | h + 1, q, e =>
    (e.skip = 0 ∧ e.ptr ≠ sectionUnassigned ∧ ∀ x, x / l2Size ^ (h + 1) = q → m x = e.ptr) ∨
    (e.skip = 1 ∧ e.ptr = nodeNil ∧ ∀ x, x / l2Size ^ (h + 1) = q → m x = sectionUnassigned) ∨
    (e.skip = 1 ∧ e.ptr ≠ nodeNil ∧ e.ptr < nb ∧ lab e.ptr = (h + 1, q) ∧
      ∀ j < l2Size, Shape nodes nb lab m h (l2Size * q + j) (nodes e.ptr j))

abbrev Dispatch.Shape (d : Dispatch ρ) (lab : Nat → Nat × Nat) (m : Nat → Nat) (h q : Nat)
    (e : PhysPageEntry) : Prop :=
  Exec.Shape d.nodes d.nodesNb lab m h q e

variable {nb h q x level index stop leaf p : Nat} {lab lab' : Nat → Nat × Nat} {m : Nat → Nat}
  {e : PhysPageEntry} {d d' : Dispatch ρ} {lp : Lp}

/-- A shape depends on the nodes under its block and on the pages of its block. -/
theorem Shape.frame {nodes nodes' : Nat → Nat → PhysPageEntry} {nb' : Nat}
    {m' : Nat → Nat} (hs : Shape nodes nb lab m h q e) (hnb : nb ≤ nb')
    (hlab : ∀ n < nb, lab' n = lab n)
    (hnodes : ∀ n < nb, Under l2Size h q (lab n) → nodes' n = nodes n)
    (hm : ∀ x, x / l2Size ^ h = q → m' x = m x) : Shape nodes' nb' lab' m' h q e := by
  induction h generalizing q e with
  | zero => exact ⟨hs.1, by rw [hs.2, hm q (by simp)]⟩
  | succ h ih =>
    rcases hs with ⟨h₁, h₂, h₃⟩ | ⟨h₁, h₂, h₃⟩ | ⟨h₁, h₂, h₃, h₄, h₅⟩
    · exact .inl ⟨h₁, h₂, fun x hx => (hm x hx).trans (h₃ x hx)⟩
    · exact .inr (.inl ⟨h₁, h₂, fun x hx => (hm x hx).trans (h₃ x hx)⟩)
    refine .inr (.inr ⟨h₁, h₂, by omega, by rw [hlab _ h₃, h₄], fun j hj => ?_⟩)
    rw [hnodes _ h₃ (by rw [h₄]; exact under_self ..)]
    refine ih (h₅ j hj) (fun n hn hu => hnodes n hn (hu.parent hj)) fun x hx => ?_
    exact hm x (div_pow_of_child hj hx)

/-- `phys_page_find` follows the shape. -/
theorem findLoop_of_shape (hs : d.Shape lab m h q e) (hx : x / l2Size ^ h = q) {fuel : Nat}
    (hfuel : h < fuel) : findLoop d x fuel h e = some (m x) := by
  induction h generalizing q e fuel with
  | zero =>
    obtain ⟨fuel, rfl⟩ : ∃ f, fuel = f + 1 := ⟨fuel - 1, by omega⟩
    obtain ⟨hskip, hptr⟩ := hs
    obtain rfl : x = q := by simpa using hx
    simp [findLoop, hskip, hptr]
  | succ h ih =>
    obtain ⟨fuel, rfl⟩ : ∃ f, fuel = f + 1 := ⟨fuel - 1, by omega⟩
    rcases hs with ⟨h₁, h₂, h₃⟩ | ⟨h₁, h₂, h₃⟩ | ⟨h₁, h₂, h₃, h₄, h₅⟩
    · simp [findLoop, h₁, h₃ x hx]
    · simp [findLoop, h₁, h₂, h₃ x hx]
    · have hmod : x / l2Size ^ h % l2Size < l2Size := mod_lt _ (by decide)
      have hrec := ih (h₅ _ hmod) (div_pow_eq_child hx) (show h < fuel by omega)
      simpa [findLoop, h₁, h₂, h₃] using hrec

/-! ## Writing entries -/

section

variable (d)

section

variable (lp)

section

variable (e)

@[simp] theorem read_write : (d.write lp e).read lp = e := by
  cases lp <;> simp [Dispatch.read, Dispatch.write]

@[simp] theorem write_nodesNb : (d.write lp e).nodesNb = d.nodesNb := by
  cases lp <;> rfl

@[simp] theorem write_nodesNbAlloc : (d.write lp e).nodesNbAlloc = d.nodesNbAlloc := by
  cases lp <;> rfl

@[simp] theorem write_sections : (d.write lp e).sections = d.sections := by
  cases lp <;> rfl

@[simp] theorem write_subpages : (d.write lp e).subpages = d.subpages := by
  cases lp <;> rfl

end

@[simp] theorem write_read_self : d.write lp (d.read lp) = d := by
  cases lp <;> simp [Dispatch.read, Dispatch.write]

end

theorem write_read_of_ne {lp' : Lp} (e : PhysPageEntry) (h : lp' ≠ lp) :
    (d.write lp e).read lp' = d.read lp' := by
  cases lp with
  | root =>
    cases lp' with
    | root => exact absurd rfl h
    | slot n j => rfl
  | slot n j =>
    cases lp' with
    | root => rfl
    | slot n' j' =>
      simp only [Dispatch.read, Dispatch.write]
      rcases eq_or_ne n' n with rfl | hn
      · rw [update_self]
        have hj : j' ≠ j := by
          rintro rfl
          exact h rfl
        rw [update_of_ne hj]
      · rw [update_of_ne hn]

end

/-- The entry `lp` lies in no node under the block with prefix `q` at height `h`. -/
def Lp.Outside (nb : Nat) (lab : Nat → Nat × Nat) (h q : Nat) : Lp → Prop
  | .root => True
  | .slot n _ => n < nb ∧ ¬ Under l2Size h q (lab n)

/-- Only nodes under a block have changed, and all new nodes lie under it. -/
structure Below (h q : Nat) (d d' : Dispatch ρ) (lab lab' : Nat → Nat × Nat) : Prop where
  sections : d'.sections = d.sections
  subpages : d'.subpages = d.subpages
  alloc : d'.nodesNbAlloc = d.nodesNbAlloc
  nb_le : d.nodesNb ≤ d'.nodesNb
  labels : ∀ n < d.nodesNb, lab' n = lab n
  same : ∀ lp : Lp, lp.Outside d.nodesNb lab h q → d'.read lp = d.read lp

variable {j n : Nat}

namespace Below

variable {h q : Nat} {d d' d'' : Dispatch ρ} {lab lab' lab'' : Nat → Nat × Nat}

theorem refl (h q : Nat) (d : Dispatch ρ) (lab : Nat → Nat × Nat) : Below h q d d lab lab :=
  ⟨rfl, rfl, rfl, le_refl _, fun _ _ => rfl, fun _ _ => rfl⟩

theorem outside (hb : Below h q d d' lab lab') {h' q' : Nat}
    (hlp : lp.Outside d.nodesNb lab h' q') : lp.Outside d'.nodesNb lab' h' q' := by
  cases lp with
  | root => trivial
  | slot n j => exact ⟨hlp.1.trans_le hb.nb_le, by rw [hb.labels n hlp.1]; exact hlp.2⟩

theorem trans (h₁ : Below h q d d' lab lab') (h₂ : Below h q d' d'' lab' lab'') :
    Below h q d d'' lab lab'' where
  sections := h₂.sections.trans h₁.sections
  subpages := h₂.subpages.trans h₁.subpages
  alloc := h₂.alloc.trans h₁.alloc
  nb_le := h₁.nb_le.trans h₂.nb_le
  labels n hn := (h₂.labels n (hn.trans_le h₁.nb_le)).trans (h₁.labels n hn)
  same lp hlp := (h₂.same lp (h₁.outside hlp)).trans (h₁.same lp hlp)

/-- A change under a part of a block is a change under the block. -/
theorem parent (hj : j < l2Size) (hb : Below h (l2Size * q + j) d d' lab lab') :
    Below (h + 1) q d d' lab lab' where
  sections := hb.sections
  subpages := hb.subpages
  alloc := hb.alloc
  nb_le := hb.nb_le
  labels := hb.labels
  same lp hlp := by
    apply hb.same
    cases lp with
    | root => trivial
    | slot n i => exact ⟨hlp.1, fun hu => hlp.2 (hu.parent hj)⟩

/-- Writing an entry of a node under a block. -/
theorem write (hu : Under l2Size h q (lab n)) (e : PhysPageEntry) :
    Below h q d (d.write (.slot n j) e) lab lab where
  sections := by simp
  subpages := by simp
  alloc := by simp
  nb_le := by simp
  labels _ _ := rfl
  same lp hlp := by
    apply write_read_of_ne
    rintro rfl
    exact hlp.2 hu

end Below

/-- A change of slot `j` of node `n` and of the nodes under it. -/
structure SlotChange (level q n j : Nat) (e : PhysPageEntry) (d d' : Dispatch ρ)
    (lab lab' : Nat → Nat × Nat) : Prop where
  below : Below (level + 1) q d d' lab lab'
  node : n < d'.nodesNb
  label : lab' n = (level + 1, q)
  self : d'.nodes n j = e
  other : ∀ i, i ≠ j → d'.nodes n i = d.nodes n i
  /-- The nodes under the other slots are kept. -/
  nodes : ∀ i, i ≠ j → ∀ n' < d.nodesNb, Under l2Size level (l2Size * q + i) (lab n') →
    d'.nodes n' = d.nodes n'

theorem Below.slotChange
    (hb : Below level (l2Size * q + j) (d.write (.slot n j) e) d' lab lab') (hj : j < l2Size)
    (hn : n < d.nodesNb) (hlab : lab n = (level + 1, q)) :
    SlotChange level q n j e d d' lab lab' := by
  have hn' : n < (d.write (.slot n j) e).nodesNb := by simpa using hn
  have hnot : ∀ i, ¬ Under l2Size level (l2Size * q + i) (lab n) := by
    intro i
    rw [hlab]
    exact not_under_succ _ _ _ _
  have hread : ∀ i, d'.nodes n i = (d.write (.slot n j) e).read (.slot n i) := fun i =>
    hb.same (.slot n i) ⟨hn', hnot j⟩
  constructor
  · have hwrite : Below (level + 1) q d (d.write (.slot n j) e) lab lab :=
      write (by rw [hlab]; exact under_self ..) e
    exact hwrite.trans (hb.parent hj)
  · exact hn'.trans_le hb.nb_le
  · rw [hb.labels n hn', hlab]
  · rw [hread, read_write]
  · intro i hne
    rw [hread, write_read_of_ne _ _ (by simp [hne])]
    rfl
  intro i hne n' hlt hu
  have hne' : n' ≠ n := by
    rintro rfl
    exact hnot i hu
  funext k
  have hk := hb.same (.slot n' k) ⟨by simpa using hlt, fun hu' => hne (by have := hu.eq hu'; omega)⟩
  rw [write_read_of_ne _ _ (by simp [hne'])] at hk
  exact hk

/-! ## Allocating a node -/

/-- The end of the block of height `h` around page `x`. -/
def blockEnd (h x : Nat) : Nat := (x / l2Size ^ h + 1) * l2Size ^ h

theorem lt_blockEnd (h x : Nat) : x < blockEnd h x := by
  have hpos : 0 < l2Size ^ h := Nat.pow_pos (by decide)
  rw [blockEnd, mul_comm]
  exact lt_mul_div_succ x hpos |>.trans_eq (mul_succ ..)

theorem div_eq_of_lt_blockEnd {y : Nat} (h₁ : x ≤ y) (h₂ : y < blockEnd h x) :
    y / l2Size ^ h = x / l2Size ^ h := by
  rw [div_pow_eq_iff (by decide)]
  rw [blockEnd, succ_mul] at h₂
  exact ⟨(div_mul_le_self ..).trans h₁, h₂⟩

theorem blockEnd_eq (hx : x % l2Size ^ h = 0) : blockEnd h x = x + l2Size ^ h := by
  rw [blockEnd, succ_mul, Nat.div_mul_cancel (dvd_of_mod_eq_zero hx)]

/-- The end of the block that a node of height `level + 1` stands for. -/
def nodeEnd (level q : Nat) : Nat := (q + 1) * l2Size ^ (level + 1)

theorem blockEnd_le (hj : j < l2Size) (hx : x / l2Size ^ h = l2Size * q + j) :
    blockEnd h x ≤ nodeEnd h q := by
  rw [nodeEnd, pow_succ, mul_comm (l2Size ^ h), ← mul_assoc]
  refine mul_le_mul_right _ ?_
  rw [succ_mul, mul_comm q]
  omega

/-- The nodes that `phys_page_set_level` may allocate at and below an entry of height `h` to set
the pages from `index` up to `stop`: one path for each end of the interval inside the block. -/
def levelCost (h index stop : Nat) : Nat :=
  if index % l2Size ^ h = 0 ∨ blockEnd h index ≤ stop then h else 2 * h - 1

/-- The same for the slots of a node, which are of height `level`, up to the end of the block. -/
def loopCost (level index stop nodeEnd : Nat) : Nat :=
  if stop ≤ index then 0
  else (if index % l2Size ^ level = 0 then 0 else level) + if nodeEnd ≤ stop then 0 else level

theorem loopCost_le_levelCost (hq : index / l2Size ^ (level + 1) = q) :
    1 + loopCost level index stop (nodeEnd level q) ≤ levelCost (level + 1) index stop := by
  have hdvd : index % l2Size ^ (level + 1) = 0 → index % l2Size ^ level = 0 := fun h =>
    mod_eq_zero_of_dvd
      (dvd_trans (pow_dvd_pow _ level.le_succ) (dvd_of_mod_eq_zero h))
  simp only [loopCost, levelCost, show blockEnd (level + 1) index = nodeEnd level _ from rfl]
  split_ifs <;> simp_all <;> omega

/-- A slot that is set as a whole allocates nothing. -/
theorem loopCost_whole {nodeEnd : Nat} (halign : index % l2Size ^ level = 0) (hlt : index < stop) :
    loopCost level (index + l2Size ^ level) stop nodeEnd ≤ loopCost level index stop nodeEnd := by
  have halign' : (index + l2Size ^ level) % l2Size ^ level = 0 := by simpa using halign
  simp only [loopCost, halign, halign', if_neg hlt.not_ge, if_true]
  split_ifs <;> omega

/-- A slot that is set in part holds an end of the interval. -/
theorem loopCost_part {nodeEnd : Nat} (hend : blockEnd level index ≤ nodeEnd) (hlt : index < stop)
    (hpart : ¬ (index % l2Size ^ level = 0 ∧ l2Size ^ level ≤ stop - index)) :
    levelCost level index stop + loopCost level (min stop (blockEnd level index)) stop nodeEnd ≤
      loopCost level index stop nodeEnd := by
  have halign : blockEnd level index % l2Size ^ level = 0 := mul_mod_left ..
  rcases lt_or_ge stop (blockEnd level index) with hstop | hstop
  · rw [min_eq_left hstop.le]
    simp only [levelCost, loopCost, if_neg hlt.not_ge, hstop.not_ge, or_false, le_refl, if_true,
      if_neg (hstop.trans_le hend).not_ge]
    split_ifs <;> omega
  have hne : index % l2Size ^ level ≠ 0 := fun h => by
    rw [blockEnd_eq h] at hstop
    exact hpart ⟨h, by omega⟩
  rw [min_eq_right hstop]
  simp only [levelCost, loopCost, if_neg hlt.not_ge, hstop, or_true, if_true, halign, if_neg hne]
  split_ifs <;> omega

def Dispatch.addNode (d : Dispatch ρ) (e : PhysPageEntry) : Dispatch ρ :=
  { d with nodesNb := d.nodesNb + 1, nodes := update d.nodes d.nodesNb fun _ => e }

theorem physMapNodeAlloc_eq (hroom : d.nodesNb < d.nodesNbAlloc) (hnil : d.nodesNb < nodeNil)
    (leaf : Bool) : physMapNodeAlloc d leaf =
      some (d.addNode (if leaf then ⟨0, sectionUnassigned⟩ else ⟨1, nodeNil⟩), d.nodesNb) := by
  simp [physMapNodeAlloc, hroom.ne, hnil.ne, addNode]

theorem addNode_read (hout : lp.Outside d.nodesNb lab h q) (e : PhysPageEntry) :
    (d.addNode e).read lp = d.read lp := by
  cases lp with
  | root => rfl
  | slot n j =>
    show update d.nodes d.nodesNb (fun _ => e) n j = d.nodes n j
    rw [update_of_ne hout.1.ne]

/-- A new node below the entry `lp` changes nothing but that entry. -/
theorem below_addNode (e₀ e : PhysPageEntry) (l : Nat × Nat) :
    Below h q (d.write lp e) ((d.addNode e₀).write lp e) lab (update lab d.nodesNb l) where
  sections := by simp [addNode]
  subpages := by simp [addNode]
  alloc := by simp [addNode]
  nb_le := by simp [addNode]
  labels n hn := update_of_ne (by simpa using hn.ne) ..
  same lp' hlp' := by
    rw [write_nodesNb] at hlp'
    rcases eq_or_ne lp' lp with rfl | hne
    · rw [read_write, read_write]
    · rw [write_read_of_ne _ _ hne, write_read_of_ne _ _ hne, addNode_read hlp']

/-- The entries of a new node map no page. -/
theorem shape_fresh {nodes : Nat → Nat → PhysPageEntry}
    (hm : ∀ x, x / l2Size ^ level = q → m x = sectionUnassigned) : Shape nodes nb lab m level q
      (if (level == 0) = true then ⟨0, sectionUnassigned⟩ else ⟨1, nodeNil⟩) := by
  cases level with
  | zero => exact ⟨rfl, (hm q (by simp)).symm⟩
  | succ level => exact .inr (.inl ⟨rfl, rfl, hm⟩)

/-- The node that `phys_page_set_level` works in: that of the entry, or a new one. -/
theorem openNode_spec (hs : d.Shape lab m (level + 1) q (d.read lp))
    (hout : lp.Outside d.nodesNb lab (level + 1) q) (hq : index / l2Size ^ (level + 1) = q)
    (hfree : m index = sectionUnassigned) (hroom : d.nodesNb < d.nodesNbAlloc)
    (hnil : d.nodesNb < nodeNil) :
    ∃ d₁ lab₁ e, (if (d.read lp).skip ≠ 0 ∧ (d.read lp).ptr = nodeNil then
        (physMapNodeAlloc d (level == 0)).map fun (d', n) => d'.write lp { d.read lp with ptr := n }
      else some d) = some d₁ ∧ Below (level + 1) q (d.write lp e) d₁ lab lab₁ ∧
      d₁.read lp = e ∧ e.skip = 1 ∧ e.ptr ≠ nodeNil ∧ e.ptr < d₁.nodesNb ∧
      lab₁ e.ptr = (level + 1, q) ∧ d₁.nodesNb ≤ d.nodesNb + 1 ∧
      ∀ j < l2Size, d₁.Shape lab₁ m level (l2Size * q + j) (d₁.nodes e.ptr j) := by
  rcases hs with ⟨h₁, h₂, h₃⟩ | ⟨h₁, h₂, h₃⟩ | ⟨h₁, h₂, h₃, h₄, h₅⟩
  · exact absurd ((h₃ index hq).symm.trans hfree) h₂
  · have hread (j : Nat) (e₀ e : PhysPageEntry) :
        ((d.addNode e₀).write lp e).nodes d.nodesNb j = e₀ := by
      have hne : Lp.slot d.nodesNb j ≠ lp := by
        rintro rfl
        exact absurd hout.1 (lt_irrefl _)
      have hslot := write_read_of_ne (d.addNode e₀) e hne
      simpa [Dispatch.read, addNode] using hslot
    refine ⟨(d.addNode (if (level == 0) = true then ⟨0, sectionUnassigned⟩ else
      ⟨1, nodeNil⟩)).write lp ⟨(d.read lp).skip, d.nodesNb⟩,
      update lab d.nodesNb (level + 1, q), ⟨(d.read lp).skip, d.nodesNb⟩,
      ?_, below_addNode _ _ _, read_write .., h₁, hnil.ne, ?_, update_self .., ?_, ?_⟩
    · rw [if_pos ⟨by omega, h₂⟩, physMapNodeAlloc_eq hroom hnil, map_some]
    · simp [addNode]
    · simp [addNode]
    · intro j hj
      rw [hread]
      exact shape_fresh fun x hx => h₃ x (div_pow_of_child hj hx)
  · refine ⟨d, lab, d.read lp, if_neg fun h => h₂ h.2, ?_, rfl, h₁, h₂, h₃, h₄, by omega, h₅⟩
    rw [write_read_self]
    exact Below.refl ..

/-! ## Setting pages -/

/-- What `phys_page_set_level` is called with: the entry `lp` of height `h` stands for the block of
page `index`, the pages to set are free, and there is room for the nodes. -/
structure SetPre (d : Dispatch ρ) (lab : Nat → Nat × Nat) (m : Nat → Nat) (h : Nat) (lp : Lp)
    (index nb : Nat) : Prop where
  shape : d.Shape lab m h (index / l2Size ^ h) (d.read lp)
  outside : lp.Outside d.nodesNb lab h (index / l2Size ^ h)
  pos : 0 < nb
  free : ∀ x, index ≤ x → x < index + nb → x < blockEnd h index → m x = sectionUnassigned
  room : d.nodesNb + levelCost h index (index + nb) ≤ min d.nodesNbAlloc nodeNil

/-- What it returns: the pages up to the end of the block are set, with `cost` new nodes at most. -/
structure SetPost (d : Dispatch ρ) (lab : Nat → Nat × Nat) (m : Nat → Nat) (leaf h : Nat) (lp : Lp)
    (index nb cost : Nat) (d' : Dispatch ρ) (index' nb' : Nat) : Prop where
  index_eq : index' = min (index + nb) (blockEnd h index)
  nb_eq : index' + nb' = index + nb
  nodes : d'.nodesNb ≤ d.nodesNb + cost
  tree : ∃ lab' e', Below h (index / l2Size ^ h) (d.write lp e') d' lab lab' ∧
    d'.Shape lab' (fill m index index' leaf) h (index / l2Size ^ h) e'

/-- `set` sets pages below an entry of height `h`. -/
def SetSpec (leaf h : Nat)
    (set : Dispatch ρ → Lp → Nat → Nat → Option (Dispatch ρ × Nat × Nat)) : Prop :=
  ∀ d lab m lp index nb, SetPre d lab m h lp index nb → ∃ d' index' nb',
    set d lp index nb = some (d', index', nb') ∧
      SetPost d lab m leaf h lp index nb (levelCost h index (index + nb)) d' index' nb'

/-- The loop of `phys_page_set_level` before slot `j` of node `n`. -/
structure LoopPre (d : Dispatch ρ) (lab : Nat → Nat × Nat) (m : Nat → Nat) (level q n j : Nat)
    (index nb : Nat) : Prop where
  node : n < d.nodesNb
  label : lab n = (level + 1, q)
  shapes : ∀ i < l2Size, d.Shape lab m level (l2Size * q + i) (d.nodes n i)
  slot : 0 < nb → index / l2Size ^ level = l2Size * q + j
  le_end : index ≤ nodeEnd level q
  free : ∀ x, index ≤ x → x < index + nb → x < nodeEnd level q → m x = sectionUnassigned
  room : d.nodesNb + loopCost level index (index + nb) (nodeEnd level q) ≤
    min d.nodesNbAlloc nodeNil

structure LoopPost (d : Dispatch ρ) (lab : Nat → Nat × Nat) (m : Nat → Nat) (leaf level q n : Nat)
    (index nb : Nat) (d' : Dispatch ρ) (index' nb' : Nat) : Prop where
  index_eq : index' = min (index + nb) (nodeEnd level q)
  nb_eq : index' + nb' = index + nb
  nodes : d'.nodesNb ≤ d.nodesNb + loopCost level index (index + nb) (nodeEnd level q)
  tree : ∃ lab', Below (level + 1) q d d' lab lab' ∧ ∀ i < l2Size,
    d'.Shape lab' (fill m index index' leaf) level (l2Size * q + i) (d'.nodes n i)

theorem setWhole_post (hleaf : leaf ≠ sectionUnassigned) (halign : index % l2Size ^ level = 0)
    (hfit : l2Size ^ level ≤ nb) :
    SetPost d lab m leaf level lp index nb 0 (d.write lp ⟨0, leaf⟩) (index + l2Size ^ level)
      (nb - l2Size ^ level) := by
  have hend := blockEnd_eq halign
  refine ⟨by omega, by omega, by simp, lab, ⟨0, leaf⟩, Below.refl .., ?_⟩
  have hmem (x : Nat) (hx : x / l2Size ^ level = index / l2Size ^ level) :
      fill m index (index + l2Size ^ level) leaf x = leaf := by
    rw [div_pow_eq_iff (by decide), Nat.div_mul_cancel (dvd_of_mod_eq_zero halign)] at hx
    exact fill_of_mem hx.1 hx.2
  cases level with
  | zero => exact ⟨rfl, (hmem _ (by simp)).symm⟩
  | succ level => exact .inl ⟨rfl, hleaf, hmem⟩

/-- After a slot is set, the loop goes on with the next one. -/
theorem LoopPre.next {cost index' nb' : Nat} (hpre : LoopPre d lab m level q n j index nb)
    (hj : j < l2Size) (hnb : 0 < nb)
    (hpost : SetPost d lab m leaf level (.slot n j) index nb cost d' index' nb')
    (hcost : cost + loopCost level index' (index + nb) (nodeEnd level q) ≤
      loopCost level index (index + nb) (nodeEnd level q)) :
    ∃ lab', Below (level + 1) q d d' lab lab' ∧
      LoopPre d' lab' (fill m index index' leaf) level q n (j + 1) index' nb' := by
  have hslot := hpre.slot hnb
  have hend := blockEnd_le hj hslot
  obtain ⟨hindex, hsum, hnodes, lab', e', hbelow, hshape⟩ := hpost
  rw [hslot] at hbelow hshape
  have hchange := hbelow.slotChange hj hpre.node hpre.label
  have hshapes (i : Nat) (hi : i < l2Size) :
      d'.Shape lab' (fill m index index' leaf) level (l2Size * q + i) (d'.nodes n i) := by
    rcases eq_or_ne i j with rfl | hne
    · rw [hchange.self]
      exact hshape
    rw [hchange.other i hne]
    refine (hpre.shapes i hi).frame hchange.below.nb_le hchange.below.labels (hchange.nodes i hne)
      fun x hx => fill_of_notMem fun hmem => hne ?_
    have hx' := div_eq_of_lt_blockEnd hmem.1 (hmem.2.trans_le (hindex.trans_le (min_le_right ..)))
    omega
  refine ⟨lab', hchange.below, hchange.node, hchange.label, hshapes, ?_, ?_, ?_, ?_⟩
  · intro hnb'
    rw [show index' = blockEnd level index by omega, blockEnd, hslot,
      Nat.mul_div_cancel _ (Nat.pow_pos (by decide))]
    rfl
  · omega
  · intro x h₁ h₂ h₃
    rw [fill_of_notMem (by omega)]
    exact hpre.free x (by have := lt_blockEnd level index; omega) (by omega) h₃
  · have := hpre.room
    rw [hsum, hbelow.alloc, write_nodesNbAlloc]
    omega

/-- The loop stops when no pages or no slots are left. -/
theorem LoopPre.done (hpre : LoopPre d lab m level q n j index nb) (hdone : nb = 0 ∨ j = l2Size) :
    LoopPost d lab m leaf level q n index nb d index nb := by
  refine ⟨?_, rfl, by omega, lab, Below.refl .., ?_⟩
  · have hle := hpre.le_end
    rcases Nat.eq_zero_or_pos nb with rfl | hnb
    · omega
    have hj : j = l2Size := hdone.resolve_left hnb.ne'
    have hge : nodeEnd level q ≤ index := by
      have hdiv := (div_pow_eq_iff (by decide)).1 (hpre.slot hnb)
      rw [hj, ← mul_succ, mul_comm l2Size, mul_assoc, ← pow_succ'] at hdiv
      exact hdiv.1
    omega
  · rw [fill_empty (le_refl _)]
    exact hpre.shapes

theorem LoopPost.cons {d d₁ d' : Dispatch ρ} {lab lab₁ : Nat → Nat × Nat} {m : Nat → Nat}
    {leaf level q n index nb cost index₁ nb₁ index' nb' : Nat} {lp : Lp}
    (hslot : SetPost d lab m leaf level lp index nb cost d₁ index₁ nb₁)
    (hcost : cost + loopCost level index₁ (index + nb) (nodeEnd level q) ≤
      loopCost level index (index + nb) (nodeEnd level q))
    (hle : index₁ ≤ nodeEnd level q) (hbelow : Below (level + 1) q d d₁ lab lab₁)
    (hrest : LoopPost d₁ lab₁ (fill m index index₁ leaf) leaf level q n index₁ nb₁ d' index' nb') :
    LoopPost d lab m leaf level q n index nb d' index' nb' := by
  obtain ⟨hindex, hsum, hnodes, lab', hbelow', hshapes⟩ := hrest
  have hfirst := hslot.index_eq
  have hlt := lt_blockEnd level index
  rw [hslot.nb_eq] at hindex hsum hnodes
  refine ⟨hindex, hsum, ?_, lab', hbelow.trans hbelow', ?_⟩
  · have := hslot.nodes
    omega
  · rw [fill_fill (by omega) (by omega)] at hshapes
    exact hshapes

variable {setLower : Dispatch ρ → Lp → Nat → Nat → Option (Dispatch ρ × Nat × Nat)}

section

variable (hleaf : leaf ≠ sectionUnassigned)
include hleaf

/-- The loop of `phys_page_set_level`, by induction on the slots left. -/
theorem setLoop_spec (hlower : 0 < level → SetSpec leaf level setLower) {k : Nat}
    (hk : j + k = l2Size) (hpre : LoopPre d lab m level q n j index nb) :
    ∃ d' index' nb', setLoop leaf n (l2Size ^ level) setLower k d j index nb =
        some (d', index', nb') ∧ LoopPost d lab m leaf level q n index nb d' index' nb' := by
  induction k generalizing d lab m j index nb with
  | zero => exact ⟨d, index, nb, rfl, hpre.done (.inr hk)⟩
  | succ k ih =>
    rcases Nat.eq_zero_or_pos nb with rfl | hnb
    · exact ⟨d, index, 0, by simp [setLoop], hpre.done (.inl rfl)⟩
    have hj : j < l2Size := by omega
    have hslot := hpre.slot hnb
    have hend := blockEnd_le hj hslot
    -- whatever sets the slot, the rest of the loop is the induction hypothesis
    have hrest {d₁ index₁ nb₁ cost} (hpost : SetPost d lab m leaf level (.slot n j) index nb cost
        d₁ index₁ nb₁) (hcost : cost + loopCost level index₁ (index + nb) (nodeEnd level q) ≤
        loopCost level index (index + nb) (nodeEnd level q)) :
        ∃ d' index' nb', setLoop leaf n (l2Size ^ level) setLower k d₁ (j + 1) index₁ nb₁ =
          some (d', index', nb') ∧ LoopPost d lab m leaf level q n index nb d' index' nb' := by
      obtain ⟨lab₁, hbelow, hpre₁⟩ := hpre.next hj hnb hpost hcost
      obtain ⟨d', index', nb', hrun, hpost'⟩ := ih (by omega) hpre₁
      exact ⟨d', index', nb', hrun, .cons hpost hcost hpre₁.le_end hbelow hpost'⟩
    rw [setLoop, if_neg hnb.ne']
    by_cases hwhole : index % l2Size ^ level = 0 ∧ l2Size ^ level ≤ nb
    · rw [if_pos hwhole]
      refine hrest (setWhole_post hleaf hwhole.1 hwhole.2) ?_
      rw [zero_add]
      exact loopCost_whole hwhole.1 (by omega)
    have hlevel : 0 < level := pos_of_ne_zero fun h => hwhole (by simp [h, mod_one]; omega)
    have hpart : ¬ (index % l2Size ^ level = 0 ∧ l2Size ^ level ≤ index + nb - index) := by
      rwa [Nat.add_sub_cancel_left]
    have hcost := loopCost_part hend (by omega) hpart
    obtain ⟨d₁, index₁, nb₁, hrun₁, hpost⟩ := hlower hlevel d lab m (.slot n j) index nb
      { shape := by rw [hslot]; exact hpre.shapes j hj
        outside := ⟨hpre.node, by rw [hpre.label]; exact not_under_succ _ _ _ _⟩
        pos := hnb
        free := fun x h₁ h₂ h₃ => hpre.free x h₁ h₂ (h₃.trans_le hend)
        room := by have := hpre.room; omega }
    rw [if_neg hwhole, hrun₁]
    exact hrest hpost (by rw [hpost.index_eq]; exact hcost)

/-- The body of `phys_page_set_level`: open the node of the entry, then set its slots. -/
theorem setBody_spec (hlower : 0 < level → SetSpec leaf level setLower) :
    SetSpec leaf (level + 1) (setBody leaf level setLower) := by
  intro d lab m lp index nb hpre
  have hcost := @loopCost_le_levelCost _ level index (index + nb) rfl
  have hlt := lt_blockEnd (level + 1) index
  have hnb := hpre.pos
  have hroom := hpre.room
  obtain ⟨d₁, lab₁, e, hopen, hbelow, hread, hskip, hptr, hlt₁, hlab, hnodes, hshapes⟩ :=
    openNode_spec hpre.shape hpre.outside rfl (hpre.free index (le_refl _) (by omega) hlt)
      (by omega) (by omega)
  have halloc : d₁.nodesNbAlloc = d.nodesNbAlloc := by rw [hbelow.alloc, write_nodesNbAlloc]
  have hj : index / l2Size ^ level % l2Size < l2Size := mod_lt _ (by decide)
  obtain ⟨d', index', nb', hrun, hindex, hsum, hnodes', lab', hbelow', hshapes'⟩ :=
    setLoop_spec (n := e.ptr) hleaf hlower (add_sub_of_le hj.le)
      { node := hlt₁
        label := hlab
        shapes := hshapes
        slot := fun _ => div_pow_eq_child rfl
        le_end := hlt.le
        free := hpre.free
        room := by omega }
  refine ⟨d', index', nb', ?_, hindex, hsum, by omega, lab', e, hbelow.trans hbelow', ?_⟩
  · simp only [setBody, hopen, bind_eq_bind, bind_some, hread, if_pos hlt₁, hrun]
  · refine .inr (.inr ⟨hskip, hptr, hlt₁.trans_le hbelow'.nb_le, ?_, hshapes'⟩)
    rw [hbelow'.labels _ hlt₁, hlab]

/-- `phys_page_set_level` sets free pages and keeps the shape of the tree. -/
theorem physPageSetLevel_spec (level : Nat) :
    SetSpec (ρ := ρ) leaf (level + 1) (physPageSetLevel leaf level) := by
  induction level with
  | zero => exact setBody_spec hleaf fun h => absurd h (lt_irrefl 0)
  | succ level ih => exact setBody_spec hleaf fun _ => ih

end

/-! ## The whole tree -/

/-- The tree of `d`, which is not compacted, maps the pages as `m` does. -/
def Maps (p : Nat) (d : Dispatch ρ) (m : Nat → Nat) : Prop :=
  ∃ lab, d.Shape lab m (l2Levels p) 0 d.physMap

theorem findLoop_of_maps (hm : Maps p d m) (hx : x < l2Size ^ l2Levels p) :
    findLoop d x (l2Levels p + 1) (l2Levels p) d.physMap = some (m x) := by
  obtain ⟨lab, hs⟩ := hm
  exact findLoop_of_shape hs (div_eq_of_lt hx) (lt_succ_self _)

theorem maps_empty (hroot : d.physMap = ⟨1, nodeNil⟩) : Maps p d fun _ => sectionUnassigned := by
  refine ⟨fun _ => (0, 0), ?_⟩
  rw [hroot]
  exact .inr (.inl ⟨rfl, rfl, fun _ _ => rfl⟩)

theorem physMapNodeReserve_spec (d : Dispatch ρ) (nodes : Nat) : ∃ alloc,
    physMapNodeReserve d nodes = { d with nodesNbAlloc := alloc } ∧ d.nodesNb + nodes ≤ alloc := by
  unfold physMapNodeReserve
  split
  · exact ⟨_, rfl, le_max_right ..⟩
  · exact ⟨d.nodesNbAlloc, rfl, by omega⟩

/-- `phys_page_set` sets free pages of the address space.  The nodes it reserves suffice. -/
theorem physPageSet_spec (hm : Maps p d m) (hleaf : leaf ≠ sectionUnassigned) (hpos : 0 < nb)
    (hend : index + nb ≤ l2Size ^ l2Levels p)
    (hfree : ∀ x, index ≤ x → x < index + nb → m x = sectionUnassigned)
    (hnil : d.nodesNb + 3 * l2Levels p ≤ nodeNil) :
    ∃ d', physPageSet p d index nb leaf = some d' ∧ Maps p d' (fill m index (index + nb) leaf) ∧
      d'.sections = d.sections ∧ d'.subpages = d.subpages ∧
      d'.nodesNb ≤ d.nodesNb + 3 * l2Levels p := by
  obtain ⟨alloc, hreserve, hroom⟩ := physMapNodeReserve_spec d (3 * l2Levels p)
  obtain ⟨lab, hs⟩ := hm
  have hlevels : l2Levels p - 1 + 1 = l2Levels p := rfl
  have hblock : index / l2Size ^ l2Levels p = 0 := div_eq_of_lt (by omega)
  have hcost : levelCost (l2Levels p) index (index + nb) ≤ 3 * l2Levels p := by
    unfold levelCost
    split <;> omega
  have hspec := physPageSetLevel_spec hleaf (l2Levels p - 1) { d with nodesNbAlloc := alloc } lab m
    .root index nb
  rw [hlevels] at hspec
  obtain ⟨d', index', nb', hrun, hindex, -, hcost', lab', e', hbelow, hshape⟩ := hspec
    { shape := by rw [hblock]; exact hs
      outside := trivial
      pos := hpos
      free := fun x h₁ h₂ _ => hfree x h₁ h₂
      room := by dsimp only; omega }
  have hread : d'.physMap = e' := hbelow.same .root trivial
  have hindex' : index' = index + nb := by
    rw [hindex, blockEnd, hblock]
    omega
  rw [hblock, hindex', ← hread] at hshape
  refine ⟨d', ?_, ⟨lab', hshape⟩, ?_, ?_, hcost'.trans (Nat.add_le_add_left hcost _)⟩
  · simp only [physPageSet, hreserve, hrun, bind_eq_bind, bind_some, pure_def]
  · rw [hbelow.sections, write_sections]
  · rw [hbelow.subpages, write_subpages]

end QemuAndroid.Exec
