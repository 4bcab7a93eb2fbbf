import QemuAndroid.Memory.Model

/-!
# The flat view of a memory map

What an address resolves to is defined by recursion over the tree of regions
(`resolve`).  Rendering a region into a view leaves the ranges of the view alone and
fills their gaps: an address goes to the range of the view, or else to what the region
resolves it to.  The induction over the tree carries the clipped range along.
-/

namespace QemuAndroid.Memory

open List Option AddrRange Remain

variable {ρ : Type}

/-! ## What an address resolves to -/

/-- A region, the offset in it, and how it is accessed. -/
structure Resolved (ρ : Type) where
  mr : ρ
  offset : Int
  readonly : Bool
  romdMode : Bool
deriving DecidableEq, Repr

mutual

/-- What a region in a container at `base` resolves an address to. -/
def resolve (addr : Int) : MemoryRegion ρ → Int → Bool → Option (Resolved ρ)
  | .aliasOf attrs target aliasOffset, base, readonly =>
    let base := base + attrs.addr
    if attrs.enabled ∧ base ≤ addr ∧ addr < base + attrs.size then
      resolve addr target (base - target.addr - aliasOffset) (readonly || attrs.readonly)
    else none
  | .node attrs subregions, base, readonly =>
    let base := base + attrs.addr
    if attrs.enabled ∧ base ≤ addr ∧ addr < base + attrs.size then
      (resolveFirst addr subregions base (readonly || attrs.readonly)).or
        (if attrs.terminates then
          some ⟨attrs.mr, addr - base, readonly || attrs.readonly, attrs.romdMode⟩
        else none)
    else none

/-- What the first subregion that resolves the address resolves it to. -/
def resolveFirst (addr : Int) : List (MemoryRegion ρ) → Int → Bool → Option (Resolved ρ)
  | [], _, _ => none
  | mr :: subregions, base, readonly =>
    (resolve addr mr base readonly).or (resolveFirst addr subregions base readonly)

end

/-! ## Lookup in a view -/

def FlatRange.Covers (r : FlatRange ρ) (addr : Int) : Prop :=
  r.addr.start ≤ addr ∧ addr < r.addr.end
deriving Decidable

def FlatRange.resolved (r : FlatRange ρ) (addr : Int) : Resolved ρ :=
  ⟨r.mr, r.offsetInRegion + (addr - r.addr.start), r.readonly, r.romdMode⟩

def lookup (addr : Int) : List (FlatRange ρ) → Option (Resolved ρ)
  | [] => none
  | r :: view => if r.Covers addr then some (r.resolved addr) else lookup addr view

variable {addr : Int}

theorem lookup_cons_of_covers {r : FlatRange ρ} (h : r.Covers addr)
    (view : List (FlatRange ρ)) : lookup addr (r :: view) = some (r.resolved addr) := if_pos h

theorem lookup_cons_of_not_covers {r : FlatRange ρ} (h : ¬ r.Covers addr)
    (view : List (FlatRange ρ)) : lookup addr (r :: view) = lookup addr view := if_neg h

theorem lookup_eq_none {view : List (FlatRange ρ)} (h : ∀ r ∈ view, ¬ r.Covers addr) :
    lookup addr view = none := by
  induction view with
  | nil => rfl
  | cons r view ih =>
    rw [lookup_cons_of_not_covers (h r mem_cons_self)]
    exact ih fun s hs => h s (mem_cons_of_mem r hs)

/-- The ranges of a view are not empty, sorted and disjoint. -/
structure SortedView (view : List (FlatRange ρ)) : Prop where
  size_pos : ∀ r ∈ view, 0 < r.addr.size
  sorted : view.Pairwise fun r s => r.addr.end ≤ s.addr.start

namespace SortedView

variable {r : FlatRange ρ} {view : List (FlatRange ρ)}

theorem nil : SortedView ([] : List (FlatRange ρ)) := ⟨by simp, .nil⟩

section

variable (h : SortedView (r :: view))
include h

theorem head_pos : 0 < r.addr.size := h.size_pos r mem_cons_self

theorem tail : SortedView view :=
  ⟨fun s hs => h.size_pos s (mem_cons_of_mem r hs), h.sorted.of_cons⟩

theorem le_start {s : FlatRange ρ} (hs : s ∈ view) :
    r.addr.end ≤ s.addr.start := rel_of_pairwise_cons h.sorted hs

end

theorem cons (h : SortedView view) (hpos : 0 < r.addr.size)
    (hle : ∀ s ∈ view, r.addr.end ≤ s.addr.start) : SortedView (r :: view) :=
  ⟨forall_mem_cons.2 ⟨hpos, h.size_pos⟩, pairwise_cons.2 ⟨hle, h.sorted⟩⟩

theorem start_le (h : SortedView (r :: view)) : ∀ s ∈ r :: view, r.addr.start ≤ s.addr.start := by
  refine forall_mem_cons.2 ⟨le_refl _, fun s hs => ?_⟩
  have hpos := h.head_pos
  have hle := h.le_start hs
  unfold AddrRange.end at hle
  omega

/-- An address before the first range. -/
theorem lookup_of_lt (h : SortedView (r :: view)) (haddr : addr < r.addr.start) :
    lookup addr (r :: view) = none :=
  lookup_eq_none fun s hs hc => absurd (le_trans (h.start_le s hs) hc.1) (not_le.2 haddr)

end SortedView

/-! ## Filling the gaps -/

/-- What is left of a region that starts at `base` and ends at `top`: while there is something
left, `offset_in_region` is the offset of the address that has been reached. -/
structure Remain.Ok (c : Remain) (base top : Int) : Prop where
  le : base ≤ c.base
  remain_eq : c.base + c.remain = top
  nonneg : 0 ≤ c.remain
  offset : c.remain ≠ 0 → (c.offsetInRegion : Int) = c.base - base
  small : top - base ≤ 2 ^ 64

theorem int128Get64_eq_some {a : Int} {n : Nat} (h : int128Get64 a = some n) :
    0 ≤ a ∧ a < 2 ^ 64 ∧ (n : Int) = a := by
  unfold int128Get64 at h
  split at h
  · next ha =>
    obtain rfl := some.inj h
    exact ⟨ha.1, ha.2, Int.toNat_of_nonneg ha.1⟩
  · exact absurd h (by simp)

theorem Remain.advance_spec {c c' : Remain} {base top now : Int} (hc : c.Ok base top)
    (hnow : now ≤ c.remain) (h : c.advance now = some c') :
    c'.Ok base top ∧ c'.base = c.base + now ∧ 0 ≤ now := by
  obtain ⟨n, hn, h⟩ := bind_eq_some_iff.1 h
  obtain rfl := some.inj h
  obtain ⟨hnonneg, -, hcast⟩ := int128Get64_eq_some hn
  obtain ⟨hle, hremain, hpos, hoffset, hsmall⟩ := hc
  refine ⟨⟨?_, ?_, ?_, fun hne => ?_, hsmall⟩, rfl, hnonneg⟩
  · simp only
    omega
  · simp only
    omega
  · simp only
    omega
  · simp only at hne ⊢
    omega

/-- What a region that is rendered itself resolves an address to. -/
def selfResolved (fr : FlatRange ρ) (base addr : Int) : Resolved ρ :=
  ⟨fr.mr, addr - base, fr.readonly, fr.romdMode⟩

/-- The view `view'` is `view` with the addresses from `lo` up to `hi` filled by a region at
`base`. -/
structure Filled (fr : FlatRange ρ) (base lo hi : Int) (view view' : List (FlatRange ρ)) :
    Prop where
  sorted : SortedView view'
  /-- Ranges of the view stay, and new ones are between `lo` and `hi`. -/
  mem : ∀ s ∈ view', s ∈ view ∨ lo < hi ∧ lo ≤ s.addr.start ∧ s.addr.end ≤ hi
  lookup_eq : ∀ addr, lookup addr view' = (lookup addr view).or
    (if lo ≤ addr ∧ addr < hi then some (selfResolved fr base addr) else none)

section Gaps

variable {fr r : FlatRange ρ} {view view' : List (FlatRange ρ)} {c c' : Remain} {base top now : Int}

theorem Remain.range_covers :
    (c.range fr now).Covers addr ↔ c.base ≤ addr ∧ addr < c.base + now := Iff.rfl

theorem Remain.range_resolved (hc : c.Ok base top) (hne : c.remain ≠ 0) (addr : Int) :
    (c.range fr now).resolved addr = selfResolved fr base addr := by
  simp only [FlatRange.resolved, range, selfResolved, hc.offset hne]
  congr 1
  omega

theorem Filled.refl (hview : SortedView view) {lo hi : Int} (h : hi ≤ lo) :
    Filled fr base lo hi view view := by
  refine ⟨hview, fun s hs => .inl hs, fun addr => ?_⟩
  rw [if_neg (by omega), or_none]

/-- The last range: everything that is left. -/
theorem filled_last (hc : c.Ok base top) (hne : c.remain ≠ 0) :
    Filled fr base c.base top [] [c.range fr c.remain] := by
  have hremain := hc.remain_eq
  have hnonneg := hc.nonneg
  refine ⟨SortedView.nil.cons (show 0 < c.remain by omega) (by simp), fun s hs => ?_,
    fun addr => ?_⟩
  · obtain rfl := mem_singleton.1 hs
    exact .inr ⟨by omega, le_refl _, show c.base + c.remain ≤ top by omega⟩
  · simp only [lookup, none_or, c.range_resolved hc hne, range_covers, hremain]

theorem Filled.keep (hview : SortedView (r :: view)) {lo lo' hi : Int} (hlo : lo ≤ lo')
    (hend : lo' < hi → r.addr.end ≤ lo')
    (hrest : ∀ addr, ¬ r.Covers addr → (lo' ≤ addr ∧ addr < hi ↔ lo ≤ addr ∧ addr < hi))
    (h : Filled fr base lo' hi view view') : Filled fr base lo hi (r :: view) (r :: view') := by
  constructor
  case sorted =>
    refine h.sorted.cons hview.head_pos fun s hs => ?_
    rcases h.mem s hs with hs | ⟨hlt, hs, -⟩
    · exact hview.le_start hs
    · exact le_trans (hend hlt) hs
  case mem =>
    refine forall_mem_cons.2 ⟨.inl mem_cons_self, fun s hs => ?_⟩
    exact (h.mem s hs).imp (mem_cons_of_mem r) fun ⟨h₁, h₂, h₃⟩ => ⟨by omega, by omega, h₃⟩
  case lookup_eq =>
    intro addr
    by_cases hr : r.Covers addr
    · rw [lookup_cons_of_covers hr, lookup_cons_of_covers hr, some_or]
    · rw [lookup_cons_of_not_covers hr, lookup_cons_of_not_covers hr, h.lookup_eq addr]
      simp only [hrest addr hr]

/-- The gap before a range of the view is filled first. -/
theorem Filled.gap (hview : SortedView (r :: view)) (hc : c.Ok base top) (hne : c.remain ≠ 0)
    (hnow : now = min c.remain (r.addr.start - c.base)) (hpos : 0 < now)
    (h : Filled fr base (c.base + now) top (r :: view) (r :: view')) :
    Filled fr base c.base top (r :: view) (c.range fr now :: r :: view') := by
  have hremain := hc.remain_eq
  constructor
  case sorted =>
    have hle : c.base + now ≤ r.addr.start := by omega
    exact h.sorted.cons hpos fun s hs => le_trans hle (h.sorted.start_le s hs)
  case mem =>
    refine forall_mem_cons.2
      ⟨.inr ⟨by omega, le_refl _, show c.base + now ≤ top by omega⟩, fun s hs => ?_⟩
    exact (h.mem s hs).imp_right fun ⟨h₁, h₂, h₃⟩ => ⟨by omega, by omega, h₃⟩
  case lookup_eq =>
    intro addr
    by_cases hgap : (c.range fr now).Covers addr
    · rw [lookup_cons_of_covers hgap, c.range_resolved hc hne]
      rw [range_covers] at hgap
      rw [hview.lookup_of_lt (by omega), none_or, if_pos (by omega)]
    rw [lookup_cons_of_not_covers hgap, h.lookup_eq addr]
    rw [range_covers] at hgap
    have hiff : (c.base + now ≤ addr ∧ addr < top) ↔ c.base ≤ addr ∧ addr < top := by omega
    simp only [hiff]

/-- The loop of `render_memory_region` over the ranges of the view. -/
theorem renderGaps_spec (hview : SortedView view) (hc : c.Ok base top)
    (h : renderGaps fr view c = some view') : Filled fr base c.base top view view' := by
  induction view generalizing c view' with
  | nil =>
    obtain rfl := some.inj h
    have hremain := hc.remain_eq
    by_cases hne : c.remain = 0
    · rw [if_pos hne]
      exact .refl hview (by omega)
    · rw [if_neg hne]
      exact filled_last hc hne
  | cons r view ih =>
    have hremain := hc.remain_eq
    have hnonneg := hc.nonneg
    rw [renderGaps] at h
    by_cases hne : c.remain = 0
    · rw [if_pos hne] at h
      obtain rfl := some.inj h
      exact .refl hview (by omega)
    rw [if_neg hne] at h
    by_cases hskip : r.addr.end ≤ c.base
    · rw [if_pos hskip] at h
      obtain ⟨view'', hrest, h⟩ := bind_eq_some_iff.1 h
      obtain rfl := some.inj h
      exact (ih hview.tail hc hrest).keep hview (le_refl _) (fun _ => hskip) fun _ _ => Iff.rfl
    rw [if_neg hskip] at h
    -- the part under the range, from the end of the gap on
    have hunder {c₁ c₂ : Remain} {view'' : List (FlatRange ρ)} (hc₁ : c₁.Ok base top)
        (hstart : c₁.base < top → r.addr.start ≤ c₁.base) (hend : c₁.base ≤ r.addr.end)
        (hadv : c₁.advance (min (c₁.base + c₁.remain) r.addr.end - c₁.base) = some c₂)
        (hrest : renderGaps fr view c₂ = some view'') :
        Filled fr base c₁.base top (r :: view) (r :: view'') := by
      have htop := hc₁.remain_eq
      have hleft := hc₁.nonneg
      obtain ⟨hc₂, hbase, -⟩ := advance_spec hc₁ (by omega) hadv
      refine (ih hview.tail hc₂ hrest).keep hview (by omega) (by omega) fun addr hr => ?_
      unfold FlatRange.Covers at hr
      omega
    obtain ⟨⟨gap, c₁⟩, hgap, h⟩ := bind_eq_some_iff.1 h
    obtain ⟨c₂, hadv, h⟩ := bind_eq_some_iff.1 h
    obtain ⟨view'', hrest, h⟩ := bind_eq_some_iff.1 h
    obtain rfl := some.inj h
    unfold Remain.gap at hgap
    split at hgap
    · next hlt =>
      obtain ⟨c₁', hadv₁, hgap⟩ := bind_eq_some_iff.1 hgap
      obtain ⟨rfl, rfl⟩ := Prod.mk.inj (some.inj hgap)
      obtain ⟨hc₁, hbase₁, -⟩ := advance_spec hc (by omega) hadv₁
      have hpos := hview.head_pos
      have hend : r.addr.end = r.addr.start + r.addr.size := rfl
      refine Filled.gap hview hc hne rfl (by omega) ?_
      rw [← hbase₁]
      exact hunder hc₁ (by omega) (by omega) hadv hrest
    · next hge =>
      obtain ⟨rfl, rfl⟩ := Prod.mk.inj (some.inj hgap)
      exact hunder hc (by omega) (by omega) hadv hrest

end Gaps

/-! ## Rendering a tree -/

namespace AddrRange

variable {r clip : AddrRange}

theorem disjoint_of_not_intersects (h : r.intersects clip = false) (addr : Int) :
    ¬ ((r.start ≤ addr ∧ addr < r.end) ∧ clip.start ≤ addr ∧ addr < clip.end) := by
  simp only [intersects, contains, Bool.or_eq_false_iff, decide_eq_false_iff_not] at h
  omega

theorem intersection_spec (hr : 0 ≤ r.size) (hclip : 0 ≤ clip.size) (h : r.intersects clip = true) :
    0 ≤ (r.intersection clip).size ∧ r.start ≤ (r.intersection clip).start ∧
      (r.intersection clip).end ≤ r.end ∧ clip.start ≤ (r.intersection clip).start ∧
      (r.intersection clip).end ≤ clip.end ∧
      ∀ addr, (r.intersection clip).start ≤ addr ∧ addr < (r.intersection clip).end ↔
        (r.start ≤ addr ∧ addr < r.end) ∧ clip.start ≤ addr ∧ addr < clip.end := by
  simp only [intersects, contains, Bool.or_eq_true, decide_eq_true_eq] at h
  simp only [intersection, «end»] at h ⊢
  refine ⟨by omega, by omega, by omega, by omega, by omega, fun addr => by omega⟩

end AddrRange

/-- The view `view'` is `view` with gaps in `clip` filled by what `res` resolves addresses to. -/
structure Rendered (clip : AddrRange) (res : Int → Option (Resolved ρ))
    (view view' : List (FlatRange ρ)) : Prop where
  sorted : SortedView view'
  mem : ∀ s ∈ view', s ∈ view ∨ clip.start ≤ s.addr.start ∧ s.addr.end ≤ clip.end
  lookup_eq : ∀ addr, lookup addr view' = (lookup addr view).or
    (if clip.start ≤ addr ∧ addr < clip.end then res addr else none)

namespace Rendered

variable {clip clip' r : AddrRange} {res res' : Int → Option (Resolved ρ)}
  {view view' view'' : List (FlatRange ρ)}

theorem refl (hview : SortedView view)
    (hres : ∀ addr, clip.start ≤ addr ∧ addr < clip.end → res addr = none) :
    Rendered clip res view view := by
  refine ⟨hview, fun s hs => .inl hs, fun addr => ?_⟩
  split
  · next h => rw [hres addr h, or_none]
  · rw [or_none]

theorem trans (h : Rendered clip res view view') (h' : Rendered clip res' view' view'') :
    Rendered clip (fun addr => (res addr).or (res' addr)) view view'' := by
  refine ⟨h'.sorted, fun s hs => ?_, fun addr => ?_⟩
  · rcases h'.mem s hs with hs | hs
    · exact h.mem s hs
    · exact .inr hs
  rw [h'.lookup_eq, h.lookup_eq, Option.or_assoc]
  split
  · rfl
  · rfl

/-- A region with range `r` that is shown. -/
theorem inside {enabled : Bool} (h : Rendered (r.intersection clip) res view view')
    (hr : 0 ≤ r.size) (hclip : 0 ≤ clip.size) (hshown : enabled = true ∧ r.intersects clip = true)
    (hres : ∀ addr, res' addr =
      if enabled = true ∧ r.start ≤ addr ∧ addr < r.end then res addr else none) :
    Rendered clip res' view view' := by
  obtain ⟨-, -, -, hstart, hend, hiff⟩ := intersection_spec hr hclip hshown.2
  refine ⟨h.sorted, fun s hs => ?_, fun addr => ?_⟩
  · refine (h.mem s hs).imp_right fun ⟨h₁, h₂⟩ => ⟨le_trans hstart h₁, le_trans h₂ hend⟩
  rw [h.lookup_eq, hres addr]
  simp only [hiff, hshown.1, true_and]
  by_cases h₁ : r.start ≤ addr ∧ addr < r.end
  · simp only [h₁, and_self, true_and, if_true]
  · simp only [h₁, false_and, if_false, ite_self]

/-- A region that is disabled or outside of the range to render. -/
theorem outside {enabled : Bool} (hview : SortedView view)
    (hhidden : ¬ (enabled = true ∧ r.intersects clip = true)) (hres : ∀ addr, res' addr =
      if enabled = true ∧ r.start ≤ addr ∧ addr < r.end then res addr else none) :
    Rendered clip res' view view := by
  refine .refl hview fun addr haddr => ?_
  rw [hres, if_neg]
  rintro ⟨henabled, hin⟩
  have hint : r.intersects clip = false := Bool.eq_false_iff.2 fun h => hhidden ⟨henabled, h⟩
  exact disjoint_of_not_intersects hint addr ⟨hin, haddr⟩

end Rendered

/-- A region that terminates fills the gaps that its subregions leave. -/
theorem rendered_self {fr : FlatRange ρ} {base : Int} {clip : AddrRange} {offset : Nat}
    {view view' : List (FlatRange ρ)} (hview : SortedView view) (hclip : 0 ≤ clip.size)
    (hbase : base ≤ clip.start) (hsmall : clip.end - base ≤ 2 ^ 64)
    (hoffset : int128Get64 (clip.start - base) = some offset)
    (h : renderGaps fr view ⟨clip.start, offset, clip.size⟩ = some view') :
    Rendered clip (fun addr => some (selfResolved fr base addr)) view view' := by
  obtain ⟨-, -, hcast⟩ := int128Get64_eq_some hoffset
  have hc : Remain.Ok ⟨clip.start, offset, clip.size⟩ base clip.end :=
    ⟨hbase, rfl, hclip, fun _ => hcast, hsmall⟩
  have hfilled := renderGaps_spec hview hc h
  exact ⟨hfilled.sorted, fun s hs => (hfilled.mem s hs).imp_right And.right, hfilled.lookup_eq⟩

mutual

/-- Rendering a region fills the gaps of the view by what the region resolves addresses to. -/
theorem renderMemoryRegion_spec {view view' : List (FlatRange ρ)} (mr : MemoryRegion ρ) {base : Int}
    {clip : AddrRange} {readonly : Bool} (hview : SortedView view) (hclip : 0 ≤ clip.size)
    (h : renderMemoryRegion view mr base clip readonly = some view') :
    Rendered clip (fun addr => resolve addr mr base readonly) view view' := by
  match mr with
  | .aliasOf attrs target aliasOffset =>
    rw [renderMemoryRegion] at h
    have hnonneg := Int.natCast_nonneg attrs.size
    split at h
    · next hshown =>
      obtain ⟨hsize, -⟩ := intersection_spec hnonneg hclip hshown.2
      have hr := renderMemoryRegion_spec target hview hsize h
      exact hr.inside hnonneg hclip hshown fun addr => rfl
    · next hhidden =>
      obtain rfl := some.inj h
      exact .outside hview hhidden fun addr => rfl
  | .node attrs subregions =>
    rw [renderMemoryRegion] at h
    simp only [resolve]
    have hnonneg := Int.natCast_nonneg attrs.size
    split at h
    · next hshown =>
      obtain ⟨hsize, hstart, hend, -⟩ := intersection_spec hnonneg hclip hshown.2
      obtain ⟨view₁, h₁, h⟩ := bind_eq_some_iff.1 h
      have hr₁ := renderSubregions_spec subregions hview hsize h₁
      split at h
      · next hterm =>
        obtain ⟨offset, hoffset, h⟩ := bind_eq_some_iff.1 h
        have hsmall : (base + attrs.addr + attrs.size) - (base + attrs.addr) ≤ 2 ^ 64 := by
          have hle := attrs.size_le
          omega
        have hr₂ := rendered_self hr₁.sorted hsize hstart
          (le_trans (sub_le_sub_right hend _) hsmall) hoffset h
        refine (hr₁.trans hr₂).inside hnonneg hclip hshown fun addr => ?_
        rw [if_pos hterm]
        rfl
      · next hterm =>
        obtain rfl := some.inj h
        refine hr₁.inside hnonneg hclip hshown fun addr => ?_
        rw [if_neg hterm, or_none]
        rfl
    · next hhidden =>
      obtain rfl := some.inj h
      exact .outside hview hhidden fun addr => rfl

theorem renderSubregions_spec {view view' : List (FlatRange ρ)} (mrs : List (MemoryRegion ρ))
    {base : Int} {clip : AddrRange} {readonly : Bool} (hview : SortedView view)
    (hclip : 0 ≤ clip.size) (h : renderSubregions view mrs base clip readonly = some view') :
    Rendered clip (fun addr => resolveFirst addr mrs base readonly) view view' := by
  match mrs with
  | [] =>
    obtain rfl := some.inj h
    exact .refl hview fun addr _ => by rw [resolveFirst]
  | mr :: mrs =>
    obtain ⟨view₁, h₁, h₂⟩ := bind_eq_some_iff.1 h
    have hr₁ := renderMemoryRegion_spec mr hview hclip h₁
    have hr₂ := renderSubregions_spec mrs hr₁.sorted hclip h₂
    exact hr₁.trans hr₂

end

/-! ## Merging -/

/-- The ranges agree except in where they end. -/
structure SameStart (r s : FlatRange ρ) : Prop where
  mr : r.mr = s.mr
  offset : r.offsetInRegion = s.offsetInRegion
  start : r.addr.start = s.addr.start
  dirtyLogMask : r.dirtyLogMask = s.dirtyLogMask
  romdMode : r.romdMode = s.romdMode
  readonly : r.readonly = s.readonly

/-- The range `merged` is made of ranges of which `prev` is the last. -/
structure MergedUpTo (merged prev : FlatRange ρ) : Prop where
  mr : merged.mr = prev.mr
  «end» : merged.addr.end = prev.addr.end
  offset : (merged.offsetInRegion : Int) + merged.addr.size = prev.offsetInRegion + prev.addr.size
  dirtyLogMask : merged.dirtyLogMask = prev.dirtyLogMask
  romdMode : merged.romdMode = prev.romdMode
  readonly : merged.readonly = prev.readonly

theorem MergedUpTo.refl (r : FlatRange ρ) : MergedUpTo r r := ⟨rfl, rfl, rfl, rfl, rfl, rfl⟩

section Merging

variable [DecidableEq ρ] {merged prev r s : FlatRange ρ} {view : List (FlatRange ρ)}

section

variable (h : MergedUpTo merged prev)
include h

/-- Whether a range can be merged with the next one depends on where the next one starts only. -/
theorem canMerge_congr (h' : SameStart r s) : canMerge merged r = canMerge prev s := by
  simp only [canMerge, h.mr, h.end, h.offset, h.dirtyLogMask, h.romdMode, h.readonly, h'.mr,
    h'.offset, h'.start, h'.dirtyLogMask, h'.romdMode, h'.readonly]

theorem MergedUpTo.step (hmerge : canMerge prev r = true) :
    MergedUpTo { merged with addr.size := merged.addr.size + r.addr.size } r := by
  simp only [canMerge, decide_eq_true_eq] at hmerge
  obtain ⟨hend, hmr, hoffset, hmask, hromd, hro⟩ := hmerge
  have hend' := h.end
  have hoffset' := h.offset
  unfold AddrRange.end at hend hend'
  refine ⟨h.mr.trans hmr, ?_, ?_, h.dirtyLogMask.trans hmask, h.romdMode.trans hromd,
    h.readonly.trans hro⟩
  · simp only [AddrRange.end]
    omega
  · simp only
    omega

/-- Merging two ranges changes no address. -/
theorem lookup_merge (hmerge : canMerge prev r = true) (hview : SortedView (merged :: r :: view))
    (addr : Int) :
    lookup addr ({ merged with addr.size := merged.addr.size + r.addr.size } :: view) =
      lookup addr (merged :: r :: view) := by
  simp only [canMerge, decide_eq_true_eq] at hmerge
  obtain ⟨hend, hmr, hoffset, -, hromd, hro⟩ := hmerge
  have hpos := hview.head_pos
  have hrpos := hview.tail.head_pos
  have hend' := h.end
  have hoffset' := h.offset
  unfold AddrRange.end at hend hend'
  have hcovers : FlatRange.Covers { merged with addr.size := merged.addr.size + r.addr.size } addr ↔
      merged.Covers addr ∨ r.Covers addr := by
    simp only [FlatRange.Covers, AddrRange.end]
    omega
  by_cases h₁ : merged.Covers addr
  · rw [lookup_cons_of_covers h₁, lookup_cons_of_covers (hcovers.2 (.inl h₁))]
    rfl
  rw [lookup_cons_of_not_covers h₁]
  by_cases h₂ : r.Covers addr
  · rw [lookup_cons_of_covers h₂, lookup_cons_of_covers (hcovers.2 (.inr h₂))]
    simp only [FlatRange.resolved, h.mr.trans hmr, h.romdMode.trans hromd, h.readonly.trans hro]
    congr 2
    omega
  · have hnot := fun hc => (hcovers.1 hc).elim h₁ h₂
    rw [lookup_cons_of_not_covers h₂, lookup_cons_of_not_covers hnot]

end

structure Simplified (view view' : List (FlatRange ρ)) : Prop where
  sorted : SortedView view'
  lookup_eq : ∀ addr, lookup addr view' = lookup addr view
  merged : view'.IsChain fun r s => canMerge r s = false
  within : ∀ lo hi, (∀ r ∈ view, lo ≤ r.addr.start ∧ r.addr.end ≤ hi) →
    ∀ r ∈ view', lo ≤ r.addr.start ∧ r.addr.end ≤ hi

theorem simplifyLoop_spec (h : MergedUpTo merged prev) (hview : SortedView (merged :: view)) :
    Simplified (merged :: view) (simplifyLoop merged prev view) ∧
      ∃ r view', simplifyLoop merged prev view = r :: view' ∧ SameStart r merged := by
  induction view generalizing merged prev with
  | nil =>
    exact ⟨⟨hview, fun _ => rfl, .singleton _, fun _ _ h => h⟩, merged, [], rfl,
      ⟨rfl, rfl, rfl, rfl, rfl, rfl⟩⟩
  | cons r view ih =>
    rw [simplifyLoop]
    split
    · next hmerge =>
      have hend : merged.addr.end = r.addr.start := by
        simp only [canMerge, decide_eq_true_eq] at hmerge
        exact h.end.trans hmerge.1
      have hend' : merged.addr.end + r.addr.size = r.addr.end := by
        rw [hend]
        rfl
      have hpos := hview.head_pos
      have hrpos := hview.tail.head_pos
      have hview' :
          SortedView ({ merged with addr.size := merged.addr.size + r.addr.size } :: view) := by
        refine hview.tail.tail.cons (show 0 < merged.addr.size + r.addr.size by omega)
          fun s hs => ?_
        have hle := hview.tail.le_start hs
        simp only [AddrRange.end] at hle hend' ⊢
        omega
      obtain ⟨⟨hsorted, hlookup, hchain, hwithin⟩, s, view', heq, hsame⟩ :=
        ih (h.step hmerge) hview'
      refine ⟨⟨hsorted, fun addr => ?_, hchain, fun lo hi hin => hwithin lo hi ?_⟩, s, view', heq,
        ⟨hsame.mr, hsame.offset, hsame.start, hsame.dirtyLogMask, hsame.romdMode, hsame.readonly⟩⟩
      · rw [hlookup, lookup_merge h hmerge hview]
      rw [forall_mem_cons, forall_mem_cons] at hin
      obtain ⟨h₁, h₂, hin⟩ := hin
      refine forall_mem_cons.2 ⟨?_, hin⟩
      simp only [AddrRange.end] at h₁ h₂ hend' ⊢
      omega
    · next hmerge =>
      obtain ⟨⟨hsorted, hlookup, hchain, hwithin⟩, s, view', heq, hsame⟩ := ih (.refl r) hview.tail
      have hle : ∀ t ∈ simplifyLoop r r view, merged.addr.end ≤ t.addr.start := by
        intro t ht
        rw [heq] at hsorted ht
        have hst := hsorted.start_le t ht
        rw [hsame.start] at hst
        exact le_trans (hview.le_start mem_cons_self) hst
      refine ⟨⟨hsorted.cons hview.head_pos hle, fun addr => ?_, ?_, fun lo hi hin => ?_⟩, merged, _,
        rfl, ⟨rfl, rfl, rfl, rfl, rfl, rfl⟩⟩
      · rw [lookup, hlookup]
        rfl
      · rw [heq] at hchain ⊢
        refine .cons_cons ?_ hchain
        rw [canMerge_congr h hsame]
        exact Bool.eq_false_iff.2 hmerge
      · rw [forall_mem_cons] at hin
        exact forall_mem_cons.2 ⟨hin.1, hwithin lo hi hin.2⟩

theorem flatviewSimplify_spec (hview : SortedView view) :
    Simplified view (flatviewSimplify view) := by
  cases view with
  | nil => exact ⟨hview, fun _ => rfl, .nil, fun _ _ h => h⟩
  | cons r view => exact (simplifyLoop_spec (.refl r) hview).1

end Merging

/-- The flat view of a tree of memory regions: its ranges lie in the address space, are not empty,
sorted and disjoint, and no two neighbours can be merged; and it resolves every address to what
the tree resolves it to. -/
theorem flatview_resolves [DecidableEq ρ] (mr : MemoryRegion ρ) (view : List (FlatRange ρ))
    (h : generateMemoryTopology (some mr) = some view) :
    (∀ r ∈ view, 0 ≤ r.addr.start ∧ 0 < r.addr.size ∧ r.addr.end ≤ 2 ^ 64) ∧
    (view.Pairwise fun r s => r.addr.start < s.addr.start ∧ r.addr.end ≤ s.addr.start) ∧
    (∀ addr : Int, 0 ≤ addr → addr < 2 ^ 64 → lookup addr view = resolve addr mr 0 false) ∧
    view.IsChain fun r s => canMerge r s = false := by
  obtain ⟨view₁, hrender, h⟩ := bind_eq_some_iff.1 h
  obtain rfl := some.inj h
  have hr := renderMemoryRegion_spec mr SortedView.nil (by decide) hrender
  have hs := flatviewSimplify_spec hr.sorted
  have hwithin := hs.within 0 (2 ^ 64) fun r hmem => (hr.mem r hmem).resolve_left not_mem_nil
  refine ⟨fun r hmem => ?_, ?_, fun addr h₀ h₁ => ?_, hs.merged⟩
  · exact ⟨(hwithin r hmem).1, hs.sorted.size_pos r hmem, (hwithin r hmem).2⟩
  · refine hs.sorted.sorted.imp_of_mem fun {r s} hmem _ hle => ⟨?_, hle⟩
    have hpos := hs.sorted.size_pos r hmem
    unfold AddrRange.end at hle
    omega
  · rw [hs.lookup_eq, hr.lookup_eq, if_pos ⟨h₀, h₁⟩]
    rfl

/-- A container with a device over the middle of an alias of some memory. -/
def deviceOverAlias : MemoryRegion Nat :=
  .node ⟨0, true, 0, 2 ^ 64, by decide, false, false, 0, false⟩
    [.node ⟨1, true, 0x1800, 0x100, by decide, false, false, 0, true⟩ [],
      .aliasOf ⟨2, true, 0x1000, 0x1000, by decide, true, false, 0, false⟩
        (.node ⟨3, true, 0x8000, 0x4000, by decide, false, true, 0, true⟩ []) 0x800]

theorem flatview_resolves_deviceOverAlias : ∃ view,
    generateMemoryTopology (some deviceOverAlias) = some view ∧ view.length = 3 ∧
    (∀ r ∈ view, 0 ≤ r.addr.start ∧ 0 < r.addr.size ∧ r.addr.end ≤ 2 ^ 64) ∧
    ∀ addr : Int, 0 ≤ addr → addr < 2 ^ 64 →
      lookup addr view = resolve addr deviceOverAlias 0 false := by
  have hrun : (generateMemoryTopology (some deviceOverAlias)).map length = some 3 := by
    decide +kernel
  obtain ⟨view, hview, hlength⟩ := map_eq_some_iff.1 hrun
  obtain ⟨hok, -, hlookup, -⟩ := flatview_resolves deviceOverAlias view hview
  exact ⟨view, hview, hlength, hok, hlookup⟩

end QemuAndroid.Memory
