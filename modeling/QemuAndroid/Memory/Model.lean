import Mathlib.Data.BitVec

/-!
# The memory map of `memory.c`

Memory regions form a tree: a container holds subregions, which may overlap and are
kept in order of priority; an alias shows a window of another region.  From the tree
`generate_memory_topology` computes a *flat view*, the sorted list of the ranges of
the address space with the region that each belongs to.

Addresses are 128-bit integers in the source, where no sum or difference leaves that
range; here they are integers.  Reading one as a 64-bit number is an assertion, and a
function is `none` where it fails.  `ρ` are the identities of regions, which the source
compares as pointers.  A region that several aliases refer to is repeated in the tree.
-/

namespace QemuAndroid.Memory

variable {ρ : Type}

/-! ## Address ranges -/

structure AddrRange where
  start : Int
  size : Int
deriving DecidableEq, Repr

def int128Get64 (a : Int) : Option Nat := if 0 ≤ a ∧ a < 2 ^ 64 then some a.toNat else none

namespace AddrRange

def «end» (r : AddrRange) : Int := r.start + r.size

def contains (r : AddrRange) (addr : Int) : Bool := r.start ≤ addr ∧ addr < r.end

def intersects (r₁ r₂ : AddrRange) : Bool := r₁.contains r₂.start || r₂.contains r₁.start

def intersection (r₁ r₂ : AddrRange) : AddrRange :=
  let start := max r₁.start r₂.start
  ⟨start, min r₁.end r₂.end - start⟩

end AddrRange

/-! ## Memory regions -/

/-- What a memory region is, apart from the regions it refers to. -/
structure RegionAttrs (ρ : Type) where
  mr : ρ
  enabled : Bool
  addr : Nat
  size : Nat
  size_le : size ≤ 2 ^ 64
  readonly : Bool
  romdMode : Bool
  /-- `memory_region_get_dirty_log_mask`. -/
  dirtyLogMask : UInt8
  terminates : Bool

inductive MemoryRegion (ρ : Type)
  /-- A region with `mr->alias` set. -/
  | aliasOf (attrs : RegionAttrs ρ) (target : MemoryRegion ρ) (aliasOffset : Nat)
  | node (attrs : RegionAttrs ρ) (subregions : List (MemoryRegion ρ))

def MemoryRegion.attrs : MemoryRegion ρ → RegionAttrs ρ
  | aliasOf attrs _ _ | node attrs _ => attrs

def MemoryRegion.addr (mr : MemoryRegion ρ) : Nat := mr.attrs.addr

/-! ## Flat views -/

structure FlatRange (ρ : Type) where
  mr : ρ
  offsetInRegion : Nat
  addr : AddrRange
  dirtyLogMask : UInt8
  romdMode : Bool
  readonly : Bool
deriving DecidableEq, Repr

def flatrangeEqual [DecidableEq ρ] (a b : FlatRange ρ) : Bool :=
  a.mr = b.mr ∧ a.addr = b.addr ∧ a.offsetInRegion = b.offsetInRegion ∧
    a.romdMode = b.romdMode ∧ a.readonly = b.readonly

def canMerge [DecidableEq ρ] (r₁ r₂ : FlatRange ρ) : Bool :=
  r₁.addr.end = r₂.addr.start ∧ r₁.mr = r₂.mr ∧
    (r₁.offsetInRegion : Int) + r₁.addr.size = r₂.offsetInRegion ∧
    r₁.dirtyLogMask = r₂.dirtyLogMask ∧ r₁.romdMode = r₂.romdMode ∧ r₁.readonly = r₂.readonly

/-- The loop of `flatview_simplify`: `merged` is the range at `i`, `prev` the one at `j - 1`. -/
def simplifyLoop [DecidableEq ρ] (merged prev : FlatRange ρ) : List (FlatRange ρ) →
    List (FlatRange ρ)
  | [] => [merged]
  | r :: ranges =>
    if canMerge prev r then
      simplifyLoop { merged with addr.size := merged.addr.size + r.addr.size } r ranges
    else merged :: simplifyLoop r r ranges

def flatviewSimplify [DecidableEq ρ] : List (FlatRange ρ) → List (FlatRange ρ)
  | [] => []
  | r :: ranges => simplifyLoop r r ranges

/-! ## Rendering -/

/-- What is left to render of a region: `base`, `offset_in_region` and `remain`. -/
structure Remain where
  base : Int
  offsetInRegion : Nat
  remain : Int

def Remain.advance (c : Remain) (now : Int) : Option Remain := do
  let n ← int128Get64 now
  return ⟨c.base + now, (c.offsetInRegion + n) % 2 ^ 64, c.remain - now⟩

/-- The next `now` bytes as a range; `fr` gives its region and flags. -/
def Remain.range (c : Remain) (fr : FlatRange ρ) (now : Int) : FlatRange ρ :=
  { fr with offsetInRegion := c.offsetInRegion, addr := ⟨c.base, now⟩ }

/-- The gap before `r`, as a range to insert. -/
def Remain.gap (c : Remain) (fr r : FlatRange ρ) : Option (List (FlatRange ρ) × Remain) :=
  if c.base < r.addr.start then do
    let now := min c.remain (r.addr.start - c.base)
    return ([c.range fr now], ← c.advance now)
  else some ([], c)

/-- The loop of `render_memory_region` over the ranges of the view from `i` on. -/
def renderGaps (fr : FlatRange ρ) : List (FlatRange ρ) → Remain → Option (List (FlatRange ρ))
  | [], c => some (if c.remain = 0 then [] else [c.range fr c.remain])
  | r :: ranges, c =>
    if c.remain = 0 then some (r :: ranges)
    else if r.addr.end ≤ c.base then do
      return r :: (← renderGaps fr ranges c)
    else do
      let (gap, c) ← c.gap fr r
      let c ← c.advance (min (c.base + c.remain) r.addr.end - c.base)
      return gap ++ r :: (← renderGaps fr ranges c)

mutual

def renderMemoryRegion (view : List (FlatRange ρ)) :
    MemoryRegion ρ → Int → AddrRange → Bool → Option (List (FlatRange ρ))
  | .aliasOf attrs target aliasOffset, base, clip, readonly =>
    let base := base + attrs.addr
    let tmp : AddrRange := ⟨base, attrs.size⟩
    if attrs.enabled ∧ tmp.intersects clip then
      renderMemoryRegion view target (base - target.addr - aliasOffset) (tmp.intersection clip)
        (readonly || attrs.readonly)
    else some view
  | .node attrs subregions, base, clip, readonly =>
    let base := base + attrs.addr
    let tmp : AddrRange := ⟨base, attrs.size⟩
    if attrs.enabled ∧ tmp.intersects clip then do
      let clip := tmp.intersection clip
      let readonly := readonly || attrs.readonly
      let view ← renderSubregions view subregions base clip readonly
      if attrs.terminates then do
        let offset ← int128Get64 (clip.start - base)
        renderGaps ⟨attrs.mr, offset, clip, attrs.dirtyLogMask, attrs.romdMode, readonly⟩ view
          ⟨clip.start, offset, clip.size⟩
      else return view
    else some view

def renderSubregions (view : List (FlatRange ρ)) :
    List (MemoryRegion ρ) → Int → AddrRange → Bool → Option (List (FlatRange ρ))
  | [], _, _, _ => some view
  | mr :: subregions, base, clip, readonly => do
      let view ← renderMemoryRegion view mr base clip readonly
      renderSubregions view subregions base clip readonly

end

def generateMemoryTopology [DecidableEq ρ] (mr : Option (MemoryRegion ρ)) :
    Option (List (FlatRange ρ)) := do
  let view ← match mr with
    | none => some []
    | some mr => renderMemoryRegion [] mr 0 ⟨0, 2 ^ 64⟩ false
  return flatviewSimplify view

end QemuAndroid.Memory
