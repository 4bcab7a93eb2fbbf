import Mathlib.Data.BitVec

/-!
# The physical memory dispatch of `exec.c`

An address space is dispatched through a radix tree over page numbers.  Its nodes
live in one array and point to each other by index; an entry says how many levels
to skip to the node it points to, and a leaf points to a section.  Pages that
several ranges share go through a *subpage*, a table with one section for each byte
of the page.

The tree is built by `mem_begin` and one `mem_add` for each range of the flat view,
and compacted in place by `mem_commit`: an entry whose node has a single child
points past that node.  A lookup that goes through a compacted entry ignores the
skipped bits of the page number, and makes up for it by checking the range of the
section it ends at.

`p` is `TARGET_PAGE_BITS`.  Page numbers and addresses are natural numbers, reduced
modulo `2 ^ 64` where the source may wrap.  A function is `none` where an assertion
fails or an array is read outside its initialised part.
-/

namespace QemuAndroid.Exec

def l2Size : Nat := 512

def l2Levels (p : Nat) : Nat := (64 - p - 1) / 9 + 1

def nodeNil : Nat := 2 ^ 26 - 1

def sectionUnassigned : Nat := 0

/-! ## Memory regions and sections -/

/-- The memory regions that `io_mem_init` makes. -/
inductive IoMem
  | unassigned | notdirty | rom | watch
deriving DecidableEq, Repr

/-- A memory region: one of `io_mem_init`, the region of a subpage, or any other. -/
inductive MemoryRegion (ρ : Type)
  | io (mem : IoMem)
  | subpage (k : Nat)
  | region (r : ρ)
deriving DecidableEq, Repr

/-- `mr->subpage`. -/
def MemoryRegion.isSubpage {ρ : Type} : MemoryRegion ρ → Bool
  | .subpage _ => true
  | _ => false

structure MemoryRegionSection (ρ : Type) where
  mr : MemoryRegion ρ
  offsetWithinAddressSpace : Nat
  offsetWithinRegion : Nat
  size : Nat
deriving DecidableEq, Repr

/-! ## The tree -/

structure PhysPageEntry where
  skip : Nat
  ptr : Nat
deriving DecidableEq, Repr

/-- `struct AddressSpaceDispatch`, with its `PhysPageMap` and the subpages. -/
structure Dispatch (ρ : Type) where
  physMap : PhysPageEntry
  nodes : Nat → Nat → PhysPageEntry
  nodesNb : Nat
  nodesNbAlloc : Nat
  sections : List (MemoryRegionSection ρ)
  /-- `sub_section` of each subpage. -/
  subpages : List (Nat → Nat)

variable {ρ : Type}

/-- A pointer to an entry: the root, or slot `j` of node `n`. -/
inductive Lp
  | root
  | slot (n j : Nat)

def Dispatch.read (d : Dispatch ρ) : Lp → PhysPageEntry
  | .root => d.physMap
  | .slot n j => d.nodes n j

def Dispatch.write (d : Dispatch ρ) (lp : Lp) (e : PhysPageEntry) : Dispatch ρ :=
  match lp with
  | .root => { d with physMap := e }
  | .slot n j => { d with nodes := Function.update d.nodes n (Function.update (d.nodes n) j e) }

def physMapNodeReserve (d : Dispatch ρ) (nodes : Nat) : Dispatch ρ :=
  if d.nodesNb + nodes > d.nodesNbAlloc then
    { d with nodesNbAlloc := max (max (d.nodesNbAlloc * 2) 16) (d.nodesNb + nodes) }
  else d

def physMapNodeAlloc (d : Dispatch ρ) (leaf : Bool) : Option (Dispatch ρ × Nat) :=
  let ret := d.nodesNb
  if ret = nodeNil then none
  else if ret = d.nodesNbAlloc then none
  else
    let e : PhysPageEntry := if leaf then ⟨0, sectionUnassigned⟩ else ⟨1, nodeNil⟩
    some ({ d with nodesNb := ret + 1, nodes := Function.update d.nodes ret fun _ => e }, ret)

/-- The loop of `phys_page_set_level` over the slots of node `n` from `j` on, with
`k` slots left.  `step` pages go through a slot, and `setLower` sets part of one. -/
def setLoop (leaf n step : Nat)
    (setLower : Dispatch ρ → Lp → Nat → Nat → Option (Dispatch ρ × Nat × Nat)) :
    Nat → Dispatch ρ → Nat → Nat → Nat → Option (Dispatch ρ × Nat × Nat)
  | 0, d, _, index, nb => some (d, index, nb)
  | k + 1, d, j, index, nb =>
    if nb = 0 then some (d, index, nb)
    else if index % step = 0 ∧ step ≤ nb then
      setLoop leaf n step setLower k (d.write (.slot n j) ⟨0, leaf⟩) (j + 1) (index + step)
        (nb - step)
    else do
      let (d, index, nb) ← setLower d (.slot n j) index nb
      setLoop leaf n step setLower k d (j + 1) index nb

/-- The body of `phys_page_set_level`. -/
def setBody (leaf level : Nat)
    (setLower : Dispatch ρ → Lp → Nat → Nat → Option (Dispatch ρ × Nat × Nat))
    (d : Dispatch ρ) (lp : Lp) (index nb : Nat) : Option (Dispatch ρ × Nat × Nat) := do
  let e := d.read lp
  let d ← (if e.skip ≠ 0 ∧ e.ptr = nodeNil then
      (physMapNodeAlloc d (level == 0)).map fun (d, n) => d.write lp { e with ptr := n }
    else some d : Option (Dispatch ρ))
  let n := (d.read lp).ptr
  if n < d.nodesNb then
    let j := index / l2Size ^ level % l2Size
    setLoop leaf n (l2Size ^ level) setLower (l2Size - j) d j index nb
  else none

def physPageSetLevel (leaf : Nat) :
    Nat → Dispatch ρ → Lp → Nat → Nat → Option (Dispatch ρ × Nat × Nat)
  | 0 => setBody leaf 0 fun _ _ _ _ => none
  | level + 1 => setBody leaf (level + 1) (physPageSetLevel leaf level)

variable (p : Nat) (d : Dispatch ρ)

def physPageSet (index nb leaf : Nat) : Option (Dispatch ρ) := do
  let d := physMapNodeReserve d (3 * l2Levels p)
  let (d, _, _) ← physPageSetLevel leaf (l2Levels p - 1) d .root index nb
  return d

/-! ## Compaction -/

/-- The loop of `phys_page_compact` over the slots of node `n` from `i` on, with `k`
slots left; `compact` compacts a slot. -/
def compactLoop (n : Nat) (compact : Dispatch ρ → Lp → Option (Dispatch ρ)) :
    Nat → Dispatch ρ → Nat → Nat → Nat → Option (Dispatch ρ × Nat × Nat)
  | 0, d, _, validPtr, valid => some (d, validPtr, valid)
  | k + 1, d, i, validPtr, valid =>
    if (d.nodes n i).ptr = nodeNil then compactLoop n compact k d (i + 1) validPtr valid
    else if (d.nodes n i).skip = 0 then compactLoop n compact k d (i + 1) i (valid + 1)
    else do
      let d ← compact d (.slot n i)
      compactLoop n compact k d (i + 1) i (valid + 1)

/-- The end of `phys_page_compact`, when the node of `lp` has the single child `c`. -/
def compactEntry (lp : Lp) (c : PhysPageEntry) : Dispatch ρ :=
  let e := d.read lp
  if e.skip + c.skip ≥ 2 ^ 3 then d
  else d.write lp ⟨if c.skip = 0 then 0 else e.skip + c.skip, c.ptr⟩

def physPageCompact : Nat → Dispatch ρ → Lp → Option (Dispatch ρ)
  | 0, _, _ => none
  | fuel + 1, d, lp =>
    let n := (d.read lp).ptr
    if n = nodeNil then some d
    else if n < d.nodesNb then do
      let (d, validPtr, valid) ← compactLoop n (physPageCompact fuel) l2Size d 0 l2Size 0
      if valid ≠ 1 then some d
      else if validPtr < l2Size then some (compactEntry d lp (d.nodes n validPtr))
      else none
    else none

def physPageCompactAll : Option (Dispatch ρ) :=
  if d.physMap.skip ≠ 0 then physPageCompact (l2Levels p) d .root else some d

/-! ## Lookup -/

/-- The loop of `phys_page_find`: the number of a section.  An entry without a node
gives the unassigned section, which passes the range check that follows. -/
def findLoop (index : Nat) : Nat → Nat → PhysPageEntry → Option Nat
  | 0, _, _ => none
  | fuel + 1, i, lp =>
    if lp.skip = 0 ∨ i < lp.skip then some lp.ptr
    else if lp.ptr = nodeNil then some sectionUnassigned
    else if lp.ptr < d.nodesNb then
      findLoop index fuel (i - lp.skip) (d.nodes lp.ptr (index / l2Size ^ (i - lp.skip) % l2Size))
    else none

def rangeCoversByte (offset len byte : Nat) : Bool :=
  decide (offset ≤ byte) && decide (byte ≤ (offset + len + (2 ^ 64 - 1)) % 2 ^ 64)

/-- `phys_page_find`: the number of the section. -/
def physPageFind (addr : Nat) : Option Nat := do
  let s ← findLoop d (addr / 2 ^ p) (l2Levels p + 1) (l2Levels p) d.physMap
  let section' ← d.sections[s]?
  if 2 ^ 64 ≤ section'.size ∨
      rangeCoversByte section'.offsetWithinAddressSpace (section'.size % 2 ^ 64) addr then
    return s
  else
    return sectionUnassigned

def addressSpaceLookupRegion (addr : Nat) (resolveSubpage : Bool) :
    Option (MemoryRegionSection ρ) := do
  let s ← physPageFind p d addr
  let section' ← d.sections[s]?
  match section'.mr with
  | .subpage k =>
    if resolveSubpage then do
      let subSection ← d.subpages[k]?
      d.sections[subSection (addr % 2 ^ p)]?
    else return section'
  | _ => return section'

/-! ## Sections and subpages -/

/-- `phys_section_add`, which returns an `uint16_t`. -/
def physSectionAdd (section' : MemoryRegionSection ρ) : Option (Dispatch ρ × Nat) :=
  if d.sections.length < 2 ^ p then
    some ({ d with sections := d.sections ++ [section'] }, d.sections.length % 2 ^ 16)
  else none

def subpageRegister (subSection : Nat → Nat) (start last sectionIndex : Nat) : Nat → Nat :=
  if 2 ^ p ≤ start ∨ 2 ^ p ≤ last then subSection
  else fun idx => if start ≤ idx ∧ idx ≤ last then sectionIndex else subSection idx

def subpageInit : Dispatch ρ × Nat := ({ d with subpages := d.subpages ++
      [subpageRegister p (fun _ => 0) 0 (2 ^ p - 1) sectionUnassigned] }, d.subpages.length)

/-- The first half of `register_subpage`: the subpage of the page at `base`, which is
made if there is none. -/
def findSubpage (base : Nat) : Option (Dispatch ρ × Nat) := do
  let s ← physPageFind p d base
  let existing ← d.sections[s]?
  match existing.mr with
  | .subpage k => return (d, k)
  | .io .unassigned => do
      let (d, k) := subpageInit p d
      let (d, s) ← physSectionAdd p d ⟨.subpage k, base, 0, 2 ^ p⟩
      let d ← physPageSet p d (base / 2 ^ p) 1 s
      return (d, k)
  | _ => none

def registerSubpage (section' : MemoryRegionSection ρ) : Option (Dispatch ρ) := do
  let base := section'.offsetWithinAddressSpace / 2 ^ p * 2 ^ p
  let (d, k) ← findSubpage p d base
  let start := section'.offsetWithinAddressSpace % 2 ^ p
  let last := start + section'.size - 1
  let (d, s) ← physSectionAdd p d section'
  let subSection ← d.subpages[k]?
  return { d with subpages :=
    d.subpages.set k (subpageRegister p subSection (start % 2 ^ 32) (last % 2 ^ 32) s) }

def registerMultipage (section' : MemoryRegionSection ρ) : Option (Dispatch ρ) := do
  let (d, s) ← physSectionAdd p d section'
  let numPages := section'.size / 2 ^ p
  if numPages = 0 then none
  physPageSet p d (section'.offsetWithinAddressSpace / 2 ^ p) numPages s

/-! ## The listener -/

def targetPageAlign (p addr : Nat) : Nat := (addr + 2 ^ p - 1) % 2 ^ 64 / 2 ^ p * 2 ^ p

/-- What is left of a section after its first `len` bytes. -/
def advance (section' : MemoryRegionSection ρ) (len : Nat) : MemoryRegionSection ρ :=
  { section' with
    size := section'.size - len
    offsetWithinAddressSpace := (section'.offsetWithinAddressSpace + len) % 2 ^ 64
    offsetWithinRegion := (section'.offsetWithinRegion + len) % 2 ^ 64 }

/-- The loop of `mem_add`; `done` is `now.size`, the part of `remain` that is registered.
At most the whole pages and the tail are left when it starts. -/
def memAddLoop : Nat → Dispatch ρ → MemoryRegionSection ρ → Nat → Option (Dispatch ρ)
  | 0, _, _, _ => none
  | fuel + 1, d, remain, done =>
    if remain.size = done then some d
    else
      let remain := advance remain done
      if remain.size < 2 ^ p then do
        let d ← registerSubpage p d remain
        memAddLoop fuel d remain remain.size
      else if remain.offsetWithinAddressSpace % 2 ^ p ≠ 0 then do
        let d ← registerSubpage p d { remain with size := 2 ^ p }
        memAddLoop fuel d remain (2 ^ p)
      else do
        let whole := remain.size / 2 ^ p * 2 ^ p
        let d ← registerMultipage p d { remain with size := whole }
        memAddLoop fuel d remain whole

def memAdd (section' : MemoryRegionSection ρ) : Option (Dispatch ρ) :=
  let addr := section'.offsetWithinAddressSpace
  if addr % 2 ^ p ≠ 0 then do
    let left := (targetPageAlign p addr + 2 ^ 64 - addr) % 2 ^ 64
    let now := { section' with size := min left section'.size }
    let d ← registerSubpage p d now
    memAddLoop p 3 d section' now.size
  else memAddLoop p 3 d section' 0

def dummySection (mem : IoMem) : MemoryRegionSection ρ := ⟨.io mem, 0, 0, 2 ^ 64⟩

def memBegin : Option (Dispatch ρ) := do
  let d : Dispatch ρ :=
    { physMap := ⟨1, nodeNil⟩, nodes := fun _ _ => ⟨0, 0⟩, nodesNb := 0, nodesNbAlloc := 0,
      sections := [], subpages := [] }
  let (d, n₀) ← physSectionAdd p d (dummySection .unassigned)
  let (d, n₁) ← physSectionAdd p d (dummySection .notdirty)
  let (d, n₂) ← physSectionAdd p d (dummySection .rom)
  let (d, n₃) ← physSectionAdd p d (dummySection .watch)
  if n₀ = 0 ∧ n₁ = 1 ∧ n₂ = 2 ∧ n₃ = 3 then some d else none

def memCommit : Option (Dispatch ρ) := physPageCompactAll p d

/-! ## Flat views -/

structure FlatRange (ρ : Type) where
  mr : MemoryRegion ρ
  offsetInRegion : Nat
  start : Nat
  size : Nat
deriving DecidableEq, Repr

def FlatRange.toSection (fr : FlatRange ρ) : MemoryRegionSection ρ :=
  ⟨fr.mr, fr.start, fr.offsetInRegion, fr.size⟩

/-- `mem_begin`, `mem_add` for each range, `mem_commit`. -/
def dispatchOf (view : List (FlatRange ρ)) : Option (Dispatch ρ) := do
  let d ← memBegin p
  let d ← view.foldlM (fun d fr => memAdd p d fr.toSection) d
  memCommit p d

end QemuAndroid.Exec
