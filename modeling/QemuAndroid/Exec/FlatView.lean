import QemuAndroid.Exec.Model

/-!
# Flat views and the pieces that `mem_add` registers

A list of sections gives, for an address, a memory region and an offset in it
(`lookupFlat`): this is what a dispatch has to agree with.

`mem_add` cuts a section at page boundaries.  A part of a page at either end goes to
`register_subpage`, the whole pages between go to `register_multipage`.  `pieces` is
that list of parts; `mem_add` registers them one after the other (`memAdd_eq`), and
together they say what the section says (`lookupFlat_pieces`).
-/

namespace QemuAndroid.Exec

open List Nat

variable {ρ : Type}

/-! ## What a section says about an address -/

namespace MemoryRegionSection

def Covers (s : MemoryRegionSection ρ) (addr : Nat) : Prop :=
  s.offsetWithinAddressSpace ≤ addr ∧ addr < s.offsetWithinAddressSpace + s.size
deriving Decidable

def target (s : MemoryRegionSection ρ) (addr : Nat) : MemoryRegion ρ × Nat :=
  (s.mr, (s.offsetWithinRegion + (addr - s.offsetWithinAddressSpace)) % 2 ^ 64)

/-- A section that a listener can be given. -/
structure Ok (s : MemoryRegionSection ρ) : Prop where
  pos : 0 < s.size
  le : s.offsetWithinAddressSpace + s.size ≤ 2 ^ 64
  plain : s.mr.isSubpage = false

def Disjoint (s t : MemoryRegionSection ρ) : Prop := ∀ addr, s.Covers addr → ¬ t.Covers addr

end MemoryRegionSection

/-- What a list of sections says about `addr`. -/
def lookupFlat (ss : List (MemoryRegionSection ρ)) (addr : Nat) : Option (MemoryRegion ρ × Nat) :=
  (ss.find? fun s => decide (s.Covers addr)).map fun s => s.target addr

@[simp] theorem lookupFlat_nil (addr : Nat) :
    lookupFlat ([] : List (MemoryRegionSection ρ)) addr = none := rfl

theorem lookupFlat_cons (s : MemoryRegionSection ρ) (ss : List (MemoryRegionSection ρ))
    (addr : Nat) : lookupFlat (s :: ss) addr =
      if s.Covers addr then some (s.target addr) else lookupFlat ss addr := by
  unfold lookupFlat
  by_cases h : s.Covers addr
  · rw [find?_cons_of_pos (by simpa using h), if_pos h, Option.map_some]
  · rw [find?_cons_of_neg (by simpa using h), if_neg h]

theorem lookupFlat_append (ss ts : List (MemoryRegionSection ρ)) (addr : Nat) :
    lookupFlat (ss ++ ts) addr = (lookupFlat ss addr).or (lookupFlat ts addr) := by
  induction ss with
  | nil => rfl
  | cons s ss ih =>
    rw [cons_append, lookupFlat_cons, lookupFlat_cons, ih]
    split <;> rfl

variable {addr p fuel done : Nat} {d : Dispatch ρ} {s t : MemoryRegionSection ρ}

theorem lookupFlat_eq_none_iff {ss : List (MemoryRegionSection ρ)} :
    lookupFlat ss addr = none ↔ ∀ s ∈ ss, ¬ s.Covers addr := by
  simp [lookupFlat]

/-- Empty sections say nothing. -/
theorem lookupFlat_filter (ss : List (MemoryRegionSection ρ)) (addr : Nat) :
    lookupFlat (ss.filter fun s => decide (s.size ≠ 0)) addr = lookupFlat ss addr := by
  induction ss with
  | nil => rfl
  | cons s ss ih =>
    by_cases hsize : s.size = 0
    · have hnot : ¬ s.Covers addr := fun h => by have := h.1; have := h.2; omega
      rw [filter_cons_of_neg (by simpa using hsize), ih, lookupFlat_cons, if_neg hnot]
    · rw [filter_cons_of_pos (by simpa using hsize), lookupFlat_cons, lookupFlat_cons, ih]

/-! ## The pieces of a section -/

/-- The bytes of `s` before the first page boundary, if it does not start at one. -/
def headSize (p : Nat) (s : MemoryRegionSection ρ) : Nat :=
  if s.offsetWithinAddressSpace % 2 ^ p = 0 then 0
  else min (2 ^ p - s.offsetWithinAddressSpace % 2 ^ p) s.size

/-- The whole pages of `s`, and the bytes after them; `s` starts at a page boundary. -/
def alignedPieces (p : Nat) (s : MemoryRegionSection ρ) : List (MemoryRegionSection ρ) :=
  [{ s with size := s.size / 2 ^ p * 2 ^ p }, advance s (s.size / 2 ^ p * 2 ^ p)]

/-- The parts of `s` that `mem_add` registers. -/
def pieces (p : Nat) (s : MemoryRegionSection ρ) : List (MemoryRegionSection ρ) :=
  ({ s with size := headSize p s } :: alignedPieces p (advance s (headSize p s))).filter
    fun s => decide (s.size ≠ 0)

/-- A part of a page is registered as a subpage, whole pages are not. -/
def register (p : Nat) (d : Dispatch ρ) (piece : MemoryRegionSection ρ) : Option (Dispatch ρ) :=
  if piece.size < 2 ^ p then registerSubpage p d piece else registerMultipage p d piece

/-- A piece: a part of one page, or whole pages. -/
structure PieceOk (p : Nat) (s : MemoryRegionSection ρ) : Prop extends s.Ok where
  shape : s.size < 2 ^ p ∧ s.offsetWithinAddressSpace % 2 ^ p + s.size ≤ 2 ^ p ∨
    2 ^ p ≤ s.size ∧ s.offsetWithinAddressSpace % 2 ^ p = 0 ∧ s.size % 2 ^ p = 0

/-- The page boundary after an address; the end of the address space wraps to 0. -/
theorem targetPageAlign_eq (hp : p ≤ 64) (haddr : addr < 2 ^ 64) (hne : addr % 2 ^ p ≠ 0) :
    targetPageAlign p addr = (addr + (2 ^ p - addr % 2 ^ p)) % 2 ^ 64 := by
  have hM : 2 ^ 64 = 2 ^ p * 2 ^ (64 - p) := by rw [← pow_add, Nat.add_sub_cancel' hp]
  rw [targetPageAlign]
  rw [hM] at haddr ⊢
  have hP : 0 < 2 ^ p := Nat.pow_pos (by decide)
  generalize 2 ^ p = P at *
  have hdecomp : P * (addr / P) + addr % P = addr := div_add_mod ..
  have hr : addr % P < P := mod_lt _ hP
  generalize addr / P = q at *
  generalize addr % P = r at *
  subst hdecomp
  have h₁ : P * q + r + P - 1 = P * (q + 1) + (r - 1) := by
    rw [mul_succ]
    omega
  have h₂ : P * q + r + (P - r) = P * (q + 1) := by
    omega
  have hr' : r - 1 < P := by omega
  rw [h₁, h₂, mod_mul_right_div_self, mul_mod_mul_left, mul_add_div hP, div_eq_of_lt hr', mul_comm]

/-- The bytes that are left of the page of an address. -/
theorem left_eq (hp : p ≤ 64) (haddr : addr < 2 ^ 64) (hne : addr % 2 ^ p ≠ 0) :
    (targetPageAlign p addr + 2 ^ 64 - addr) % 2 ^ 64 = 2 ^ p - addr % 2 ^ p := by
  have hP : 2 ^ p ≤ 2 ^ 64 := Nat.pow_le_pow_right (by decide) hp
  rw [targetPageAlign_eq hp haddr hne]
  omega

/-! ## `mem_add` registers the pieces -/

theorem advance_advance (s : MemoryRegionSection ρ) (m n : Nat) :
    advance (advance s m) n = advance s (m + n) := by
  simp only [advance, MemoryRegionSection.mk.injEq, true_and]
  omega

theorem memAddLoop_done : memAddLoop p (fuel + 1) d s s.size = some d := by
  simp [memAddLoop]

/-- The part of the last page, if there is one. -/
theorem memAddLoop_tail (hsize : (advance s done).size < 2 ^ p)
    (hdone : done ≤ s.size) : memAddLoop p (fuel + 2) d s done =
      ([advance s done].filter fun s => decide (s.size ≠ 0)).foldlM (register p) d := by
  have hadv : (advance s done).size = s.size - done := rfl
  rw [memAddLoop]
  rcases eq_or_lt_of_le hdone with heq | hlt
  · have hzero : (advance s done).size = 0 := by omega
    rw [if_pos heq.symm, filter_cons_of_neg (by simpa using hzero)]
    rfl
  · rw [if_neg (by omega), filter_cons_of_pos (by simp; omega)]
    simp only [memAddLoop_done, filter_nil, foldlM_cons, foldlM_nil, register, if_pos hsize]
    rfl

/-- The loop of `mem_add`, when it starts at a page boundary or at the end of the section. -/
theorem memAddLoop_eq (hdone : done ≤ s.size)
    (halign : done < s.size → (advance s done).offsetWithinAddressSpace % 2 ^ p = 0) :
    memAddLoop p 3 d s done =
      ((alignedPieces p (advance s done)).filter fun s => decide (s.size ≠ 0)).foldlM
        (register p) d := by
  have hP : 0 < 2 ^ p := Nat.pow_pos (by decide)
  have hadv : (advance s done).size = s.size - done := rfl
  have hmod : (advance s done).size / 2 ^ p * 2 ^ p + (advance s done).size % 2 ^ p =
    (advance s done).size := div_add_mod' ..
  unfold alignedPieces
  rcases lt_or_ge (advance s done).size (2 ^ p) with hsize | hsize
  · have hzero : (advance s done).size / 2 ^ p * 2 ^ p = 0 := by rw [div_eq_of_lt hsize]; simp
    rw [memAddLoop_tail hsize hdone, hzero, advance_advance, add_zero, eq_comm,
      filter_cons_of_neg (by simp)]
  have hwhole : ¬ (advance s done).size / 2 ^ p * 2 ^ p < 2 ^ p := by
    have := mul_le_mul_right (2 ^ p) (div_pos hsize hP)
    omega
  rw [memAddLoop, if_neg (by omega)]
  simp only [if_neg (not_lt.2 hsize), if_neg (not_not.2 (halign (by omega)))]
  rw [filter_cons_of_pos (by simp only [decide_eq_true_eq]; omega), foldlM_cons]
  simp only [register, if_neg hwhole]
  refine Option.bind_congr fun d' _ => memAddLoop_tail ?_ (div_mul_le_self ..)
  show (advance s done).size - _ < _
  omega

theorem advance_offset (hs : s.Ok) {n : Nat} (hn : n < s.size) :
    (advance s n).offsetWithinAddressSpace = s.offsetWithinAddressSpace + n := by
  have hle := hs.le
  exact mod_eq_of_lt (by omega)

theorem headSize_le (p : Nat) (s : MemoryRegionSection ρ) : headSize p s ≤ s.size := by
  unfold headSize
  split <;> omega

/-- What comes after the head starts at a page boundary. -/
theorem advance_headSize_aligned (hs : s.Ok) (hlt : headSize p s < s.size) :
    (advance s (headSize p s)).offsetWithinAddressSpace % 2 ^ p = 0 := by
  have hr : s.offsetWithinAddressSpace % 2 ^ p < 2 ^ p := mod_lt _ (Nat.pow_pos (by decide))
  rw [advance_offset hs hlt]
  unfold headSize at hlt ⊢
  split
  · next h => rw [add_zero, h]
  · next h =>
    rw [if_neg h] at hlt
    rw [min_eq_left (by omega), ← mod_add_mod, Nat.add_sub_cancel' (Nat.le_of_lt hr),
      mod_self]

/-- `mem_add` registers the pieces of a section one after the other. -/
theorem memAdd_eq (hp : p ≤ 64) (hs : s.Ok) :
    memAdd p d s = (pieces p s).foldlM (register p) d := by
  have hpos := hs.pos
  have hle := hs.le
  have hloop (d : Dispatch ρ) := memAddLoop_eq (d := d) (headSize_le p s)
    (advance_headSize_aligned hs)
  unfold memAdd pieces
  by_cases halign : s.offsetWithinAddressSpace % 2 ^ p = 0
  · have hhead : headSize p s = 0 := if_pos halign
    rw [hhead] at hloop ⊢
    rw [if_neg (not_not.2 halign), filter_cons_of_neg (by simp), hloop]
  have hhead : headSize p s = min (2 ^ p - s.offsetWithinAddressSpace % 2 ^ p) s.size :=
    if_neg halign
  rw [if_pos halign, filter_cons_of_pos (by simp; omega), foldlM_cons]
  simp only [left_eq hp (show s.offsetWithinAddressSpace < 2 ^ 64 by omega) halign, ← hhead, hloop,
    register]
  rw [if_pos (by omega)]

/-! ## What the pieces say -/

def part (s : MemoryRegionSection ρ) (n size : Nat) : MemoryRegionSection ρ :=
  { advance s n with size := size }

section Part

variable {s : MemoryRegionSection ρ} {n size : Nat} (hs : s.Ok) (hn : n + size ≤ s.size)

include hs hn

theorem part_offset (hpos : 0 < size) :
    (part s n size).offsetWithinAddressSpace = s.offsetWithinAddressSpace + n :=
  advance_offset hs (by omega)

theorem covers_part :
    (part s n size).Covers addr ↔ s.offsetWithinAddressSpace + n ≤ addr ∧
      addr < s.offsetWithinAddressSpace + n + size := by
  have hsize : (part s n size).size = size := rfl
  unfold MemoryRegionSection.Covers
  rw [hsize]
  rcases Nat.eq_zero_or_pos size with rfl | hpos
  · omega
  · rw [part_offset hs hn hpos]

/-- A part of a section says what the section says. -/
theorem target_part (haddr : (part s n size).Covers addr) :
    (part s n size).target addr = s.target addr := by
  rw [covers_part hs hn] at haddr
  have hoff := part_offset hs hn (by omega)
  have hregion : (part s n size).offsetWithinRegion = (s.offsetWithinRegion + n) % 2 ^ 64 := rfl
  simp only [MemoryRegionSection.target, hoff, hregion, Prod.mk.injEq]
  exact ⟨rfl, by omega⟩

theorem part_ok (hpos : 0 < size) : (part s n size).Ok := by
  have hle := hs.le
  refine ⟨hpos, ?_, hs.plain⟩
  rw [part_offset hs hn hpos]
  show _ + size ≤ _
  omega

end Part

/-- The whole pages of a section after its head. -/
def wholeSize (p : Nat) (s : MemoryRegionSection ρ) : Nat :=
  (s.size - headSize p s) / 2 ^ p * 2 ^ p

theorem headSize_add_wholeSize_le (p : Nat) (s : MemoryRegionSection ρ) :
    headSize p s + wholeSize p s ≤ s.size := by
  have h₁ := headSize_le p s
  have h₂ := div_mul_le_self (s.size - headSize p s) (2 ^ p)
  unfold wholeSize
  omega

/-- Head, whole pages and tail. -/
theorem pieces_eq (p : Nat) (s : MemoryRegionSection ρ) :
    pieces p s = [{ s with size := headSize p s }, part s (headSize p s) (wholeSize p s),
      part s (headSize p s + wholeSize p s) (s.size - (headSize p s + wholeSize p s))].filter
        fun s => decide (s.size ≠ 0) := by
  have htail : advance (advance s (headSize p s)) (wholeSize p s) =
      part s (headSize p s + wholeSize p s) (s.size - (headSize p s + wholeSize p s)) := by
    rw [advance_advance]
    rfl
  rw [← htail]
  rfl

/-- The addresses of the head, of the whole pages and of the tail. -/
theorem covers_pieces (p : Nat) (hs : s.Ok) (addr : Nat) :
    (({ s with size := headSize p s } : MemoryRegionSection ρ).Covers addr ↔
      s.offsetWithinAddressSpace ≤ addr ∧ addr < s.offsetWithinAddressSpace + headSize p s) ∧
    ((part s (headSize p s) (wholeSize p s)).Covers addr ↔
      s.offsetWithinAddressSpace + headSize p s ≤ addr ∧
        addr < s.offsetWithinAddressSpace + headSize p s + wholeSize p s) ∧
    ((part s (headSize p s + wholeSize p s) (s.size - (headSize p s + wholeSize p s))).Covers addr ↔
      s.offsetWithinAddressSpace + headSize p s + wholeSize p s ≤ addr ∧
        addr < s.offsetWithinAddressSpace + s.size) := by
  have hle := headSize_add_wholeSize_le p s
  refine ⟨Iff.rfl, covers_part hs (by omega), ?_⟩
  rw [covers_part hs (by omega)]
  omega

/-- The pieces say what the section says. -/
theorem lookupFlat_pieces (p : Nat) (hs : s.Ok) (addr : Nat) :
    lookupFlat (pieces p s) addr = if s.Covers addr then some (s.target addr) else none := by
  have hle := headSize_add_wholeSize_le p s
  obtain ⟨hhead, hwhole, htail⟩ := covers_pieces p hs addr
  have hcovers : s.Covers addr ↔ s.offsetWithinAddressSpace ≤ addr ∧
    addr < s.offsetWithinAddressSpace + s.size := Iff.rfl
  rw [pieces_eq, lookupFlat_filter, lookupFlat_cons, lookupFlat_cons, lookupFlat_cons,
    lookupFlat_nil]
  split
  · next h =>
    rw [hhead] at h
    rw [if_pos (hcovers.2 (by omega))]
    rfl
  · next h =>
    rw [hhead] at h
    split
    · next h' =>
      rw [target_part hs (by omega) h']
      rw [hwhole] at h'
      rw [if_pos (hcovers.2 (by omega))]
    · next h' =>
      rw [hwhole] at h'
      split
      · next h'' =>
        rw [target_part hs (by omega) h'']
        rw [htail] at h''
        rw [if_pos (hcovers.2 (by omega))]
      · next h'' =>
        rw [htail] at h''
        rw [if_neg fun hc => by have := hcovers.1 hc; omega]

/-- Every piece is a part of one page or made of whole pages. -/
theorem pieceOk_of_mem (hs : s.Ok) (ht : t ∈ pieces p s) : PieceOk p t := by
  have hsize := hs.le
  have hle := headSize_add_wholeSize_le p s
  have hdvd : 2 ^ p ∣ wholeSize p s := dvd_mul_left ..
  rw [pieces_eq, mem_filter] at ht
  obtain ⟨ht, hne⟩ := ht
  have hpos : 0 < t.size := Nat.pos_of_ne_zero (by simpa using hne)
  simp only [mem_cons, not_mem_nil, or_false] at ht
  rcases ht with rfl | rfl | rfl
  · have hhead : headSize p s ≤ 2 ^ p - s.offsetWithinAddressSpace % 2 ^ p ∧
        s.offsetWithinAddressSpace % 2 ^ p ≠ 0 := by
      have hpos' : 0 < headSize p s := hpos
      unfold headSize at hpos' ⊢
      split at hpos'
      · omega
      · next h => exact ⟨by rw [if_neg h]; omega, h⟩
    refine ⟨⟨hpos, ?_, hs.plain⟩, .inl ⟨?_, ?_⟩⟩
    · show s.offsetWithinAddressSpace + headSize p s ≤ 2 ^ 64
      omega
    · show headSize p s < 2 ^ p
      omega
    · show s.offsetWithinAddressSpace % 2 ^ p + headSize p s ≤ 2 ^ p
      omega
  · have hpos' : 0 < wholeSize p s := hpos
    have haligned := advance_headSize_aligned (p := p) hs (by omega)
    exact ⟨part_ok hs hle hpos', .inr ⟨le_of_dvd hpos' hdvd, haligned, mod_eq_zero_of_dvd hdvd⟩⟩
  · have hpos' : 0 < s.size - (headSize p s + wholeSize p s) := hpos
    have htail : s.size - (headSize p s + wholeSize p s) < 2 ^ p := by
      have h₁ := div_add_mod' (s.size - headSize p s) (2 ^ p)
      unfold wholeSize
      omega
    have haligned := advance_headSize_aligned (p := p) hs (by omega)
    refine ⟨part_ok hs (by omega) hpos', .inl ⟨htail, ?_⟩⟩
    rw [advance_offset hs (by omega)] at haligned
    rw [part_offset hs (by omega) hpos', ← add_assoc, add_mod, haligned, mod_eq_zero_of_dvd hdvd]
    show 0 % 2 ^ p + (s.size - (headSize p s + wholeSize p s)) ≤ 2 ^ p
    rw [zero_mod]
    omega

/-- A piece lies where its section lies. -/
theorem covers_of_mem_pieces (hs : s.Ok) (ht : t ∈ pieces p s) (haddr : t.Covers addr) :
    s.Covers addr := by
  by_contra hnot
  have hnone := lookupFlat_pieces p hs addr
  rw [if_neg hnot, lookupFlat_eq_none_iff] at hnone
  exact hnone t ht haddr

theorem pieces_disjoint (p : Nat) (hs : s.Ok) :
    (pieces p s).Pairwise MemoryRegionSection.Disjoint := by
  have hcovers := covers_pieces p hs
  rw [pieces_eq]
  refine List.Pairwise.filter _ (.cons ?_ (.cons ?_ (pairwise_singleton ..)))
  · intro t ht addr h h'
    simp only [mem_cons, not_mem_nil, or_false] at ht
    rcases ht with rfl | rfl
    · have := (hcovers addr).1.1 h
      have := (hcovers addr).2.1.1 h'
      omega
    · have := (hcovers addr).1.1 h
      have := (hcovers addr).2.2.1 h'
      omega
  · intro t ht addr h h'
    obtain rfl := mem_singleton.1 ht
    have := (hcovers addr).2.1.1 h
    have := (hcovers addr).2.2.1 h'
    omega

/-! ## A whole view -/

/-- The parts of all ranges of a view, in the order in which they are registered. -/
def viewPieces (p : Nat) (view : List (FlatRange ρ)) : List (MemoryRegionSection ρ) :=
  view.flatMap fun fr => pieces p fr.toSection

variable {view : List (FlatRange ρ)} (hview : ∀ fr ∈ view, fr.toSection.Ok)

include hview

/-- Building the dispatch of a view registers its pieces. -/
theorem foldlM_memAdd (hp : p ≤ 64) (d : Dispatch ρ) :
    view.foldlM (fun d fr => memAdd p d fr.toSection) d =
      (viewPieces p view).foldlM (register p) d := by
  induction view generalizing d with
  | nil => rfl
  | cons fr view ih =>
    rw [viewPieces, flatMap_cons, foldlM_append, foldlM_cons,
      memAdd_eq hp (hview fr (mem_cons_self ..))]
    exact Option.bind_congr fun d' _ => ih (fun fr' h => hview fr' (mem_cons_of_mem _ h)) d'

theorem lookupFlat_viewPieces (p addr : Nat) :
    lookupFlat (viewPieces p view) addr = lookupFlat (view.map FlatRange.toSection) addr := by
  induction view with
  | nil => rfl
  | cons fr view ih =>
    rw [viewPieces, flatMap_cons, lookupFlat_append, map_cons, lookupFlat_cons,
      lookupFlat_pieces p (hview fr (mem_cons_self ..)),
      ← ih fun fr' h => hview fr' (mem_cons_of_mem _ h)]
    split <;> rfl

theorem viewPieces_disjoint (p : Nat)
    (hdisj : view.Pairwise fun fr fr' => fr.toSection.Disjoint fr'.toSection) :
    (viewPieces p view).Pairwise MemoryRegionSection.Disjoint := by
  rw [viewPieces, pairwise_flatMap]
  refine ⟨fun fr hfr => pieces_disjoint p (hview fr hfr), hdisj.imp_of_mem ?_⟩
  intro fr fr' hfr hfr' h t ht t' ht' addr haddr haddr'
  exact h addr (covers_of_mem_pieces (hview fr hfr) ht haddr)
    (covers_of_mem_pieces (hview fr' hfr') ht' haddr')

theorem viewPieces_ok (ht : t ∈ viewPieces p view) : PieceOk p t := by
  obtain ⟨fr, hfr, ht⟩ := mem_flatMap.1 ht
  exact pieceOk_of_mem (hview fr hfr) ht

end QemuAndroid.Exec
