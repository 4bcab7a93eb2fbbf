import QemuAndroid.Memory.Model
import Mathlib.Data.List.Pairwise

/-!
# Updating the topology

When the memory map changes, listeners are told the difference between the old and the
new flat view, in two passes over both: first the ranges that go, then the ranges that
come.  A range that is in both is reported as unchanged.

The passes walk the two sorted views side by side.  They find exactly the ranges in
which the views differ (`topologyPass_del`, `topologyPass_add`), so that a listener
that holds the old ranges ends up with the new ones.
-/

namespace QemuAndroid.Memory

open List FlatRange

variable {ρ : Type}

/-! ## Listeners -/

/-- `struct MemoryRegionSection`, for one address space. -/
structure MemoryRegionSection (ρ : Type) where
  mr : ρ
  offsetWithinRegion : Nat
  size : Int
  offsetWithinAddressSpace : Int
  readonly : Bool
deriving DecidableEq, Repr

def FlatRange.toSection (fr : FlatRange ρ) : MemoryRegionSection ρ :=
  ⟨fr.mr, fr.offsetInRegion, fr.addr.size, fr.addr.start, fr.readonly⟩

inductive ListenerCall (ρ : Type)
  | regionDel (section' : MemoryRegionSection ρ)
  | regionAdd (section' : MemoryRegionSection ρ)
  | regionNop (section' : MemoryRegionSection ρ)
  | logStart (section' : MemoryRegionSection ρ) (old new : UInt8)
  | logStop (section' : MemoryRegionSection ρ) (old new : UInt8)
deriving DecidableEq, Repr

section Passes

variable [DecidableEq ρ]

def unchanged (frold frnew : FlatRange ρ) : List (ListenerCall ρ) :=
  [.regionNop frnew.toSection] ++ (if frnew.dirtyLogMask &&& ~~~frold.dirtyLogMask ≠ 0 then
      [.logStart frnew.toSection frold.dirtyLogMask frnew.dirtyLogMask] else []) ++
    (if frold.dirtyLogMask &&& ~~~frnew.dirtyLogMask ≠ 0 then
      [.logStop frnew.toSection frold.dirtyLogMask frnew.dirtyLogMask] else [])

/-- `address_space_update_topology_pass`, on the ranges from `iold` and `inew` on. -/
def topologyPass (adding : Bool) : List (FlatRange ρ) → List (FlatRange ρ) → List (ListenerCall ρ)
  | [], [] => []
  | [], frnew :: news =>
    (if adding then [.regionAdd frnew.toSection] else []) ++ topologyPass adding [] news
  | frold :: olds, [] =>
    (if adding then [] else [.regionDel frold.toSection]) ++ topologyPass adding olds []
  | frold :: olds, frnew :: news =>
    if frold.addr.start < frnew.addr.start ∨
        frold.addr.start = frnew.addr.start ∧ ¬ flatrangeEqual frold frnew then
      (if adding then [] else [.regionDel frold.toSection]) ++
        topologyPass adding olds (frnew :: news)
    else if flatrangeEqual frold frnew then
      (if adding then unchanged frold frnew else []) ++ topologyPass adding olds news
    else
      (if adding then [.regionAdd frnew.toSection] else []) ++
        topologyPass adding (frold :: olds) news
termination_by olds news => olds.length + news.length

/-- `address_space_update_topology`: the calls for a change from one view to another. -/
def updateTopology (old new : List (FlatRange ρ)) : List (ListenerCall ρ) :=
  topologyPass false old new ++ topologyPass true old new

/-- A listener that keeps the sections it was told of: `none` if it is told that a section goes or
stays which it does not hold, or that a section comes which it holds. -/
def ListenerCall.apply (held : List (MemoryRegionSection ρ)) :
    ListenerCall ρ → Option (List (MemoryRegionSection ρ))
  | regionDel s => if s ∈ held then some (held.erase s) else none
  | regionAdd s => if s ∈ held then none else some (s :: held)
  | regionNop s => if s ∈ held then some held else none
  | logStart .. | logStop .. => some held

end Passes

/-! ## What the passes find -/

def Disjoint (view : List (FlatRange ρ)) : Prop :=
  view.Pairwise fun r s => r.addr.start < s.addr.start ∧ r.addr.end ≤ s.addr.start

namespace Disjoint

variable {r s : FlatRange ρ} {view : List (FlatRange ρ)}

theorem tail (h : Disjoint (r :: view)) : Disjoint view := List.Pairwise.of_cons h

theorem start_lt (h : Disjoint (r :: view)) (hs : s ∈ view) :
    r.addr.start < s.addr.start := (rel_of_pairwise_cons h hs).1

end Disjoint

section Find

variable [DecidableEq ρ] {old new olds news view : List (FlatRange ρ)}
    {r s frold frnew : FlatRange ρ}

def hasEqual (view : List (FlatRange ρ)) (fr : FlatRange ρ) : Bool := view.any (flatrangeEqual fr)

theorem flatrangeEqual_iff : flatrangeEqual r s = true ↔
    r.mr = s.mr ∧ r.addr = s.addr ∧ r.offsetInRegion = s.offsetInRegion ∧
      r.romdMode = s.romdMode ∧ r.readonly = s.readonly := decide_eq_true_iff

theorem start_eq_of_flatrangeEqual (h : flatrangeEqual r s = true) :
    r.addr.start = s.addr.start := by
  rw [(flatrangeEqual_iff.1 h).2.1]

theorem toSection_eq_of_flatrangeEqual (h : flatrangeEqual r s = true) :
    r.toSection = s.toSection := by
  obtain ⟨hmr, haddr, hoffset, -, hro⟩ := flatrangeEqual_iff.1 h
  simp only [toSection, hmr, haddr, hoffset, hro]

theorem flatrangeEqual_eq_false (h : r.addr.start ≠ s.addr.start) : flatrangeEqual r s = false :=
  Bool.eq_false_iff.2 fun heq => h (start_eq_of_flatrangeEqual heq)

/-- The case in which the first old range goes: no new range is equal to it. -/
theorem not_equal_of_goes (hnew : Disjoint (frnew :: news))
    (h : frold.addr.start < frnew.addr.start ∨
      frold.addr.start = frnew.addr.start ∧ ¬ flatrangeEqual frold frnew) :
    ∀ s ∈ frnew :: news, flatrangeEqual frold s = false := by
  intro s hs
  rcases mem_cons.1 hs with rfl | hs
  · rcases h with h | h
    · exact flatrangeEqual_eq_false (ne_of_lt h)
    · exact Bool.eq_false_iff.2 h.2
  · have hlt := hnew.start_lt hs
    refine flatrangeEqual_eq_false (ne_of_lt (lt_of_le_of_lt ?_ hlt))
    exact h.elim le_of_lt fun h => le_of_eq h.1

/-- The case in which the first new range comes: no old range is equal to it. -/
theorem not_equal_of_comes (hold : Disjoint (frold :: olds))
    (h : ¬ (frold.addr.start < frnew.addr.start ∨
      frold.addr.start = frnew.addr.start ∧ ¬ flatrangeEqual frold frnew))
    (hne : ¬ flatrangeEqual frold frnew) : ∀ r ∈ frold :: olds, flatrangeEqual r frnew = false := by
  have hlt : frnew.addr.start < frold.addr.start := by
    rw [not_or, not_and, not_not] at h
    exact lt_of_le_of_ne (not_lt.1 h.1) fun heq => hne (h.2 heq.symm)
  refine forall_mem_cons.2 ⟨flatrangeEqual_eq_false (ne_of_gt hlt), fun r hr => ?_⟩
  exact flatrangeEqual_eq_false (ne_of_gt (lt_trans hlt (hold.start_lt hr)))

theorem hasEqual_eq_false (h : ∀ s ∈ view, flatrangeEqual r s = false) :
    hasEqual view r = false := by
  rw [hasEqual, any_eq_false]
  intro s hs
  rw [h s hs]
  decide

theorem hasEqual_cons_of_ne (h : flatrangeEqual r s = false) :
    hasEqual (s :: view) r = hasEqual view r := by
  rw [hasEqual, any_cons, h]
  rfl

/-- The first pass: the ranges of the old view that have no equal in the new one. -/
theorem topologyPass_del (hold : Disjoint old) (hnew : Disjoint new) : topologyPass false old new =
      (old.filter fun r => !hasEqual new r).map fun r => .regionDel r.toSection := by
  fun_induction topologyPass false old new with
  | case1 => rfl
  | case2 frnew news ih => rw [ih .nil hnew.tail]; rfl
  | case3 frold olds ih => rw [ih hold.tail .nil]; rfl
  | case4 frold olds frnew news hgoes ih =>
    have hnone := hasEqual_eq_false (not_equal_of_goes hnew hgoes)
    rw [ih hold.tail hnew, filter_cons_of_pos (by rw [hnone]; rfl)]
    rfl
  | case5 frold olds frnew news hstays heq ih =>
    have hsome : hasEqual (frnew :: news) frold = true := by
      rw [hasEqual, any_cons, heq, Bool.true_or]
    have hfilter : olds.filter (fun r => !hasEqual (frnew :: news) r) =
        olds.filter fun r => !hasEqual news r := by
      refine filter_congr fun r hr => ?_
      rw [hasEqual_cons_of_ne (flatrangeEqual_eq_false ?_)]
      rw [← start_eq_of_flatrangeEqual heq]
      exact ne_of_gt (hold.start_lt hr)
    rw [ih hold.tail hnew.tail,
      filter_cons_of_neg (by rw [hsome]; decide), hfilter]
    rfl
  | case6 frold olds frnew news hcomes hne ih =>
    have hfilter : (frold :: olds).filter (fun r => !hasEqual (frnew :: news) r) =
        (frold :: olds).filter fun r => !hasEqual news r := by
      refine filter_congr fun r hr => ?_
      rw [hasEqual_cons_of_ne (not_equal_of_comes hold hcomes hne r hr)]
    rw [ih hold hnew.tail, hfilter]
    rfl

/-- The calls of the second pass for a range of the new view. -/
def addCalls (old : List (FlatRange ρ)) (frnew : FlatRange ρ) : List (ListenerCall ρ) :=
  match old.find? (flatrangeEqual · frnew) with
  | some frold => unchanged frold frnew
  | none => [.regionAdd frnew.toSection]

theorem addCalls_cons_of_ne (h : flatrangeEqual r s = false) :
    addCalls (r :: view) s = addCalls view s := by
  rw [addCalls, find?_cons_of_neg (by rw [h]; decide)]
  rfl

theorem addCalls_of_ne (h : ∀ r ∈ view, flatrangeEqual r s = false) :
    addCalls view s = [.regionAdd s.toSection] := by
  have hfind : view.find? (flatrangeEqual · s) = none := by
    rw [find?_eq_none]
    intro r hr
    rw [h r hr]
    decide
  rw [addCalls, hfind]

/-- The second pass: the ranges of the new view, as unchanged if the old view has an equal one. -/
theorem topologyPass_add (hold : Disjoint old) (hnew : Disjoint new) :
    topologyPass true old new = new.flatMap (addCalls old) := by
  fun_induction topologyPass true old new with
  | case1 => rfl
  | case2 frnew news ih => rw [ih .nil hnew.tail]; rfl
  | case3 frold olds ih => rw [ih hold.tail .nil]; rfl
  | case4 frold olds frnew news hgoes ih =>
    rw [ih hold.tail hnew]
    refine flatMap_congr fun s hs => ?_
    rw [addCalls_cons_of_ne (not_equal_of_goes hnew hgoes s hs)]
  | case5 frold olds frnew news hstays heq ih =>
    have hfind : addCalls (frold :: olds) frnew = unchanged frold frnew := by
      simp only [addCalls, find?_cons, heq]
    have hrest : news.flatMap (addCalls (frold :: olds)) = news.flatMap (addCalls olds) := by
      refine flatMap_congr fun s hs => ?_
      rw [addCalls_cons_of_ne (flatrangeEqual_eq_false ?_)]
      rw [start_eq_of_flatrangeEqual heq]
      exact ne_of_lt (hnew.start_lt hs)
    rw [ih hold.tail hnew.tail, flatMap_cons, hfind, hrest]
    rfl
  | case6 frold olds frnew news hcomes hne ih =>
    rw [ih hold hnew.tail, flatMap_cons,
      addCalls_of_ne (not_equal_of_comes hold hcomes hne)]
    rfl

end Find

/-! ## Replaying the difference -/

def MemoryRegionSection.Apart (s t : MemoryRegionSection ρ) : Prop :=
  s.offsetWithinAddressSpace + s.size ≤ t.offsetWithinAddressSpace ∨
    t.offsetWithinAddressSpace + t.size ≤ s.offsetWithinAddressSpace

section Replay

variable [DecidableEq ρ] {old new view : List (FlatRange ρ)}
  {held held' held'' : List (MemoryRegionSection ρ)} {calls calls' : List (ListenerCall ρ)}

/-- A listener takes the calls, holds what satisfies `P` before and after each, and ends with
`held'`. -/
def Replays (P : List (MemoryRegionSection ρ) → Prop) (held : List (MemoryRegionSection ρ)) :
    List (ListenerCall ρ) → List (MemoryRegionSection ρ) → Prop
  | [], held' => P held ∧ held = held'
  | call :: calls, held' => P held ∧ ∃ next, call.apply held = some next ∧
    Replays P next calls held'

variable {P : List (MemoryRegionSection ρ) → Prop}

theorem Replays.append (h : Replays P held calls held') (h' : Replays P held' calls' held'') :
    Replays P held (calls ++ calls') held'' := by
  induction calls generalizing held with
  | nil =>
    obtain ⟨-, rfl⟩ := h
    exact h'
  | cons call calls ih =>
    obtain ⟨hP, next, hnext, h⟩ := h
    exact ⟨hP, next, hnext, ih h⟩

theorem replays_del (hP : ∀ l : List (MemoryRegionSection ρ), l.Nodup → (∀ s ∈ l, s ∈ held) → P l)
    (hnodup : held.Nodup) {dels : List (MemoryRegionSection ρ)} (hdels : dels.Nodup)
    (hmem : ∀ s ∈ dels, s ∈ held) :
    ∃ held', Replays P held (dels.map .regionDel) held' ∧ held'.Nodup ∧
      ∀ s, s ∈ held' ↔ s ∈ held ∧ s ∉ dels := by
  induction dels generalizing held with
  | nil => exact ⟨held, ⟨hP held hnodup fun _ hs => hs, rfl⟩, hnodup, by simp⟩
  | cons d dels ih =>
    obtain ⟨hd, hdels⟩ := nodup_cons.1 hdels
    have herase (s : MemoryRegionSection ρ) : s ∈ held.erase d ↔ s ≠ d ∧ s ∈ held :=
      hnodup.mem_erase_iff
    obtain ⟨held', hreplays, hnodup', hheld'⟩ := ih
      (fun l hl hsub => hP l hl fun s hs => ((herase s).1 (hsub s hs)).2) (hnodup.erase d) hdels
      fun s hs => (herase s).2 ⟨fun heq => hd (heq ▸ hs), hmem s (mem_cons_of_mem d hs)⟩
    refine ⟨held', ⟨hP held hnodup fun _ hs => hs, held.erase d, ?_, hreplays⟩, hnodup',
      fun s => ?_⟩
    · exact if_pos (hmem d mem_cons_self)
    rw [hheld', herase, mem_cons, not_or]
    constructor
    · rintro ⟨⟨h₁, h₂⟩, h₃⟩
      exact ⟨h₂, h₁, h₃⟩
    · rintro ⟨h₁, h₂, h₃⟩
      exact ⟨⟨h₂, h₁⟩, h₃⟩

theorem replays_unchanged (hP : P held) (frold : FlatRange ρ) {frnew : FlatRange ρ}
    (hmem : frnew.toSection ∈ held) : Replays P held (unchanged frold frnew) held := by
  have hlog {c : Prop} [Decidable c] {call : ListenerCall ρ} (hcall : call.apply held = some held) :
      Replays P held (if c then [call] else []) held := by
    split
    · exact ⟨hP, held, hcall, hP, rfl⟩
    · exact ⟨hP, rfl⟩
  have hnop : Replays P held [.regionNop frnew.toSection] held := ⟨hP, held, if_pos hmem, hP, rfl⟩
  exact (hnop.append (hlog rfl)).append (hlog rfl)

/-- Adding the ranges of the new view of which the old one has no equal. -/
theorem replays_add {ns : List (FlatRange ρ)} (hP : ∀ l : List (MemoryRegionSection ρ), l.Nodup →
      (∀ s ∈ l, s ∈ held ∨ s ∈ ns.map toSection) → P l) (hnodup : held.Nodup)
    (hns : (ns.map toSection).Nodup)
    (hheld : ∀ n ∈ ns, n.toSection ∈ held ↔ ∃ r ∈ old, flatrangeEqual r n = true) :
    ∃ held', Replays P held (ns.flatMap (addCalls old)) held' ∧ held'.Nodup ∧
      ∀ s, s ∈ held' ↔ s ∈ held ∨ s ∈ ns.map toSection := by
  induction ns generalizing held with
  | nil => exact ⟨held, ⟨hP held hnodup fun _ hs => .inl hs, rfl⟩, hnodup, by simp⟩
  | cons n ns ih =>
    rw [map_cons, nodup_cons] at hns
    have hP₀ := hP held hnodup fun _ hs => .inl hs
    cases hfind : old.find? (flatrangeEqual · n) with
    | some r =>
      have heq : flatrangeEqual r n = true := by simpa using find?_some hfind
      have hmem : n.toSection ∈ held :=
        (hheld n mem_cons_self).2 ⟨r, mem_of_find?_eq_some hfind, heq⟩
      obtain ⟨held', hreplays, hnodup', hheld'⟩ := ih
        (fun l hl hsub => hP l hl fun s hs => (hsub s hs).imp_right (mem_cons_of_mem _))
        hnodup hns.2 fun m hm => hheld m (mem_cons_of_mem n hm)
      refine ⟨held', Replays.append ?_ hreplays, hnodup', fun s => ?_⟩
      · rw [addCalls, hfind]
        exact replays_unchanged hP₀ r hmem
      rw [hheld', map_cons, mem_cons]
      constructor
      · exact Or.imp_right .inr
      rintro (h | rfl | h)
      · exact .inl h
      · exact .inl hmem
      · exact .inr h
    | none =>
      have hnot : n.toSection ∉ held := by
        rw [hheld n mem_cons_self]
        rintro ⟨r, hr, heq⟩
        exact find?_eq_none.1 hfind r hr heq
      have hP₁ (l : List (MemoryRegionSection ρ)) (hl : l.Nodup)
          (hsub : ∀ s ∈ l, s ∈ n.toSection :: held ∨ s ∈ ns.map toSection) : P l := by
        refine hP l hl fun s hs => ?_
        rw [map_cons, mem_cons]
        have h := hsub s hs
        rwa [mem_cons, or_assoc, or_left_comm] at h
      have hheld₁ (m : FlatRange ρ) (hm : m ∈ ns) :
          m.toSection ∈ n.toSection :: held ↔ ∃ r ∈ old, flatrangeEqual r m = true := by
        rw [← hheld m (mem_cons_of_mem n hm), mem_cons, or_iff_right]
        intro heq
        exact hns.1 (heq ▸ mem_map_of_mem hm)
      obtain ⟨held', hreplays, hnodup', hheld'⟩ := ih hP₁ (nodup_cons.2 ⟨hnot, hnodup⟩) hns.2
        hheld₁
      refine ⟨held', Replays.append ?_ hreplays, hnodup', fun s => ?_⟩
      · rw [addCalls, hfind]
        exact ⟨hP₀, n.toSection :: held, if_neg hnot,
          hP₁ _ (nodup_cons.2 ⟨hnot, hnodup⟩) fun _ hs => .inl hs, rfl⟩
      · rw [hheld', mem_cons, map_cons, mem_cons, or_assoc, or_left_comm]

end Replay

def nops : List (ListenerCall ρ) → List (MemoryRegionSection ρ) :=
  filterMap fun
    | .regionNop s => some s
    | _ => none

theorem nops_regionDel (l : List (MemoryRegionSection ρ)) : nops (l.map .regionDel) = [] := by
  induction l with
  | nil => rfl
  | cons s l ih => exact ih

variable {view : List (FlatRange ρ)}

theorem Disjoint.nodup_toSection (h : Disjoint view) : (view.map toSection).Nodup := by
  refine pairwise_map.2 (h.imp fun hlt heq => ?_)
  have hstart := congrArg MemoryRegionSection.offsetWithinAddressSpace heq
  exact absurd hstart (ne_of_lt hlt.1)

instance : Std.Symm (MemoryRegionSection.Apart (ρ := ρ)) := ⟨fun _ _ => Or.symm⟩

/-- Some sections of a view, each at most once, have no address in common. -/
theorem Disjoint.pairwise_apart (h : Disjoint view)
    {l : List (MemoryRegionSection ρ)} (hl : l.Nodup) (hsub : ∀ s ∈ l, s ∈ view.map toSection) :
    l.Pairwise MemoryRegionSection.Apart := by
  have hview : (view.map toSection).Pairwise MemoryRegionSection.Apart :=
    pairwise_map.2 (h.imp fun hlt => .inl hlt.2)
  exact hl.pairwise_of_forall_ne fun s hs t ht hne => hview.forall (hsub s hs) (hsub t ht) hne

theorem Disjoint.eq_of_toSection_eq (h : Disjoint view) {r s : FlatRange ρ}
    (hr : r ∈ view) (hs : s ∈ view) (heq : r.toSection = s.toSection) : r = s :=
  inj_on_of_nodup_map h.nodup_toSection hr hs heq

section Update

variable [DecidableEq ρ] {old new view : List (FlatRange ρ)}

def goneSections (old new : List (FlatRange ρ)) : List (MemoryRegionSection ρ) :=
  (old.filter fun r => !hasEqual new r).map toSection

/-- An old section stays if it is the section of an old range with an equal in the new view. -/
theorem toSection_notMem_goneSections_iff (hold : Disjoint old) {r : FlatRange ρ} (hr : r ∈ old) :
    r.toSection ∉ goneSections old new ↔ hasEqual new r = true := by
  simp only [goneSections, mem_map, mem_filter, not_exists, not_and]
  constructor
  · intro h
    by_contra hne
    exact h r ⟨hr, by simpa using hne⟩ rfl
  rintro h s ⟨hs, hne⟩ heq
  obtain rfl := hold.eq_of_toSection_eq hs hr heq
  rw [h] at hne
  exact absurd hne (by decide)

/-- The sections left after the first pass are those of the new ranges that have an equal. -/
theorem toSection_mem_iff_of_left (hold : Disjoint old) (hnew : Disjoint new)
    {held : List (MemoryRegionSection ρ)}
    (hheld : ∀ s, s ∈ held ↔ s ∈ old.map toSection ∧ s ∉ goneSections old new) :
    (∀ s ∈ held, s ∈ new.map toSection) ∧
      ∀ n ∈ new, n.toSection ∈ held ↔ ∃ r ∈ old, flatrangeEqual r n = true := by
  have hleft {s : MemoryRegionSection ρ} (hs : s ∈ held) :
      ∃ r ∈ old, ∃ n ∈ new, flatrangeEqual r n = true ∧ r.toSection = s := by
    obtain ⟨hmem, hgone⟩ := (hheld s).1 hs
    obtain ⟨r, hr, rfl⟩ := mem_map.1 hmem
    have hequal := (toSection_notMem_goneSections_iff hold hr).1 hgone
    obtain ⟨n, hn, heq⟩ := any_eq_true.1 hequal
    exact ⟨r, hr, n, hn, heq, rfl⟩
  refine ⟨fun s hs => ?_, fun n hn => ⟨fun hs => ?_, ?_⟩⟩
  · obtain ⟨r, -, n, hn, heq, rfl⟩ := hleft hs
    rw [toSection_eq_of_flatrangeEqual heq]
    exact mem_map_of_mem hn
  · obtain ⟨r, hr, m, hm, heq, hsec⟩ := hleft hs
    obtain rfl :=
      hnew.eq_of_toSection_eq hm hn ((toSection_eq_of_flatrangeEqual heq).symm.trans hsec)
    exact ⟨r, hr, heq⟩
  · rintro ⟨r, hr, heq⟩
    rw [hheld, ← toSection_eq_of_flatrangeEqual heq, toSection_notMem_goneSections_iff hold hr]
    exact ⟨mem_map_of_mem hr, any_eq_true.2 ⟨n, hn, heq⟩⟩

section

variable (old)

theorem nops_addCalls (n : FlatRange ρ) :
    nops (addCalls old n) = if old.any (flatrangeEqual · n) then [n.toSection] else [] := by
  cases hfind : old.find? (flatrangeEqual · n) with
  | some r =>
    have hany : old.any (flatrangeEqual · n) = true :=
      any_eq_true.2 ⟨r, mem_of_find?_eq_some hfind, by simpa using find?_some hfind⟩
    rw [addCalls, hfind]
    simp only [unchanged, nops, filterMap_append]
    split <;> split <;> rfl
  | none =>
    have hany : old.any (flatrangeEqual · n) = false := by
      rw [any_eq_false]
      exact find?_eq_none.1 hfind
    rw [addCalls, hfind, hany]
    rfl

theorem nops_flatMap_addCalls (new : List (FlatRange ρ)) : nops (new.flatMap (addCalls old)) =
    (new.filter fun n => old.any (flatrangeEqual · n)).map toSection := by
  induction new with
  | nil => rfl
  | cons n new ih =>
    have happend : nops (addCalls old n ++ new.flatMap (addCalls old)) =
        nops (addCalls old n) ++ nops (new.flatMap (addCalls old)) := filterMap_append
    rw [flatMap_cons, happend, ih, nops_addCalls, filter_cons]
    split
    · rfl
    · rfl

end

/-- A listener that holds the sections of the old view and takes the calls of both passes is never
told that a section goes or stays that it does not hold, nor that one comes that it holds; what it
holds is disjoint at any time; and it ends with the sections of the new view.  It is told that a
section is unchanged for exactly the ranges that are equal in both views. -/
theorem topology_update_replays (old new : List (FlatRange ρ)) (hold : Disjoint old)
    (hnew : Disjoint new) :
    (∃ held, Replays (fun l => l.Pairwise MemoryRegionSection.Apart) (old.map toSection)
      (updateTopology old new) held ∧ held.Perm (new.map toSection)) ∧
    nops (updateTopology old new) =
      (new.filter fun n => old.any (flatrangeEqual · n)).map toSection := by
  have hdel : (old.filter fun r => !hasEqual new r).map (fun r => .regionDel r.toSection) =
      (goneSections old new).map ListenerCall.regionDel := by
    rw [goneSections, map_map]
    rfl
  have hgone : (goneSections old new).Sublist (old.map toSection) :=
    (filter_sublist (l := old)).map toSection
  rw [updateTopology, topologyPass_del hold hnew, topologyPass_add hold hnew, hdel]
  constructor
  · obtain ⟨left, hreplays, hnodup, hleft⟩ :=
      replays_del (P := fun l => l.Pairwise MemoryRegionSection.Apart)
        (fun l hl hsub => hold.pairwise_apart hl hsub) hold.nodup_toSection
        (hold.nodup_toSection.sublist hgone) fun s hs => hgone.subset hs
    obtain ⟨hsub, hequal⟩ := toSection_mem_iff_of_left hold hnew hleft
    obtain ⟨held, hreplays', hnodup', hheld⟩ :=
      replays_add (P := fun l => l.Pairwise MemoryRegionSection.Apart)
        (fun l hl h => hnew.pairwise_apart hl fun s hs => (h s hs).elim (hsub s) id) hnodup
        hnew.nodup_toSection hequal
    refine ⟨held, hreplays.append hreplays', ?_⟩
    rw [perm_ext_iff_of_nodup hnodup' hnew.nodup_toSection]
    intro s
    rw [hheld, or_iff_right_of_imp (hsub s)]
  · have happend (l l' : List (ListenerCall ρ)) : nops (l ++ l') = nops l ++ nops l' :=
      filterMap_append
    rw [happend, nops_regionDel, nops_flatMap_addCalls, nil_append]

end Update

/-- Two ranges, of which the second becomes read-only. -/
def flippedView (readonly : Bool) : List (FlatRange Nat) :=
  [⟨1, 0, ⟨0, 0x1000⟩, 0, false, false⟩, ⟨2, 0x400, ⟨0x1000, 0x800⟩, 0, false, readonly⟩]

theorem topology_update_replays_flippedView :
    (∃ held, Replays (fun l => l.Pairwise MemoryRegionSection.Apart)
      ((flippedView false).map toSection)
      (updateTopology (flippedView false) (flippedView true)) held ∧
        held.Perm ((flippedView true).map toSection)) ∧
    nops (updateTopology (flippedView false) (flippedView true)) = [⟨1, 0, 0x1000, 0, false⟩] := by
  have hdisjoint (readonly : Bool) : Disjoint (flippedView readonly) := by
    simp [Disjoint, flippedView, AddrRange.end]
  exact topology_update_replays (flippedView false) (flippedView true) (hdisjoint false)
    (hdisjoint true)

end QemuAndroid.Memory
