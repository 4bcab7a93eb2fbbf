import QemuAndroid.Exec.Compact
import QemuAndroid.Exec.FlatView

/-!
# The dispatch refines the flat view

The state of a dispatch while its view is registered, piece by piece (`Built`).  A
page is free, lies in a section of whole pages, or has a subpage; the section that
is found for an address is the one that the pieces registered so far give for it
(`PageOk`).  Each section of the tree covers exactly the pages that are mapped to
it, which is what the range check of `phys_page_find` relies on once the tree is
compacted (`physPageFind_eq`).
-/

namespace QemuAndroid.Exec

open Lib List Option Finset Nat

variable {ρ : Type} {p x addr t : Nat} {s : MemoryRegionSection ρ}
  {done done' : List (MemoryRegionSection ρ)} {subs subs' : Finset Nat}
  {pageOf pageOf' m m' : Nat → Nat} {d d' : Dispatch ρ}

/-! ## Pages -/

/-- The pages that a list of pieces needs a subpage for. -/
def subpagesOf (p : Nat) (ps : List (MemoryRegionSection ρ)) : Finset Nat :=
  ((ps.filter fun s => decide (s.size < 2 ^ p)).map fun s =>
    s.offsetWithinAddressSpace / 2 ^ p).toFinset

/-- The section with number `t` says about `addr` what the pieces `done` say. -/
def SectionOk (done : List (MemoryRegionSection ρ)) (d : Dispatch ρ) (addr t : Nat) : Prop :=
  t = sectionUnassigned ∧ lookupFlat done addr = none ∨
    ∃ s, d.sections[t]? = some s ∧ lookupFlat done addr = some (s.target addr)

/-- What the map says about page `x`, when `done` is registered.  `pageOf` gives the page of a
subpage, and `subs` are the pages that have one. -/
inductive PageOk (p : Nat) (done : List (MemoryRegionSection ρ)) (subs : Finset Nat)
    (pageOf : Nat → Nat) (d : Dispatch ρ) (m : Nat → Nat) (x : Nat) : Prop
  | free (hm : m x = sectionUnassigned)
      (hnone : ∀ addr, addr / 2 ^ p = x → lookupFlat done addr = none)
  | whole (s : MemoryRegionSection ρ) (hm : m x ≠ sectionUnassigned)
      (hs : d.sections[m x]? = some s) (hok : s.Ok)
      (hexact : ∀ addr, s.Covers addr → m (addr / 2 ^ p) = m x)
      (hsome : ∀ addr, addr / 2 ^ p = x → s.Covers addr ∧
        lookupFlat done addr = some (s.target addr))
  | sub (k : Nat) (subSection : Nat → Nat) (hm : m x ≠ sectionUnassigned)
      (hs : d.sections[m x]? = some ⟨.subpage k, x * 2 ^ p, 0, 2 ^ p⟩)
      (hx : x * 2 ^ p + 2 ^ p ≤ 2 ^ 64) (hk : d.subpages[k]? = some subSection)
      (hpage : pageOf k = x) (hsubs : x ∈ subs)
      (htable : ∀ addr, addr / 2 ^ p = x → SectionOk done d addr (subSection (addr % 2 ^ p)))

/-- What a dispatch says, when the pieces `done` are registered. -/
structure Says (p : Nat) (done : List (MemoryRegionSection ρ)) (subs : Finset Nat)
    (pageOf : Nat → Nat) (d : Dispatch ρ) (m : Nat → Nat) : Prop where
  unassigned : d.sections[sectionUnassigned]? = some (dummySection .unassigned)
  page : ∀ x, PageOk p done subs pageOf d m x

/-- The dispatch with the pieces `done` registered, before compaction. -/
structure Built (p : Nat) (done : List (MemoryRegionSection ρ)) (subs : Finset Nat)
    (pageOf : Nat → Nat) (d : Dispatch ρ) (m : Nat → Nat) : Prop extends
    Says p done subs pageOf d m where
  maps : Maps p d m
  length : d.sections.length = 4 + done.length + subs.card
  nodes : d.nodesNb ≤ 3 * l2Levels p * d.sections.length

theorem getElem?_of_extension {l l' : List (MemoryRegionSection ρ)} (h : l <+: l')
    (hs : l[t]? = some s) : l'[t]? = some s := by
  obtain ⟨l₂, rfl⟩ := h
  rw [getElem?_append_left (List.getElem?_eq_some_iff.1 hs).1, hs]

theorem SectionOk.mono (h : SectionOk done d addr t) (hsec : d.sections <+: d'.sections)
    (hdone : lookupFlat done' addr = lookupFlat done addr) : SectionOk done' d' addr t := by
  unfold SectionOk
  rw [hdone]
  exact h.imp_right fun ⟨s, hs, hl⟩ => ⟨s, getElem?_of_extension hsec hs, hl⟩

/-- A page is not affected by sections that are added and by pieces elsewhere. -/
theorem PageOk.mono (h : PageOk p done subs pageOf d m x) (hsec : d.sections <+: d'.sections)
    (hsub : ∀ (k : Nat) t, pageOf k = x → d.subpages[k]? = some t →
      d'.subpages[k]? = some t ∧ pageOf' k = x) (hm : ∀ y, m y ≠ sectionUnassigned → m' y = m y)
    (hmx : m' x = m x) (hsubs : subs ⊆ subs')
    (hdone : ∀ addr, addr / 2 ^ p = x → lookupFlat done' addr = lookupFlat done addr) :
    PageOk p done' subs' pageOf' d' m' x := by
  cases h with
  | free hfree hnone =>
    exact .free (hmx.trans hfree) fun addr haddr => (hdone addr haddr).trans (hnone addr haddr)
  | whole s hne hs hok hexact hsome =>
    refine .whole s (by rwa [hmx]) (by rw [hmx]; exact getElem?_of_extension hsec hs) hok
      (fun addr hc => ?_) fun addr haddr => ?_
    · have hy := hexact addr hc
      rw [hmx, hm _ (by rwa [hy]), hy]
    · rw [hdone addr haddr]
      exact hsome addr haddr
  | sub k t hne hs hx hk hpage hmem htable =>
    obtain ⟨hk', hpage'⟩ := hsub k t hpage hk
    exact .sub k t (by rwa [hmx]) (by rw [hmx]; exact getElem?_of_extension hsec hs) hx hk' hpage'
      (hsubs hmem) fun addr haddr => (htable addr haddr).mono hsec (hdone addr haddr)

/-- The section of a page covers exactly the pages that are mapped to it. -/
theorem PageOk.section_spec (h : PageOk p done subs pageOf d m x) (hne : m x ≠ sectionUnassigned) :
    ∃ s, d.sections[m x]? = some s ∧ 0 < s.size ∧ s.offsetWithinAddressSpace + s.size ≤ 2 ^ 64 ∧
      (∀ addr, s.Covers addr → m (addr / 2 ^ p) = m x) ∧
      ∀ addr, addr / 2 ^ p = x → s.Covers addr := by
  have hP : 0 < 2 ^ p := Nat.pow_pos (by decide)
  cases h with
  | free hm => exact absurd hm hne
  | whole s _ hs hok hexact hsome =>
    exact ⟨s, hs, hok.pos, hok.le, hexact, fun addr haddr => (hsome addr haddr).1⟩
  | sub k t _ hs hx =>
    refine ⟨_, hs, hP, hx, fun addr hc => ?_, fun addr haddr => ?_⟩
    · have hdiv : addr / 2 ^ p = x := by
        rw [Nat.div_eq_iff hP]
        have := hc.1
        have := hc.2
        simp only at *
        omega
      rw [hdiv]
    · rw [Nat.div_eq_iff hP] at haddr
      refine ⟨haddr.1, ?_⟩
      show addr < x * 2 ^ p + 2 ^ p
      omega

/-! ## Looking an address up -/

/-- A section passes the range check exactly where it lies. -/
theorem rangeCheck_iff (hpos : 0 < s.size) (hle : s.offsetWithinAddressSpace + s.size ≤ 2 ^ 64)
    (haddr : addr < 2 ^ 64) : (2 ^ 64 ≤ s.size ∨
      rangeCoversByte s.offsetWithinAddressSpace (s.size % 2 ^ 64) addr = true) ↔
      s.Covers addr := by
  simp only [rangeCoversByte, Bool.and_eq_true, decide_eq_true_eq, MemoryRegionSection.Covers]
  omega

/-- `phys_page_find` gives the section of the page, as long as its loop ends at a section of the
map, and at the right one for a page that is mapped. -/
theorem physPageFind_eq (h : Says p done subs pageOf d m) (haddr : addr < 2 ^ 64) {s : Nat}
    (hfind : findLoop d (addr / 2 ^ p) (l2Levels p + 1) (l2Levels p) d.physMap = some s)
    (hs : s = sectionUnassigned ∨ ∃ y, m y = s)
    (hmem : m (addr / 2 ^ p) ≠ sectionUnassigned → s = m (addr / 2 ^ p)) :
    physPageFind p d addr = some (m (addr / 2 ^ p)) := by
  rcases eq_or_ne s sectionUnassigned with rfl | hne
  · have hzero : m (addr / 2 ^ p) = sectionUnassigned := by
      by_contra hne
      exact hne (hmem hne).symm
    simp [physPageFind, hfind, h.unassigned, hzero, dummySection]
  obtain ⟨y, rfl⟩ := hs.resolve_left hne
  obtain ⟨sec, hsec, hpos, hle, hexact, hcovers⟩ := (h.page y).section_spec hne
  simp only [physPageFind, hfind, hsec, bind_eq_bind, bind_some, Option.pure_def,
    rangeCheck_iff hpos hle haddr]
  split
  · next hc => rw [hexact addr hc]
  · next hc =>
    -- a mapped page would have been found, so its section would cover the address
    congr 1
    by_contra hx
    obtain ⟨sec', hsec', -, -, -, hcovers'⟩ := (h.page _).section_spec (Ne.symm hx)
    rw [← hmem (Ne.symm hx), hsec] at hsec'
    obtain rfl : sec = sec' := some.inj hsec'
    exact hc (hcovers' addr rfl)

/-- `address_space_lookup_region` gives the section that the pieces give for the address, and the
unassigned section if they give none. -/
theorem addressSpaceLookupRegion_spec (h : Says p done subs pageOf d m)
    (hfind : physPageFind p d addr = some (m (addr / 2 ^ p))) :
    ∃ s, addressSpaceLookupRegion p d addr true = some s ∧
      (lookupFlat done addr = none ∧ s = dummySection .unassigned ∨
        lookupFlat done addr = some (s.target addr)) := by
  cases h.page (addr / 2 ^ p) with
  | free hm hnone =>
    refine ⟨dummySection .unassigned, ?_, .inl ⟨hnone addr rfl, rfl⟩⟩
    simp [addressSpaceLookupRegion, hfind, hm, h.unassigned, dummySection]
  | whole s _ hs hok _ hsome =>
    refine ⟨s, ?_, .inr (hsome addr rfl).2⟩
    have hplain := hok.plain
    simp only [addressSpaceLookupRegion, hfind, hs, bind_eq_bind, bind_some]
    split
    · next k hk =>
      rw [hk] at hplain
      exact absurd hplain (by simp [MemoryRegion.isSubpage])
    · rfl
  | sub k t _ hs _ hk _ _ htable =>
    have hlookup : addressSpaceLookupRegion p d addr true = d.sections[t (addr % 2 ^ p)]? := by
      simp [addressSpaceLookupRegion, hfind, hs, hk]
    rw [hlookup]
    rcases htable addr rfl with ⟨ht, hnone⟩ | ⟨s, hs', hsome⟩
    · exact ⟨_, by rw [ht]; exact h.unassigned, .inl ⟨hnone, rfl⟩⟩
    · exact ⟨s, hs', .inr hsome⟩

/-! ## Registering a piece -/

/-- A section number fits in 16 bits. -/
theorem physSectionAdd_eq (hp : p ≤ 16) (s : MemoryRegionSection ρ)
    (hroom : d.sections.length < 2 ^ p) : physSectionAdd p d s =
      some ({ d with sections := d.sections ++ [s] }, d.sections.length) := by
  have hP : 2 ^ p ≤ 2 ^ 16 := Nat.pow_le_pow_right (by decide) hp
  rw [physSectionAdd, if_pos hroom, mod_eq_of_lt (by omega)]

theorem lookupFlat_concat (hfree : ∀ addr, s.Covers addr → lookupFlat done addr = none)
    (addr : Nat) : lookupFlat (done ++ [s]) addr =
      if s.Covers addr then some (s.target addr) else lookupFlat done addr := by
  rw [lookupFlat_append, lookupFlat_cons, lookupFlat_nil]
  split
  · next h => rw [hfree addr h, none_or]
  · rw [or_none]

/-- The tree has room for every page number. -/
theorem pages_le (hp : p ≤ 16) (hx : x * 2 ^ p ≤ 2 ^ 64) : x ≤ l2Size ^ l2Levels p := by
  have hM : 2 ^ 64 = 2 ^ (64 - p) * 2 ^ p := by rw [← Nat.pow_add, Nat.sub_add_cancel (by omega)]
  have hpow : l2Size ^ l2Levels p = 2 ^ (9 * l2Levels p) := by rw [pow_mul]; rfl
  rw [hM] at hx
  calc x ≤ 2 ^ (64 - p) := Nat.le_of_mul_le_mul_right hx (Nat.two_pow_pos p)
    _ ≤ 2 ^ (9 * l2Levels p) := Nat.pow_le_pow_right (by decide) (by unfold l2Levels; omega)
    _ = l2Size ^ l2Levels p := hpow.symm

/-- The pages of a section of whole pages. -/
theorem div_mem_iff (halign : s.offsetWithinAddressSpace % 2 ^ p = 0) (hsize : s.size % 2 ^ p = 0)
    (addr : Nat) : s.Covers addr ↔ s.offsetWithinAddressSpace / 2 ^ p ≤ addr / 2 ^ p ∧
      addr / 2 ^ p < s.offsetWithinAddressSpace / 2 ^ p + s.size / 2 ^ p := by
  have hP := Nat.two_pow_pos p
  obtain ⟨a, ha⟩ := dvd_of_mod_eq_zero halign
  obtain ⟨b, hb⟩ := dvd_of_mod_eq_zero hsize
  unfold MemoryRegionSection.Covers
  rw [ha, hb, Nat.mul_div_cancel_left _ hP, Nat.mul_div_cancel_left _ hP, ← mul_add,
    le_div_iff_mul_le hP, Nat.div_lt_iff_lt_mul hP, mul_comm a, mul_comm (a + b)]

theorem covers_iff_mod (hfit : s.offsetWithinAddressSpace % 2 ^ p + s.size ≤ 2 ^ p) (addr : Nat) :
    s.Covers addr ↔ addr / 2 ^ p = s.offsetWithinAddressSpace / 2 ^ p ∧
      s.offsetWithinAddressSpace % 2 ^ p ≤ addr % 2 ^ p ∧
      addr % 2 ^ p < s.offsetWithinAddressSpace % 2 ^ p + s.size := by
  have hP := Nat.two_pow_pos p
  have hs := div_add_mod s.offsetWithinAddressSpace (2 ^ p)
  have ha := div_add_mod addr (2 ^ p)
  unfold MemoryRegionSection.Covers
  constructor
  · rintro ⟨h₁, h₂⟩
    have hdiv : addr / 2 ^ p = s.offsetWithinAddressSpace / 2 ^ p := by
      apply le_antisymm
      · rw [← Nat.lt_succ_iff, Nat.div_lt_iff_lt_mul hP, succ_mul, mul_comm]
        omega
      · exact Nat.div_le_div_right h₁
    rw [hdiv] at ha
    exact ⟨hdiv, by omega, by omega⟩
  · rintro ⟨hdiv, h₁, h₂⟩
    rw [hdiv] at ha
    omega

/-- The page of an address lies in the address space. -/
theorem page_end_le (hp : p ≤ 16) (haddr : addr < 2 ^ 64) :
    (addr / 2 ^ p + 1) * 2 ^ p ≤ 2 ^ 64 := by
  have hM : 2 ^ 64 = 2 ^ (64 - p) * 2 ^ p := by rw [← Nat.pow_add, Nat.sub_add_cancel (by omega)]
  have hlt : addr / 2 ^ p < 2 ^ (64 - p) := by
    rw [Nat.div_lt_iff_lt_mul (Nat.two_pow_pos p), ← hM]
    exact haddr
  rw [hM]
  exact mul_le_mul_right _ hlt

section Register

variable (hp : p ≤ 16) (hb : Built p done subs pageOf d m)

include hp hb

/-- There are far fewer nodes than node numbers. -/
theorem Built.nodes_le (hroom : d.sections.length ≤ 2 ^ p) :
    d.nodesNb + 3 * l2Levels p ≤ nodeNil := by
  have hP : 2 ^ p ≤ 2 ^ 16 := Nat.pow_le_pow_right (by decide) hp
  have hL : l2Levels p ≤ 8 := by unfold l2Levels; omega
  have hmul : 3 * l2Levels p * d.sections.length ≤ 24 * 2 ^ 16 :=
    Nat.mul_le_mul (by omega) (by omega)
  have hnodes := hb.nodes
  have hnil : nodeNil = 67108863 := by decide
  omega

/-- A new section, and perhaps new subpages, for a range of free pages: it is left to show what is
found there. -/
theorem Built.setPages (s : MemoryRegionSection ρ) (tables : List (Nat → Nat)) (a n : Nat)
    (hroom : d.sections.length < 2 ^ p) (hpos : 0 < n) (hend : (a + n) * 2 ^ p ≤ 2 ^ 64)
    (hfree : ∀ x, a ≤ x → x < a + n → m x = sectionUnassigned)
    (hlength : 4 + done'.length + subs'.card = d.sections.length + 1) (hsubs : subs ⊆ subs')
    (hpageOf : ∀ k < d.subpages.length, pageOf' k = pageOf k)
    (hdone : ∀ addr, ¬(a ≤ addr / 2 ^ p ∧ addr / 2 ^ p < a + n) →
      lookupFlat done' addr = lookupFlat done addr)
    (hnew : ∀ d' : Dispatch ρ, d'.sections[d.sections.length]? = some s →
      d'.subpages = d.subpages ++ tables → d.sections.length ≠ sectionUnassigned →
      ∀ x, a ≤ x → x < a + n →
        PageOk p done' subs' pageOf' d' (fill m a (a + n) d.sections.length) x) :
    ∃ d', physPageSet p { d with sections := d.sections ++ [s], subpages := d.subpages ++ tables }
        a n d.sections.length = some d' ∧ d'.sections = d.sections ++ [s] ∧
      Built p done' subs' pageOf' d' (fill m a (a + n) d.sections.length) := by
  have hne : d.sections.length ≠ sectionUnassigned := by
    show d.sections.length ≠ 0
    omega
  have hnil := hb.nodes_le hp hroom.le
  obtain ⟨d', hset, hmaps, hsections, hsubpages, hnodes⟩ :=
    physPageSet_spec
      (d := { d with sections := d.sections ++ [s], subpages := d.subpages ++ tables })
      hb.maps hne hpos (pages_le hp hend) hfree hnil
  have hsec : d.sections <+: d'.sections := ⟨[s], hsections.symm⟩
  have hlast : d'.sections[d.sections.length]? = some s := by
    rw [hsections]
    exact getElem?_concat_length
  refine ⟨d', hset, hsections, ⟨getElem?_of_extension hsec hb.unassigned, fun x => ?_⟩, hmaps,
    ?_, ?_⟩
  · by_cases hx : a ≤ x ∧ x < a + n
    · exact hnew d' hlast hsubpages hne x hx.1 hx.2
    refine (hb.page x).mono hsec ?_ (fun y hy => fill_of_notMem ?_) (fill_of_notMem hx) hsubs ?_
    · intro k t hk ht
      have hlt := (List.getElem?_eq_some_iff.1 ht).1
      refine ⟨?_, (hpageOf k hlt).trans hk⟩
      rw [hsubpages]
      exact (getElem?_append_left hlt).trans ht
    · exact fun h => hy (hfree y h.1 h.2)
    · rintro addr rfl
      exact hdone addr hx
  · rw [hsections, length_append, length_singleton, hlength]
  · rw [hsections, length_append]
    exact hnodes.trans (Nat.add_le_add_right hb.nodes _)

/-- The entry of a page, found in the tree before compaction. -/
theorem Built.physPageFind_page (hx : (x + 1) * 2 ^ p ≤ 2 ^ 64) :
    physPageFind p d (x * 2 ^ p) = some (m x) := by
  have hP := Nat.two_pow_pos p
  have hdiv : x * 2 ^ p / 2 ^ p = x := Nat.mul_div_cancel _ hP
  have haddr : x * 2 ^ p < 2 ^ 64 := by
    rw [succ_mul] at hx
    omega
  have hfind := physPageFind_eq hb.toSays haddr
    (by rw [hdiv]; exact findLoop_of_maps hb.maps (pages_le hp hx)) (.inr ⟨x, rfl⟩)
    (by rw [hdiv]; exact fun _ => rfl)
  rwa [hdiv] at hfind

theorem findSubpage_new (hx : (x + 1) * 2 ^ p ≤ 2 ^ 64) (hm : m x = sectionUnassigned)
    (hnone : ∀ addr, addr / 2 ^ p = x → lookupFlat done addr = none) (hsubs : x ∉ subs)
    (hroom : d.sections.length < 2 ^ p) :
    ∃ d' m' pageOf', findSubpage p d (x * 2 ^ p) = some (d', d.subpages.length) ∧
      Built p done (insert x subs) pageOf' d' m' ∧ m' x ≠ sectionUnassigned ∧
      d'.sections[m' x]? = some ⟨.subpage d.subpages.length, x * 2 ^ p, 0, 2 ^ p⟩ := by
  have hlength := hb.length
  have hmx : fill m x (x + 1) d.sections.length x = d.sections.length :=
    fill_of_mem (le_refl x) (lt_succ_self x)
  let table := subpageRegister p (fun _ => 0) 0 (2 ^ p - 1) sectionUnassigned
  let s : MemoryRegionSection ρ := ⟨.subpage d.subpages.length, x * 2 ^ p, 0, 2 ^ p⟩
  refine (hb.setPages hp s [table] x 1 hroom one_pos hx
    (fun y h₁ h₂ => by rwa [show y = x by omega])
    (by rw [card_insert_of_notMem hsubs]; omega) (subset_insert x subs)
    (fun k hk => Function.update_of_ne hk.ne x pageOf) (fun _ _ => rfl) ?_).imp
    fun d' ⟨hset, hsections, hb'⟩ => ⟨_, _, ?_, hb', ?_, ?_⟩
  · intro d' hlast hsubpages hne y h₁ h₂
    obtain rfl : y = x := by omega
    refine .sub d.subpages.length table (by rwa [hmx]) (by rwa [hmx])
      (by rwa [succ_mul] at hx) ?_ (Function.update_self ..) (mem_insert_self ..)
      fun addr haddr => .inl ⟨?_, hnone addr haddr⟩
    · rw [hsubpages]
      exact getElem?_concat_length
    · unfold table subpageRegister
      split <;> simp [sectionUnassigned]
  · have hadd := physSectionAdd_eq hp s (d := (subpageInit p d).1) hroom
    simp only [subpageInit] at hadd
    simp only [findSubpage, hb.physPageFind_page hp hx, hm, hb.unassigned, dummySection,
      bind_eq_bind, bind_some, subpageInit, s, hadd]
    simp only [Nat.mul_div_cancel _ (Nat.two_pow_pos p)]
    rw [show physPageSet p _ x 1 _ = some d' from hset]
    rfl
  · rw [hmx]
    show d.sections.length ≠ 0
    omega
  · rw [hmx, hsections]
    exact getElem?_concat_length

omit hp

/-- A piece of a page that has the subpage `k` goes into its table. -/
theorem Built.addPart (hpos : 0 < s.size)
    (hfit : s.offsetWithinAddressSpace % 2 ^ p + s.size ≤ 2 ^ p)
    (hfree : ∀ addr, s.Covers addr → lookupFlat done addr = none) {k : Nat}
    (hdiv : s.offsetWithinAddressSpace / 2 ^ p = x) (hmx : m x ≠ sectionUnassigned)
    (hsec : d.sections[m x]? = some ⟨.subpage k, x * 2 ^ p, 0, 2 ^ p⟩) :
    ∃ t, d.subpages[k]? = some t ∧ Built p (done ++ [s]) subs pageOf { d with
        sections := d.sections ++ [s]
        subpages := d.subpages.set k (subpageRegister p t (s.offsetWithinAddressSpace % 2 ^ p)
          (s.offsetWithinAddressSpace % 2 ^ p + s.size - 1) d.sections.length) } m := by
  have hcovers := covers_iff_mod hfit
  have hprefix : d.sections <+: d.sections ++ [s] := ⟨[s], rfl⟩
  cases hb.page x with
  | free hm => exact absurd hm hmx
  | whole s' _ hs' hok =>
    rw [hsec] at hs'
    have hplain := hok.plain
    rw [← some.inj hs'] at hplain
    exact absurd hplain (by simp [MemoryRegion.isSubpage])
  | sub k' t _ hs' hx hk hpage hmem htable =>
    rw [hsec] at hs'
    obtain rfl : k = k' := by simpa using hs'
    have hlt := (List.getElem?_eq_some_iff.1 hk).1
    refine ⟨t, hk, ⟨getElem?_of_extension hprefix hb.unassigned, fun y => ?_⟩,
      hb.maps, ?_, ?_⟩
    · rcases eq_or_ne y x with rfl | hy
      · refine .sub k _ hmx (getElem?_of_extension hprefix hsec) hx (getElem?_set_self hlt) hpage
          hmem fun addr haddr => ?_
        have hc := hcovers addr
        rw [haddr, hdiv] at hc
        unfold subpageRegister
        rw [if_neg (by omega)]
        by_cases hin : s.Covers addr
        · have hidx := (hc.1 hin).2
          refine .inr ⟨s, ?_, by rw [lookupFlat_concat hfree, if_pos hin]⟩
          simp only [if_pos (show s.offsetWithinAddressSpace % 2 ^ p ≤ addr % 2 ^ p ∧
            addr % 2 ^ p ≤ s.offsetWithinAddressSpace % 2 ^ p + s.size - 1 by omega)]
          exact getElem?_concat_length
        have hidx : ¬ (s.offsetWithinAddressSpace % 2 ^ p ≤ addr % 2 ^ p ∧
            addr % 2 ^ p ≤ s.offsetWithinAddressSpace % 2 ^ p + s.size - 1) :=
          fun h => hin (hc.2 ⟨rfl, by omega⟩)
        simp only [if_neg hidx]
        exact (htable addr haddr).mono hprefix (by rw [lookupFlat_concat hfree, if_neg hin])
      · refine (hb.page y).mono hprefix ?_ (fun _ _ => rfl) rfl
          (Finset.Subset.refl _) fun addr haddr => ?_
        · intro k' t' hk' ht'
          have hne : k ≠ k' := by
            rintro rfl
            exact hy (hk'.symm.trans hpage)
          exact ⟨by rw [getElem?_set_ne hne]; exact ht', hk'⟩
        · have hnot : ¬ s.Covers addr := fun h => by
            have := ((hcovers addr).1 h).1
            exact hy (by rw [← haddr, this, hdiv])
          rw [lookupFlat_concat hfree, if_neg hnot]
    · have hlength := hb.length
      simp only [length_append, length_singleton]
      omega
    · have hnodes := hb.nodes
      simp only [length_append, length_singleton, mul_succ]
      omega

include hp

variable (hused : ∀ x ∈ subs, ∃ addr, addr / 2 ^ p = x ∧ lookupFlat done addr ≠ none)

include hused

/-- The subpage of a page that is not covered by one section. -/
theorem findSubpage_spec (hx : (x + 1) * 2 ^ p ≤ 2 ^ 64)
    (hgap : ∃ addr, addr / 2 ^ p = x ∧ lookupFlat done addr = none)
    (hroom : 4 + done.length + (insert x subs).card ≤ 2 ^ p) :
    ∃ d' k m' pageOf', findSubpage p d (x * 2 ^ p) = some (d', k) ∧
      Built p done (insert x subs) pageOf' d' m' ∧ m' x ≠ sectionUnassigned ∧
      d'.sections[m' x]? = some ⟨.subpage k, x * 2 ^ p, 0, 2 ^ p⟩ := by
  have hfind := hb.physPageFind_page hp hx
  have hlength := hb.length
  cases hb.page x with
  | free hm hnone =>
    have hsubs : x ∉ subs := fun hmem => by
      obtain ⟨addr, haddr, hne⟩ := hused x hmem
      exact hne (hnone addr haddr)
    rw [card_insert_of_notMem hsubs] at hroom
    obtain ⟨d', m', pageOf', hrun, hspec⟩ := findSubpage_new hp hb hx hm hnone hsubs (by omega)
    exact ⟨d', _, m', pageOf', hrun, hspec⟩
  | whole s _ _ _ _ hsome =>
    obtain ⟨addr, haddr, hnone⟩ := hgap
    rw [(hsome addr haddr).2] at hnone
    exact absurd hnone (by simp)
  | sub k t hm hs _ _ _ hmem =>
    refine ⟨d, k, m, pageOf, ?_, ?_, hm, hs⟩
    · simp [findSubpage, hfind, hs]
    · rw [insert_eq_of_mem hmem]
      exact hb

variable (hs : s.Ok) (hfree : ∀ addr, s.Covers addr → lookupFlat done addr = none)

include hs hfree

theorem registerMultipage_spec (halign : s.offsetWithinAddressSpace % 2 ^ p = 0)
    (hsize : s.size % 2 ^ p = 0) (hroom : d.sections.length < 2 ^ p) :
    ∃ d' m', registerMultipage p d s = some d' ∧ Built p (done ++ [s]) subs pageOf d' m' := by
  have hP := Nat.two_pow_pos p
  have hcovers := div_mem_iff halign hsize
  have hlength := hb.length
  have hpos : 0 < s.size / 2 ^ p := div_pos (le_of_dvd hs.pos (dvd_of_mod_eq_zero hsize)) hP
  refine (hb.setPages hp s [] (s.offsetWithinAddressSpace / 2 ^ p) (s.size / 2 ^ p) hroom hpos ?_
    (fun x h₁ h₂ => ?_) ?_ (Finset.Subset.refl _) (fun _ _ => rfl) (fun addr hx => ?_) ?_).imp
    fun d' ⟨hset, _, hb'⟩ => ⟨_, ?_, hb'⟩
  · rw [add_mul, Nat.div_mul_cancel (dvd_of_mod_eq_zero halign),
      Nat.div_mul_cancel (dvd_of_mod_eq_zero hsize)]
    exact hs.le
  · -- a page on which nothing is registered is not mapped
    have hnone : ∀ addr, addr / 2 ^ p = x → lookupFlat done addr = none := by
      rintro addr rfl
      exact hfree addr ((hcovers addr).2 ⟨h₁, h₂⟩)
    cases hb.page x with
    | free hm => exact hm
    | whole s _ _ _ _ hsome =>
      have haddr : x * 2 ^ p / 2 ^ p = x := Nat.mul_div_cancel _ hP
      exact absurd ((hnone _ haddr).symm.trans (hsome _ haddr).2) (by simp)
    | sub _ _ _ _ _ _ _ hmem =>
      obtain ⟨addr, haddr, hne⟩ := hused x hmem
      exact absurd (hnone addr haddr) hne
  · rw [length_append, length_singleton]
    omega
  · rw [lookupFlat_concat hfree, if_neg fun hc => hx ((hcovers addr).1 hc)]
  · intro d' hlast _ hne x h₁ h₂
    have hmx := fill_of_mem (m := m) (v := d.sections.length) h₁ h₂
    refine .whole s (by rwa [hmx]) (by rwa [hmx]) hs (fun addr hc => ?_) ?_
    · obtain ⟨h₁, h₂⟩ := (hcovers addr).1 hc
      rw [hmx, fill_of_mem h₁ h₂]
    · rintro addr rfl
      have hc : s.Covers addr := (hcovers addr).2 ⟨h₁, h₂⟩
      exact ⟨hc, by rw [lookupFlat_concat hfree, if_pos hc]⟩
  · rw [append_nil] at hset
    simp only [registerMultipage, physSectionAdd_eq hp s hroom, bind_eq_bind,
      bind_some, if_neg hpos.ne', hset]

theorem registerSubpage_spec (hfit : s.offsetWithinAddressSpace % 2 ^ p + s.size ≤ 2 ^ p)
    (hroom : 4 + done.length + (insert (s.offsetWithinAddressSpace / 2 ^ p) subs).card < 2 ^ p) :
    ∃ d' m' pageOf', registerSubpage p d s = some d' ∧
      Built p (done ++ [s]) (insert (s.offsetWithinAddressSpace / 2 ^ p) subs) pageOf' d' m' := by
  have hP : 2 ^ p ≤ 2 ^ 16 := Nat.pow_le_pow_right (by decide) hp
  have hpos := hs.pos
  have hle := hs.le
  have hself : s.Covers s.offsetWithinAddressSpace := ⟨le_refl _, by omega⟩
  have hx := page_end_le hp (show s.offsetWithinAddressSpace < 2 ^ 64 by omega)
  obtain ⟨d₁, k, m₁, pageOf₁, hfind, hb₁, hm₁, hsec₁⟩ :=
    findSubpage_spec hp hb hused hx ⟨_, rfl, hfree _ hself⟩ hroom.le
  obtain ⟨t, hk, hb₂⟩ := hb₁.addPart hpos hfit hfree rfl hm₁ hsec₁
  refine ⟨_, m₁, pageOf₁, ?_, hb₂⟩
  have hroom₁ : d₁.sections.length < 2 ^ p := hb₁.length.trans_lt hroom
  have hstart : s.offsetWithinAddressSpace % 2 ^ p % 2 ^ 32 = s.offsetWithinAddressSpace % 2 ^ p :=
    mod_eq_of_lt (by omega)
  have hlast : (s.offsetWithinAddressSpace % 2 ^ p + s.size - 1) % 2 ^ 32 =
    s.offsetWithinAddressSpace % 2 ^ p + s.size - 1 := mod_eq_of_lt (by omega)
  simp only [registerSubpage, hfind, bind_eq_bind, bind_some,
    physSectionAdd_eq hp s hroom₁, hk, hstart, hlast, Option.pure_def]

end Register

/-! ## Registering a view -/

theorem mem_subpagesOf {ps : List (MemoryRegionSection ρ)} : x ∈ subpagesOf p ps ↔
      ∃ s ∈ ps, s.size < 2 ^ p ∧ s.offsetWithinAddressSpace / 2 ^ p = x := by
  simp [subpagesOf, and_assoc]

theorem subpagesOf_concat (p : Nat) (ps : List (MemoryRegionSection ρ))
    (s : MemoryRegionSection ρ) : subpagesOf p (ps ++ [s]) =
      if s.size < 2 ^ p then insert (s.offsetWithinAddressSpace / 2 ^ p) (subpagesOf p ps)
      else subpagesOf p ps := by
  ext x
  split
  · next h =>
    rw [mem_insert, mem_subpagesOf, mem_subpagesOf]
    simp [h, eq_comm, or_and_right, exists_or, or_comm]
  · next h =>
    rw [mem_subpagesOf, mem_subpagesOf]
    simp [h, or_and_right, exists_or]

theorem subpagesOf_subset (p : Nat) (ps qs : List (MemoryRegionSection ρ)) :
    subpagesOf p ps ⊆ subpagesOf p (ps ++ qs) := by
  intro x hx
  obtain ⟨s, hs, hsize⟩ := mem_subpagesOf.1 hx
  exact mem_subpagesOf.2 ⟨s, mem_append_left _ hs, hsize⟩

theorem register_spec (hp : p ≤ 16) (hb : Built p done (subpagesOf p done) pageOf d m)
    (hok : ∀ s ∈ done, PieceOk p s) (hs : PieceOk p s)
    (hfree : ∀ addr, s.Covers addr → lookupFlat done addr = none)
    (hroom : 4 + (done ++ [s]).length + (subpagesOf p (done ++ [s])).card ≤ 2 ^ p) :
    ∃ d' m' pageOf', register p d s = some d' ∧
      Built p (done ++ [s]) (subpagesOf p (done ++ [s])) pageOf' d' m' := by
  have hused : ∀ x ∈ subpagesOf p done, ∃ addr, addr / 2 ^ p = x ∧ lookupFlat done addr ≠ none := by
    intro x hx
    obtain ⟨t, ht, -, hdiv⟩ := mem_subpagesOf.1 hx
    refine ⟨_, hdiv, fun hnone => lookupFlat_eq_none_iff.1 hnone t ht ⟨le_refl _, ?_⟩⟩
    have := (hok t ht).pos
    omega
  rw [subpagesOf_concat] at hroom ⊢
  rw [length_append, length_singleton] at hroom
  unfold register
  rcases hs.shape with ⟨hsize, hfit⟩ | ⟨hsize, halign, hmod⟩
  · rw [if_pos hsize] at hroom ⊢
    rw [if_pos hsize]
    exact registerSubpage_spec hp hb hused hs.toOk hfree hfit (by omega)
  rw [if_neg hsize.not_gt] at hroom ⊢
  rw [if_neg hsize.not_gt]
  have hlength := hb.length
  obtain ⟨d', m', hrun, hb'⟩ :=
    registerMultipage_spec hp hb hused hs.toOk hfree halign hmod (by omega)
  exact ⟨d', m', pageOf, hrun, hb'⟩

/-- Registering all pieces of a list, by induction on those that are left. -/
theorem foldlM_register (hp : p ≤ 16) (rest : List (MemoryRegionSection ρ))
    (hb : Built p done (subpagesOf p done) pageOf d m) (hok : ∀ s ∈ done ++ rest, PieceOk p s)
    (hdisj : (done ++ rest).Pairwise MemoryRegionSection.Disjoint)
    (hroom : 4 + (done ++ rest).length + (subpagesOf p (done ++ rest)).card ≤ 2 ^ p) :
    ∃ d' m' pageOf', rest.foldlM (register p) d = some d' ∧
      Built p (done ++ rest) (subpagesOf p (done ++ rest)) pageOf' d' m' := by
  induction rest generalizing done d m pageOf with
  | nil =>
    rw [append_nil]
    exact ⟨d, m, pageOf, rfl, hb⟩
  | cons s rest ih =>
    rw [← singleton_append, ← append_assoc] at hok hdisj hroom ⊢
    have hfree : ∀ addr, s.Covers addr → lookupFlat done addr = none := by
      intro addr hc
      rw [lookupFlat_eq_none_iff]
      intro t ht hc'
      have hpair := (pairwise_append.1 hdisj).1
      exact (pairwise_append.1 hpair).2.2 t ht s (List.mem_singleton_self s) addr hc' hc
    have hcard := card_le_card (subpagesOf_subset p (done ++ [s]) rest)
    rw [length_append] at hroom
    obtain ⟨d₁, m₁, pageOf₁, hrun, hb₁⟩ := register_spec hp hb
      (fun t ht => hok t (by simp [ht])) (hok s (by simp)) hfree (by omega)
    obtain ⟨d', m', pageOf', hrun', hb'⟩ := ih hb₁ hok hdisj (by rw [length_append]; omega)
    refine ⟨d', m', pageOf', ?_, hb'⟩
    rw [singleton_append, foldlM_cons, hrun]
    exact hrun'

/-- `mem_begin` makes a dispatch in which every page is free. -/
theorem memBegin_spec (hroom : 4 ≤ 2 ^ p) : ∃ d : Dispatch ρ, memBegin p = some d ∧
      Built p [] (subpagesOf p ([] : List (MemoryRegionSection ρ))) (fun _ => 0) d
        fun _ => sectionUnassigned := by
  let d : Dispatch ρ :=
    { physMap := ⟨1, nodeNil⟩, nodes := fun _ _ => ⟨0, 0⟩, nodesNb := 0, nodesNbAlloc := 0,
      sections := [dummySection .unassigned, dummySection .notdirty, dummySection .rom,
        dummySection .watch], subpages := [] }
  refine ⟨d, ?_, ⟨rfl, fun x => .free rfl fun _ _ => rfl⟩, maps_empty rfl, rfl, zero_le _⟩
  have h₀ : 0 < 2 ^ p := by omega
  have h₁ : 1 < 2 ^ p := by omega
  have h₂ : 2 < 2 ^ p := by omega
  have h₃ : 3 < 2 ^ p := by omega
  simp [memBegin, physSectionAdd, h₀, h₁, h₂, h₃, d]

/-! ## The main result -/

/-- The sections that a view needs: those of `mem_begin`, one for each piece, and one for each
page with a subpage. -/
def sectionCount (p : Nat) (view : List (FlatRange ρ)) : Nat :=
  4 + (viewPieces p view).length + (subpagesOf p (viewPieces p view)).card

/-- Building the dispatch of a view: it has the sections that were counted, and its tree leads to
those that its pieces give. -/
theorem dispatchOf_spec (hp : p ≤ 16) {view : List (FlatRange ρ)}
    (hview : ∀ fr ∈ view, fr.toSection.Ok)
    (hdisj : view.Pairwise fun fr fr' => fr.toSection.Disjoint fr'.toSection)
    (hcount : sectionCount p view ≤ 2 ^ p) :
    ∃ d m pageOf, dispatchOf p view = some d ∧ d.sections.length = sectionCount p view ∧
      Routes p d m ∧ Says p (viewPieces p view) (subpagesOf p (viewPieces p view)) pageOf d m := by
  have hP : 2 ^ p ≤ 2 ^ 16 := Nat.pow_le_pow_right (by decide) hp
  unfold sectionCount at hcount ⊢
  obtain ⟨d₀, hbegin, hb₀⟩ := memBegin_spec (ρ := ρ) (show 4 ≤ 2 ^ p by omega)
  obtain ⟨d₁, m, pageOf, hadd, hb⟩ := foldlM_register hp (viewPieces p view) hb₀
    (fun s hs => viewPieces_ok hview hs) (viewPieces_disjoint hview p hdisj) hcount
  rw [nil_append] at hb
  have hlength := hb.length
  have hnil : ∀ x, m x ≠ nodeNil := by
    intro x hx
    obtain ⟨s, hs, -⟩ := (hb.page x).section_spec (by rw [hx]; decide)
    have hlt := (List.getElem?_eq_some_iff.1 hs).1
    have : nodeNil = 67108863 := by decide
    omega
  obtain ⟨d, hcommit, hroutes, hsections, hsubpages⟩ := physPageCompactAll_spec hb.maps hnil
  refine ⟨d, m, pageOf, ?_, by rw [hsections, hlength], hroutes,
    by rw [hsections, hb.unassigned], fun x => ?_⟩
  · simp only [dispatchOf, hbegin, bind_eq_bind, bind_some,
      foldlM_memAdd hview (hp.trans (by decide)), hadd, memCommit, hcommit]
  refine (hb.page x).mono ?_ ?_ (fun _ _ => rfl) rfl (Finset.Subset.refl _) fun _ _ => rfl
  · rw [hsections]
  · rw [hsubpages]
    exact fun _ _ hk ht => ⟨ht, hk⟩

/-- The section of a disjoint list that lies at an address is the one that counts. -/
theorem lookupFlat_of_mem {ss : List (MemoryRegionSection ρ)}
    (hdisj : ss.Pairwise MemoryRegionSection.Disjoint) (hs : s ∈ ss) (hc : s.Covers addr) :
    lookupFlat ss addr = some (s.target addr) := by
  induction hdisj with
  | nil => exact absurd hs (not_mem_nil)
  | @cons t ss hfirst _ ih =>
    rw [lookupFlat_cons]
    rcases List.mem_cons.1 hs with rfl | hs
    · rw [if_pos hc]
    · rw [if_neg fun hc' => hfirst s hs addr hc' hc, ih hs]

/-- The dispatch that is built for a view of disjoint ranges, compacted, gives for every address
the memory region and the offset that the view gives, and the unassigned section for an address
without a range.  Ranges may start and end anywhere, share pages and reach the end of the
address space; a dispatch holds `2 ^ p` sections. -/
theorem dispatch_refines_view {p : Nat} (hp : p ≤ 16) (view : List (FlatRange ρ))
    (hview : ∀ fr ∈ view, fr.toSection.Ok)
    (hdisj : view.Pairwise fun fr fr' => fr.toSection.Disjoint fr'.toSection)
    (hcount : sectionCount p view ≤ 2 ^ p) :
    ∃ d, dispatchOf p view = some d ∧ d.sections.length = sectionCount p view ∧
      ∀ addr < 2 ^ 64, ∃ s, addressSpaceLookupRegion p d addr true = some s ∧
        (∀ fr ∈ view, fr.toSection.Covers addr → s.target addr = fr.toSection.target addr) ∧
        ((∀ fr ∈ view, ¬ fr.toSection.Covers addr) → s = dummySection .unassigned) := by
  obtain ⟨d, m, pageOf, hrun, hlength, ⟨lab, hroutes⟩, hsays⟩ :=
    dispatchOf_spec hp hview hdisj hcount
  refine ⟨d, hrun, hlength, fun addr haddr => ?_⟩
  have hdiv : addr / 2 ^ p / l2Size ^ l2Levels p = 0 :=
    div_eq_of_lt (pages_le hp (page_end_le hp haddr))
  obtain ⟨t, hfind, ht, hmem⟩ := findLoop_of_routed hroutes (addr / 2 ^ p) (lt_succ_self _)
  have hfound := physPageFind_eq hsays haddr hfind ht (hmem hdiv)
  obtain ⟨s, hlookup, hs⟩ := addressSpaceLookupRegion_spec hsays hfound
  rw [lookupFlat_viewPieces hview] at hs
  refine ⟨s, hlookup, fun fr hfr hc => ?_, fun hnone => ?_⟩
  · have hflat := lookupFlat_of_mem (pairwise_map.2 hdisj) (mem_map_of_mem hfr) hc
    rw [hflat] at hs
    rcases hs with ⟨h, -⟩ | h
    · exact absurd h (by simp)
    · exact (some.inj h).symm
  have hflat : lookupFlat (view.map FlatRange.toSection) addr = none := by
    rw [lookupFlat_eq_none_iff]
    intro s' hs'
    obtain ⟨fr, hfr, rfl⟩ := mem_map.1 hs'
    exact hnone fr hfr
  rw [hflat] at hs
  rcases hs with ⟨-, h⟩ | h
  · exact h
  · exact absurd h (by simp)

/-- A range that ends inside a page, one that shares that page, and one that ends at the top of
the address space. -/
def sharedPageView : List (FlatRange Nat) :=
  [⟨.region 0, 0, 0, 0x1900⟩, ⟨.region 1, 0x40, 0x1900, 0x80⟩,
    ⟨.region 2, 0, 0xfffffffffffff7f0, 0x810⟩]

theorem dispatch_refines_sharedPageView : sectionCount 10 sharedPageView = 11 ∧
      ∃ d s, dispatchOf 10 sharedPageView = some d ∧
        addressSpaceLookupRegion 10 d 0x1908 true = some s ∧
        s.target 0x1908 = (.region 1, 0x48) := by
  have hcount : sectionCount 10 sharedPageView = 11 := by decide +kernel
  have hview : ∀ fr ∈ sharedPageView, fr.toSection.Ok := by
    intro fr hfr
    simp only [sharedPageView, List.mem_cons, not_mem_nil, or_false] at hfr
    rcases hfr with rfl | rfl | rfl <;> exact ⟨by decide, by decide, rfl⟩
  have hdisj : sharedPageView.Pairwise fun fr fr' => fr.toSection.Disjoint fr'.toSection := by
    simp only [sharedPageView, List.pairwise_cons, List.mem_cons, not_mem_nil, or_false]
    refine ⟨?_, ?_, fun _ h => h.elim, .nil⟩
    · rintro fr (rfl | rfl) addr ⟨h₁, h₂⟩ ⟨h₃, h₄⟩ <;>
        simp only [FlatRange.toSection] at h₂ h₃ <;> omega
    · rintro fr rfl addr ⟨h₁, h₂⟩ ⟨h₃, h₄⟩
      simp only [FlatRange.toSection] at h₂ h₃
      omega
  obtain ⟨d, hrun, -, hlookup⟩ :=
    dispatch_refines_view (p := 10) (by decide) sharedPageView hview hdisj (by decide)
  obtain ⟨s, hs, htarget, -⟩ := hlookup 0x1908 (by decide)
  refine ⟨hcount, d, s, hrun, hs, ?_⟩
  exact htarget ⟨.region 1, 0x40, 0x1900, 0x80⟩ (by simp [sharedPageView]) ⟨by decide, by decide⟩

end QemuAndroid.Exec
