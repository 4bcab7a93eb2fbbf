import QemuAndroid.Hbitmap.Ops
import QemuAndroid.Lib.Machine

/-!
# Bitmaps as sets

A store of bitmaps, each next to the set of groups it should stand for, under any
sequence of calls within the contract of their callers.

* The levels of every bitmap stay linked and `hbitmap_get` reads the set
  (`hbitmap_refines`), with three exceptions, all in functions that trust a number
  they should not: `hbitmap_merge` skips a source whose *cached* count is zero, which
  an earlier merge can leave stale (`merge_loses_groups`); `hbitmap_truncate` shifts
  an `int` by the granularity; and it rounds a size up without looking for overflow.
* The cached count is the number of set groups as long as no merge adds a group
  (`count_exact`): `hbitmap_merge` does not touch the count (`count_stale`).
-/

namespace QemuAndroid.Hbitmap

open Lib List Option Finset

/-! ## The store -/

/-- A bitmap, and the set of groups it should stand for. -/
structure Tracked where
  hb : HBitmap
  set : Finset Nat

/-- The public functions that change a bitmap, with the indices of the bitmaps. -/
inductive Op
  | alloc (size : BitVec 64) (granularity : Nat)
  | set (k : Nat) (start count : BitVec 64)
  | reset (k : Nat) (start count : BitVec 64)
  | resetAll (k : Nat)
  | truncate (k : Nat) (size : BitVec 64)
  | merge (k l : Nat)

/-- The number of groups that `size` elements take. -/
def groupCount (granularity : Nat) (size : BitVec 64) : Nat :=
  (size.toNat + 2 ^ granularity - 1) / 2 ^ granularity

abbrev Store := List Tracked

/-- A call on bitmap `k`, with what it should do to the set. -/
def Store.update (s : Store) (k : Nat) (f : HBitmap → Option HBitmap) (set : Tracked → Finset Nat) :
    Option Store := do
  let t ← s[k]?
  let hb ← f t.hb
  return s.set k { hb := hb, set := set t }

/-- The bitmaps are changed by the code, the sets by the operations on sets. -/
def Store.step (s : Store) : Op → Option Store
  | .alloc size granularity =>
    (hbitmapAlloc size granularity).map fun hb => s ++ [{ hb := hb, set := ∅ }]
  | .set k start count =>
    s.update k (hbitmapSet · start count) fun t =>
      t.set ∪ groupRange t.hb.granularity start count
  | .reset k start count =>
    s.update k (hbitmapReset · start count) fun t =>
      t.set \ groupRange t.hb.granularity start count
  | .resetAll k => s.update k hbitmapResetAll fun _ => ∅
  | .truncate k size =>
    s.update k (hbitmapTruncate · size) fun t =>
      t.set.filter (· < groupCount t.hb.granularity size)
  | .merge k l => do
      let a ← s[k]?
      let b ← s[l]?
      let (hb, ok) ← hbitmapMerge a.hb b.hb
      return s.set k { hb := hb, set := if ok then a.set ∪ b.set else a.set }

/-- Any number of bitmaps, from none. -/
def storeMachine : Machine Store Op where
  init s := s = []
  step := Store.step

/-- The contract of the callers: the bitmaps exist, ranges are not empty and inside
the bitmap, and the assertions on the arguments hold. -/
def Within (s : Store) : Op → Prop
  | .alloc size granularity =>
    granularity < 64 ∧ (roundUp size granularity).toNat ≤ 2 ^ logMaxSize
  | .set k start count | .reset k start count => ∃ t ∈ s[k]?, t.hb.InRange start count
  | .resetAll k => k < s.length
  | .truncate k size => ∃ t ∈ s[k]?, (roundUp size t.hb.granularity).toNat ≤ 2 ^ logMaxSize
  | .merge k l => k < s.length ∧ l < s.length

def MergeAdds (a b : HBitmap) : Prop :=
  a.size = b.size ∧ a.granularity = b.granularity ∧ ∃ n ∈ groups b, n ∉ groups a
deriving Decidable

/-- `hbitmap_truncate` shifts an `int` out of its range. -/
def ShiftsOut (hb : HBitmap) (size : BitVec 64) : Prop :=
  (roundUp size hb.granularity).toNat < hb.size.toNat ∧ 31 ≤ hb.granularity
deriving Decidable

/-- The steps at which a bitmap stops being its set. -/
def LosesGroups (s : Store) : Op → Prop
  | .truncate k size => ∃ t ∈ s[k]?,
      ShiftsOut t.hb size ∨ 2 ^ 64 ≤ size.toNat + 2 ^ t.hb.granularity - 1
  | .merge k l => ∃ a ∈ s[k]?, ∃ b ∈ s[l]?, MergeAdds a.hb b.hb ∧ hbitmapCount b.hb = 0#64
  | _ => False

/-- The steps at which the cached count stops being exact. -/
def LosesCount (s : Store) : Op → Prop
  | .truncate k size => ∃ t ∈ s[k]?, ShiftsOut t.hb size
  | .merge k l => ∃ a ∈ s[k]?, ∃ b ∈ s[l]?, MergeAdds a.hb b.hb ∧ hbitmapCount b.hb ≠ 0#64
  | _ => False

/-! ## What a step does -/

/-- The cached count is the number of set groups. -/
def HBitmap.Exact (hb : HBitmap) : Prop := hb.count = BitVec.ofNat 64 (groups hb).card

variable {hb : HBitmap} {s s' : Store} {k l : Nat} {op : Op}

theorem CountFollows.exact {hb' : HBitmap} (h : CountFollows hb hb') (hx : hb.Exact) :
    hb'.Exact := by
  rw [CountFollows, hx, BitVec.add_comm (BitVec.ofNat 64 (groups hb).card)] at h
  have hsub := congrArg (· - BitVec.ofNat 64 (groups hb).card) h
  simpa only [BitVec.add_sub_cancel, HBitmap.Exact] using hsub

/-- What a call within its contract does. -/
inductive StoreEffect (s : Store) : Op → Store → Prop
  | added {size : BitVec 64} {granularity : Nat} {hb : HBitmap} (hwf : hb.Wf)
      (hgroups : groups hb = ∅) (hexact : hb.Exact) :
      StoreEffect s (.alloc size granularity) (s ++ [{ hb := hb, set := ∅ }])
  | changed {op : Op} {k : Nat} {t t' : Tracked} (ht : s[k]? = some t) (hwf : t'.hb.Wf)
      (hset : ¬ LosesGroups s op → groups t.hb = t.set → groups t'.hb = t'.set)
      (hexact : t.hb.Exact → t'.hb.Exact) : StoreEffect s op (s.set k t')
  | skipped {k l : Nat} {a b : Tracked} (ha : s[k]? = some a) (hb : s[l]? = some b)
      (hsize : a.hb.size = b.hb.size) (hgran : a.hb.granularity = b.hb.granularity)
      (hcount : hbitmapCount b.hb = 0#64) :
      StoreEffect s (.merge k l) (s.set k { a with set := a.set ∪ b.set })
  | merged {k l : Nat} {a b : Tracked} {hb : HBitmap} (ha : s[k]? = some a) (hb' : s[l]? = some b)
      (hsize : a.hb.size = b.hb.size) (hgran : a.hb.granularity = b.hb.granularity)
      (hcount : hbitmapCount b.hb ≠ 0#64) (hwf : hb.Wf)
      (hgran' : hb.granularity = a.hb.granularity)
      (hgroups : groups hb = groups a.hb ∪ groups b.hb) (hsame : hb.count = a.hb.count) :
      StoreEffect s (.merge k l) (s.set k { hb := hb, set := a.set ∪ b.set })

theorem update_eq {t : Tracked} {f : HBitmap → Option HBitmap} (ht : s[k]? = some t)
    (hf : f t.hb = some hb) (set : Tracked → Finset Nat) :
    s.update k f set = some (s.set k { hb := hb, set := set t }) := by
  simp [Store.update, ht, hf]

/-- Without overflow, sizes are rounded up. -/
theorem roundUp_eq_groupCount {size : BitVec 64} {granularity : Nat} (hg : granularity < 64)
    (h : size.toNat + 2 ^ granularity - 1 < 2 ^ 64) :
    (roundUp size granularity).toNat = groupCount granularity size := by
  rw [roundUp_toNat size hg, Nat.mod_eq_of_lt h, groupCount]

/-- Every call within its contract is defined, a truncation that shifts out apart. -/
theorem step_spec (hwf : ∀ t ∈ s, t.hb.Wf) (hin : Within s op)
    (hok : ¬ LosesGroups s op ∨ ¬ LosesCount s op) :
    ∃ s', s.step op = some s' ∧ StoreEffect s op s' := by
  have hwf' : ∀ {k : Nat} {t : Tracked}, s[k]? = some t → t.hb.Wf := fun ht =>
    hwf _ (mem_of_getElem? ht)
  cases op with
  | alloc size granularity =>
    obtain ⟨hb, hrun, hw, -, -, hgroups, hcount⟩ := hbitmapAlloc_spec hin.1 hin.2
    refine ⟨_, by rw [Store.step, hrun, map_some], .added hw hgroups ?_⟩
    rw [HBitmap.Exact, hcount, hgroups, card_empty]
  | set k start count =>
    obtain ⟨t, ht, hr⟩ := hin
    obtain ⟨hb, hrun, hw, -, -, hgroups, hcount⟩ := hbitmapSet_spec (hwf' ht) hr
    refine ⟨_, update_eq (f := (hbitmapSet · start count)) ht hrun _,
      .changed (t := t) ht hw (fun _ heq => ?_) fun hx => hcount.exact hx⟩
    rw [hgroups, heq]
  | reset k start count =>
    obtain ⟨t, ht, hr⟩ := hin
    obtain ⟨hb, hrun, hw, -, -, hgroups, hcount⟩ := hbitmapReset_spec (hwf' ht) hr
    refine ⟨_, update_eq (f := (hbitmapReset · start count)) ht hrun _,
      .changed (t := t) ht hw (fun _ heq => ?_) fun hx => hcount.exact hx⟩
    rw [hgroups, heq]
  | resetAll k =>
    have ht : s[k]? = some s[k] := getElem?_eq_getElem hin
    obtain ⟨hb, hrun, hw, -, -, hgroups, hcount⟩ := hbitmapResetAll_spec (hwf' ht)
    refine ⟨_, update_eq ht hrun _, .changed ht hw (fun _ _ => hgroups) fun _ => ?_⟩
    rw [HBitmap.Exact, hcount, hgroups, card_empty]
  | truncate k size =>
    obtain ⟨t, ht, hmax⟩ := hin
    have hint : (roundUp size t.hb.granularity).toNat < t.hb.size.toNat →
        t.hb.granularity < 31 := by
      intro hlt
      by_contra hge
      have hshift : ShiftsOut t.hb size := ⟨hlt, Nat.le_of_not_lt hge⟩
      exact hok.elim (fun h => h ⟨t, ht, .inl hshift⟩) fun h => h ⟨t, ht, hshift⟩
    obtain ⟨hb, hrun, hw, -, hgroups, hcount⟩ := hbitmapTruncate_spec (hwf' ht) hmax hint
    refine ⟨_, update_eq (f := (hbitmapTruncate · size)) ht hrun _,
      .changed (t := t) ht hw (fun hok heq => ?_) fun hx => hcount.exact hx⟩
    have hlt : size.toNat + 2 ^ t.hb.granularity - 1 < 2 ^ 64 := by
      by_contra hge
      exact hok ⟨t, ht, .inr (Nat.le_of_not_lt hge)⟩
    rw [hgroups, heq, roundUp_eq_groupCount (hwf' ht).granularity_lt hlt]
  | merge k l =>
    obtain ⟨a, ha⟩ : ∃ a, s[k]? = some a := ⟨_, getElem?_eq_getElem hin.1⟩
    obtain ⟨b, hb⟩ : ∃ b, s[l]? = some b := ⟨_, getElem?_eq_getElem hin.2⟩
    have hstep : s.step (.merge k l) = (hbitmapMerge a.hb b.hb).map fun r =>
        s.set k { hb := r.1, set := if r.2 then a.set ∪ b.set else a.set } := by
      simp only [Store.step, ha, hb, bind_eq_bind, bind_some]
      cases hbitmapMerge a.hb b.hb <;> rfl
    rw [hstep]
    by_cases hmatch : a.hb.size ≠ b.hb.size ∨ a.hb.granularity ≠ b.hb.granularity
    · refine ⟨_, by rw [hbitmapMerge, if_pos hmatch, map_some], ?_⟩
      exact .changed ha (hwf' ha) (fun _ heq => heq) id
    obtain ⟨hsize, hgran⟩ : a.hb.size = b.hb.size ∧ a.hb.granularity = b.hb.granularity := by
      simpa only [ne_eq, not_or, not_not] using hmatch
    by_cases hcount : hbitmapCount b.hb = 0#64
    · refine ⟨_, by rw [hbitmapMerge, if_neg hmatch, if_pos hcount, map_some], ?_⟩
      exact .skipped ha hb hsize hgran hcount
    obtain ⟨hb', hrun, hw, hg, hgroups, hsame⟩ :=
      hbitmapMerge_spec (hwf' ha) (hwf' hb) hsize hgran hcount
    refine ⟨_, by rw [hrun, map_some], ?_⟩
    exact .merged ha hb hsize hgran hcount hw hg hgroups hsame

/-! ## Invariants of a store -/

/-- A property of every bitmap of a store, kept where one bitmap is replaced. -/
theorem forall_set {P : Tracked → Prop} (h : ∀ t ∈ s, P t) {t : Tracked} (ht : P t) :
    ∀ t' ∈ s.set k t, P t' := by
  intro t' ht'
  rcases mem_or_eq_of_mem_set ht' with h' | rfl
  · exact h t' h'
  · exact ht

theorem StoreEffect.wf (h : StoreEffect s op s') (hs : ∀ t ∈ s, t.hb.Wf) : ∀ t ∈ s', t.hb.Wf := by
  cases h with
  | added hwf => exact forall_mem_append.2 ⟨hs, forall_mem_singleton.2 hwf⟩
  | changed ht hwf => exact forall_set hs hwf
  | @skipped k l a b ha => exact forall_set hs (hs a (mem_of_getElem? ha))
  | merged ha hb hsize hgran hcount hwf => exact forall_set hs hwf

/-- Merging a subset changes nothing. -/
theorem union_eq_of_not_mergeAdds {a b : HBitmap} (hsize : a.size = b.size)
    (hgran : a.granularity = b.granularity) (h : ¬ MergeAdds a b) :
    groups a ∪ groups b = groups a := by
  refine union_eq_left.mpr fun n hn => ?_
  by_contra hna
  exact h ⟨hsize, hgran, n, hn, hna⟩

theorem StoreEffect.groups_eq (h : StoreEffect s op s') (hs : ∀ t ∈ s, groups t.hb = t.set)
    (hok : ¬ LosesGroups s op) : ∀ t ∈ s', groups t.hb = t.set := by
  cases h with
  | added hwf hgroups => exact forall_mem_append.2 ⟨hs, forall_mem_singleton.2 hgroups⟩
  | changed ht hwf hset => exact forall_set hs (hset hok (hs _ (mem_of_getElem? ht)))
  | @skipped k l a b ha hb hsize hgran hcount =>
    refine forall_set hs ?_
    have hsub : ¬ MergeAdds a.hb b.hb := fun hadd => hok ⟨a, ha, b, hb, hadd, hcount⟩
    rw [← hs a (mem_of_getElem? ha), ← hs b (mem_of_getElem? hb),
      union_eq_of_not_mergeAdds hsize hgran hsub]
  | @merged k l a b hb ha hb' hsize hgran hcount hwf hgran' hgroups =>
    refine forall_set hs ?_
    rw [hgroups, hs a (mem_of_getElem? ha), hs b (mem_of_getElem? hb')]

theorem StoreEffect.exact (h : StoreEffect s op s') (hs : ∀ t ∈ s, t.hb.Exact)
    (hok : ¬ LosesCount s op) : ∀ t ∈ s', t.hb.Exact := by
  cases h with
  | added hwf hgroups hexact => exact forall_mem_append.2 ⟨hs, forall_mem_singleton.2 hexact⟩
  | changed ht hwf hset hexact => exact forall_set hs (hexact (hs _ (mem_of_getElem? ht)))
  | @skipped k l a b ha => exact forall_set hs (hs a (mem_of_getElem? ha))
  | @merged k l a b hb ha hb' hsize hgran hcount hwf hgran' hgroups hsame =>
    refine forall_set hs ?_
    have hsub : ¬ MergeAdds a.hb b.hb := fun hadd => hok ⟨a, ha, b, hb', hadd, hcount⟩
    rw [HBitmap.Exact, hsame, hgroups, union_eq_of_not_mergeAdds hsize hgran hsub]
    exact hs a (mem_of_getElem? ha)

theorem effect_of_step (hwf : ∀ t ∈ s, t.hb.Wf) (hin : Within s op)
    (hok : ¬ LosesGroups s op ∨ ¬ LosesCount s op) (hs : s.step op = some s') :
    StoreEffect s op s' := by
  obtain ⟨s'', hs'', heffect⟩ := step_spec hwf hin hok
  obtain rfl := some.inj (hs''.symm.trans hs)
  exact heffect

/-! ## Refinement -/

/-- The element that stands for a group. -/
def firstOf (hb : HBitmap) (n : Nat) : BitVec 64 := BitVec.ofNat 64 (n * 2 ^ hb.granularity)

theorem firstOf_div (h : hb.Wf) {n : Nat} (hn : n < hb.size.toNat) :
    (firstOf hb n).toNat / 2 ^ hb.granularity = n := by
  have hpos : 0 < 2 ^ hb.granularity := Nat.two_pow_pos _
  have hmul := Nat.mul_lt_mul_of_pos_right hn hpos
  have hwrap := h.no_wrap
  rw [firstOf, BitVec.toNat_ofNat, Nat.mod_eq_of_lt (by omega), Nat.mul_div_cancel _ hpos]

/-- A merge that is skipped although it should add a group leaves a bitmap that is
not its set. -/
theorem get_ne_of_losesGroups (hwf : ∀ t ∈ s, t.hb.Wf) (hset : ∀ t ∈ s, groups t.hb = t.set)
    (hlose : LosesGroups s (.merge k l)) (hs : s.step (.merge k l) = some s') :
    ∃ t ∈ s', ∃ n < t.hb.size.toNat, n ∈ t.set ∧ hbitmapGet t.hb (firstOf t.hb n) = some false := by
  obtain ⟨a, ha, b, hb, ⟨hsize, hgran, n, hnb, hna⟩, hcount⟩ := hlose
  have hawf := hwf a (mem_of_getElem? ha)
  have hlt : n < a.hb.size.toNat := by
    rw [hsize]
    exact (hwf b (mem_of_getElem? hb)).lt_size hnb
  have ha' : s[k]? = some a := ha
  have hb' : s[l]? = some b := hb
  have hs' : s.set k { a with set := a.set ∪ b.set } = s' := by
    have hmerge : hbitmapMerge a.hb b.hb = some (a.hb, true) := by
      simp [hbitmapMerge, hsize, hgran, hcount]
    simpa [Store.step, ha', hb', hmerge] using hs
  refine ⟨{ a with set := a.set ∪ b.set }, ?_, n, hlt, ?_, ?_⟩
  · rw [← hs']
    exact mem_set (List.getElem?_eq_some_iff.mp ha').1 _
  · rw [← hset b (mem_of_getElem? hb)]
    exact Finset.mem_union_right _ hnb
  · rw [hawf.get _ (by rw [firstOf_div hawf hlt]; exact hlt), firstOf_div hawf hlt]
    simpa using hna

/-- Bitmaps are sets.  In every run within the contract of the callers that has no
merge from a bitmap whose cached count is wrongly zero, no shrinking truncation at a
granularity of 31 or more and no truncation whose size overflows, every bitmap reads
as its set, its levels are linked, it has no bit beyond its size, and the sentinel is
set; and every further call is defined.  A merge of the kind excluded leaves a group
that is in the set and not in the bitmap. -/
theorem hbitmap_refines (s : Store)
    (h : storeMachine.Reach (fun s op => Within s op ∧ ¬ LosesGroups s op) s) : (∀ t ∈ s,
      (∀ item : BitVec 64, item.toNat / 2 ^ t.hb.granularity < t.hb.size.toNat →
        hbitmapGet t.hb item = some (decide (item.toNat / 2 ^ t.hb.granularity ∈ t.set))) ∧
      (∀ L < numLevels - 1, ∀ N, bitAt (t.hb.levels L) N = true ↔
        wordAt (t.hb.levels (L + 1)) N ≠ 0#64 ∨ (L = 0 ∧ N = 63)) ∧
      (∀ n, t.hb.size.toNat ≤ n → bitAt (t.hb.levels (numLevels - 1)) n = false) ∧
      bitAt (t.hb.levels 0) 63 = true) ∧
    (∀ op, Within s op → ¬ LosesGroups s op → ∃ s', s.step op = some s') ∧
    ∀ k l s', LosesGroups s (.merge k l) → s.step (.merge k l) = some s' →
      ∃ t ∈ s', ∃ n < t.hb.size.toNat, n ∈ t.set ∧
        hbitmapGet t.hb (firstOf t.hb n) = some false := by
  have hinv : (∀ t ∈ s, t.hb.Wf) ∧ ∀ t ∈ s, groups t.hb = t.set := by
    refine h.invariant ?_ ?_
    · rintro _ rfl
      exact ⟨nofun, nofun⟩
    · rintro s op s' - ⟨hwf, hset⟩ ⟨hin, hok⟩ hs
      have heffect := effect_of_step hwf hin (.inl hok) hs
      exact ⟨heffect.wf hwf, heffect.groups_eq hset hok⟩
  obtain ⟨hwf, hset⟩ := hinv
  refine ⟨fun t ht => ⟨fun item hitem => ?_, (hwf t ht).linked, (hwf t ht).beyond, ?_⟩, ?_, ?_⟩
  · rw [(hwf t ht).get item hitem, hset t ht]
  · exact ((hwf t ht).linked 0 (by decide) 63).mpr (.inr ⟨rfl, rfl⟩)
  · intro op hin hok
    obtain ⟨s', hs', -⟩ := step_spec hwf hin (.inl hok)
    exact ⟨s', hs'⟩
  · intro k l s' hlose hs
    exact get_ne_of_losesGroups hwf hset hlose hs

/-! ## The cached count -/

/-- The groups for which `hbitmap_get` is true. -/
def gotten (hb : HBitmap) : Finset Nat :=
  (Finset.range hb.size.toNat).filter fun n => hbitmapGet hb (firstOf hb n) = some true

theorem HBitmap.Wf.gotten_eq (h : hb.Wf) : gotten hb = groups hb := by
  ext n
  rw [gotten, Finset.mem_filter, Finset.mem_range]
  constructor
  · rintro ⟨hn, hget⟩
    rw [h.get _ (by rw [firstOf_div h hn]; exact hn), firstOf_div h hn] at hget
    simpa using hget
  intro hn
  have hlt := h.lt_size hn
  refine ⟨hlt, ?_⟩
  rw [h.get _ (by rw [firstOf_div h hlt]; exact hlt), firstOf_div h hlt]
  simpa using hn

/-- `hbitmap_count` does not overflow where the cached count is a number of groups. -/
theorem HBitmap.Wf.hbitmapCount_toNat (h : hb.Wf) {c : Nat} (hc : c ≤ hb.size.toNat)
    (hcount : hb.count = BitVec.ofNat 64 c) : (hbitmapCount hb).toNat = 2 ^ hb.granularity * c := by
  have hmul := Nat.mul_le_mul_right (2 ^ hb.granularity) hc
  have hwrap := h.no_wrap
  rw [hbitmapCount, hcount, BitVec.toNat_shiftLeft, BitVec.toNat_ofNat, Nat.shiftLeft_eq,
    Nat.mod_eq_of_lt (show c < 2 ^ 64 by omega), Nat.mod_eq_of_lt (by omega), mul_comm]

/-- A merge that adds a group leaves a count that is too small. -/
theorem count_lt_of_losesCount (hwf : ∀ t ∈ s, t.hb.Wf) (hexact : ∀ t ∈ s, t.hb.Exact)
    (hlose : LosesCount s (.merge k l)) (hs : s.step (.merge k l) = some s') :
    ∃ t ∈ s', (hbitmapCount t.hb).toNat < 2 ^ t.hb.granularity * (gotten t.hb).card := by
  obtain ⟨a, ha, b, hb, hadds, hcount⟩ := hlose
  obtain ⟨hsize, hgran, n, hnb, hna⟩ := hadds
  have hawf := hwf a (mem_of_getElem? ha)
  have hbwf := hwf b (mem_of_getElem? hb)
  obtain ⟨hb', hrun, hw, hg, hgroups, hsame⟩ := hbitmapMerge_spec hawf hbwf hsize hgran hcount
  have ha' : s[k]? = some a := ha
  have hb'' : s[l]? = some b := hb
  have hs' : s.set k { hb := hb', set := a.set ∪ b.set } = s' := by
    simpa [Store.step, ha', hb'', hrun] using hs
  have hcard : (groups a.hb).card < (groups hb').card := by
    refine card_lt_card ?_
    rw [hgroups]
    refine ssubset_iff_of_subset subset_union_left |>.mpr ⟨n, ?_, hna⟩
    exact Finset.mem_union_right _ hnb
  have hx : hb'.count = BitVec.ofNat 64 (groups a.hb).card :=
    hsame.trans (hexact a (mem_of_getElem? ha))
  refine ⟨{ hb := hb', set := a.set ∪ b.set }, ?_, ?_⟩
  · rw [← hs']
    exact mem_set (List.getElem?_eq_some_iff.mp ha').1 _
  · rw [hw.gotten_eq, hw.hbitmapCount_toNat (hcard.le.trans hw.card_le) hx]
    exact Nat.mul_lt_mul_of_pos_left hcard (Nat.two_pow_pos _)

/-- The cached count is exact.  In every run within the contract of the callers that
has no merge that adds a group and no shrinking truncation at a granularity of 31 or
more, `hbitmap_count` is the number of groups for which `hbitmap_get` is true, times
the size of a group, and `hbitmap_empty` says whether there are any; and every
further call is defined.  A merge that adds a group leaves a count that is too
small. -/
theorem count_exact (s : Store)
    (h : storeMachine.Reach (fun s op => Within s op ∧ ¬ LosesCount s op) s) : (∀ t ∈ s,
      (hbitmapCount t.hb).toNat = 2 ^ t.hb.granularity * (gotten t.hb).card ∧
      (hbitmapEmpty t.hb = true ↔ gotten t.hb = ∅)) ∧
    (∀ op, Within s op → ¬ LosesCount s op → ∃ s', s.step op = some s') ∧
    ∀ k l s', LosesCount s (.merge k l) → s.step (.merge k l) = some s' →
      ∃ t ∈ s', (hbitmapCount t.hb).toNat < 2 ^ t.hb.granularity * (gotten t.hb).card := by
  have hinv : (∀ t ∈ s, t.hb.Wf) ∧ ∀ t ∈ s, t.hb.Exact := by
    refine h.invariant ?_ ?_
    · rintro _ rfl
      exact ⟨nofun, nofun⟩
    · rintro s op s' - ⟨hwf, hexact⟩ ⟨hin, hok⟩ hs
      have heffect := effect_of_step hwf hin (.inr hok) hs
      exact ⟨heffect.wf hwf, heffect.exact hexact hok⟩
  obtain ⟨hwf, hexact⟩ := hinv
  refine ⟨fun t ht => ?_, ?_, ?_⟩
  · have hw := hwf t ht
    rw [hw.gotten_eq]
    refine ⟨hw.hbitmapCount_toNat hw.card_le (hexact t ht), ?_⟩
    have hlt : (groups t.hb).card < 2 ^ 64 := by
      have hcard := hw.card_le
      omega
    rw [hbitmapEmpty, beq_iff_eq, hexact t ht, ← card_eq_zero]
    constructor
    · intro heq
      have hnat := congrArg BitVec.toNat heq
      rwa [BitVec.toNat_ofNat, Nat.mod_eq_of_lt hlt] at hnat
    · intro heq
      rw [heq]
  · intro op hin hok
    obtain ⟨s', hs', -⟩ := step_spec hwf hin (.inr hok)
    exact ⟨s', hs'⟩
  · intro k l s' hlose hs
    exact count_lt_of_losesCount hwf hexact hlose hs

/-! ## Runs -/

instance (s : Store) (op : Op) : Decidable (Within s op) := by
  cases op <;> unfold Within <;> infer_instance

instance (s : Store) (op : Op) : Decidable (LosesGroups s op) := by
  cases op <;> unfold LosesGroups <;> infer_instance

instance (s : Store) (op : Op) : Decidable (LosesCount s op) := by
  cases op <;> unfold LosesCount <;> infer_instance

def threeBitmaps : List Op := [.alloc 64 0, .alloc 64 0, .alloc 64 0]

/-- A group goes from bitmap 0 to bitmap 1, and should go on to bitmap 2. -/
def mergeTwice : List Op := threeBitmaps ++ [.set 0 5 1, .merge 1 0, .merge 2 1]

/-- The second merge is skipped: its source has a group but a cached count of zero. -/
theorem merge_loses_groups : ∃ s t, storeMachine.Reach Within s ∧ s[2]? = some t ∧ 5 ∈ t.set ∧
      hbitmapGet t.hb 5 = some false := by
  have hok : storeMachine.Meets Within [] mergeTwice := by decide +kernel
  obtain ⟨s, -, hreach, t, ht, heq⟩ := Machine.Reach.exists_of_run (.init rfl) hok (P := fun s =>
    ∃ t ∈ s[2]?, 5 ∈ t.set ∧ hbitmapGet t.hb 5 = some false) (by decide +kernel)
  exact ⟨s, t, hreach, ht, heq⟩

/-- After the first merge the bitmap has a group and a cached count of zero. -/
theorem count_stale :
    ∃ s t, storeMachine.Reach Within s ∧ s[1]? = some t ∧ hbitmapCount t.hb = 0#64 ∧
      hbitmapEmpty t.hb = true ∧ hbitmapGet t.hb 5 = some true := by
  have hok : storeMachine.Meets Within [] mergeTwice := by decide +kernel
  obtain ⟨s, -, hreach, t, ht, heq⟩ := Machine.Reach.exists_of_run (.init rfl) hok (P := fun s =>
    ∃ t ∈ s[1]?, hbitmapCount t.hb = 0#64 ∧ hbitmapEmpty t.hb = true ∧
      hbitmapGet t.hb 5 = some true)
    (by decide +kernel)
  exact ⟨s, t, hreach, ht, heq⟩

/-- Ranges across word boundaries, a truncation and a merge into a bitmap that has
the groups already. -/
def mixedOps : List Op :=
  [.alloc 400 1, .alloc 400 1, .set 0 100 200, .reset 0 130 40, .set 1 140 4, .set 0 140 4,
    .merge 0 1, .truncate 0 280]

/-- The first bitmap reads as its set. -/
theorem hbitmap_refines_mixedOps : ∃ s t, storeMachine.run [] mixedOps = some s ∧ s[0]? = some t ∧
      hbitmapGet t.hb 141 = some true ∧ hbitmapGet t.hb 160 = some false := by
  have hok : storeMachine.Meets (fun s op => Within s op ∧ ¬ LosesGroups s op) [] mixedOps := by
    decide +kernel
  obtain ⟨s, hs, hreach, t, ht, hsize, hgran, hin, hout⟩ :=
    Machine.Reach.exists_of_run (.init rfl) hok (P := fun s => ∃ t ∈ s[0]?, t.hb.size = 140 ∧
      t.hb.granularity = 1 ∧ 70 ∈ t.set ∧ 80 ∉ t.set)
    (by decide +kernel)
  have hget := ((hbitmap_refines s hreach).1 t (mem_of_getElem? ht)).1
  refine ⟨s, t, hs, ht, ?_, ?_⟩
  · rw [hget 141 (by rw [hsize, hgran]; decide), hgran]
    simpa using hin
  · rw [hget 160 (by rw [hsize, hgran]; decide), hgran]
    simpa using hout

theorem count_exact_mixedOps : ∃ s t, storeMachine.run [] mixedOps = some s ∧ s[0]? = some t ∧
      (hbitmapCount t.hb).toNat = 2 * (gotten t.hb).card := by
  have hok : storeMachine.Meets (fun s op => Within s op ∧ ¬ LosesCount s op) [] mixedOps := by
    decide +kernel
  obtain ⟨s, hs, hreach, t, ht, hgran⟩ := Machine.Reach.exists_of_run (.init rfl) hok
    (P := fun s => ∃ t ∈ s[0]?, t.hb.granularity = 1) (by decide +kernel)
  have hcount := ((count_exact s hreach).1 t (mem_of_getElem? ht)).1
  refine ⟨s, t, hs, ht, ?_⟩
  rw [hcount, hgran, pow_one]

end QemuAndroid.Hbitmap
