import QemuAndroid.Hbitmap.Refine
import Mathlib.Data.Finset.Sort

/-!
# Iteration while the bitmap changes

`hbitmap_iter_next` under calls of `hbitmap_set` anywhere and of `hbitmap_reset` before the position
of the iterator, as the comment of `hbitmap_iter_init` allows.  What an iterator has yet to visit is
kept by these calls (`Pending.change`), and each call of `hbitmap_iter_next` takes the first group
out of it (`hbitmapIterNext_spec`).

The function returns an `int64_t`, with -1 at the end.  Elements from `2 ^ 63` on, which
`hbitmap_set` and `hbitmap_get` know, come out negative (`iteration_negative`).
-/

namespace QemuAndroid.Hbitmap

open Lib Function List Option BitVec Finset

variable {hb hb' : HBitmap} {hbi : HBitmapIter} {due : Finset Nat} {lo n i : Nat} {w : Word}
  {levels levels' : Nat → Array Word}

/-! ## The next group -/

/-- The lowest bit of the current word is the next group. -/
theorem Pending.take (h : Pending levels due lo w hbi) (hw : w ≠ 0#64)
    (hn : n = 64 * hbi.pos + ctzl w) : bitAt (levels 6) n = true ∧ lo ≤ n ∧ (∀ m ∈ due, n ≤ m) ∧
      Pending levels (due.erase n) (n + 1) (update hbi.cur 6 (w &&& (w - 1#64)) 6)
        { hbi with cur := update hbi.cur 6 (w &&& (w - 1#64)) } := by
  rw [update_self]
  have hc := ctzl_lt hw
  obtain ⟨hmem, hlo⟩ := h.word _ hc (getLsbD_ctzl hw)
  rw [← hn] at hmem hlo
  refine ⟨hmem, hlo, fun m hm => ?_, (h.mono (erase_subset n due)).path.setWord _,
    fun k hk hbit => ?_, fun m hm => ?_, show n + 1 ≤ 64 * (hbi.pos + 1) by omega⟩
  · rcases (h.due m hm).2 with ⟨hpos, hbit⟩ | hlt
    · have := ctzl_le hbit
      omega
    · omega
  · rw [getLsbD_and_sub_one hw, Bool.and_eq_true, decide_eq_true_eq] at hbit
    have := ctzl_le hbit.1
    exact ⟨(h.word k hk hbit.1).1, show n + 1 ≤ 64 * hbi.pos + k by omega⟩
  obtain ⟨hne, hm⟩ := mem_erase.1 hm
  refine ⟨(h.due m hm).1, (h.due m hm).2.imp_left fun ⟨hpos, hbit⟩ => ⟨hpos, ?_⟩⟩
  rw [getLsbD_and_sub_one hw, hbit, Bool.true_and, decide_eq_true_eq]
  omega

theorem item_eq (p c g : Nat) : ((BitVec.ofNat 64 p <<< 6) + BitVec.ofNat 64 c) <<< g =
    BitVec.ofNat 64 ((64 * p + c) * 2 ^ g) := by
  refine eq_of_toNat_eq ?_
  simp only [toNat_shiftLeft, toNat_add, toNat_ofNat, Nat.shiftLeft_eq,
    Nat.mod_mul_mod, Nat.mod_add_mod, Nat.add_mod_mod]
  rw [Nat.mul_comm p]

/-- `hbitmap_iter_next` returns the first group that is left, or -1 from now on. -/
theorem hbitmapIterNext_spec (hwf : hb.Wf) (h : Pending hb.levels due lo (hbi.cur 6) hbi) :
    ((∀ hb', hbitmapIterNext hb' hbi = some (hbi, -1#64)) ∧ due = ∅) ∨
    ∃ n hbi', hbitmapIterNext hb hbi = some (hbi', firstOf hb n) ∧ n ∈ groups hb ∧ lo ≤ n ∧
      (∀ m ∈ due, n ≤ m) ∧ Pending hb.levels (due.erase n) (n + 1) (hbi'.cur 6) hbi' := by
  by_cases hcur : hbi.cur 6 = 0#64
  · rw [hcur] at h
    rcases h.skip hwf.fits hwf.linked with ⟨hbi', hskip, hne, h'⟩ | ⟨hskip, hempty⟩
    · right
      obtain ⟨hmem, hlo, hleast, hnext⟩ := h'.take hne rfl
      refine ⟨_, { hbi' with cur := update hbi'.cur 6 _ }, ?_, mem_groups.2 hmem, hlo, hleast,
        hnext⟩
      rw [firstOf, ← item_eq]
      simp [hbitmapIterNext, numLevels, hcur, hskip, hne]
    · exact .inl ⟨fun hb' => by simp [hbitmapIterNext, numLevels, hcur, hskip hb'], hempty⟩
  right
  obtain ⟨hmem, hlo, hleast, hnext⟩ := h.take hcur rfl
  refine ⟨_, { hbi with cur := update hbi.cur 6 _ }, ?_, mem_groups.2 hmem, hlo, hleast, hnext⟩
  rw [firstOf, ← item_eq]
  simp [hbitmapIterNext, numLevels, hcur]

/-! ## Changes of the bitmap -/

/-- Below a word of a level that is not zero there is a bit of the last level. -/
theorem exists_bitAt_of_ne_zero (hlinked : Linked levels 6) (hi : i ≤ 6) (hi0 : i ≠ 0)
    (h : wordAt (levels i) n ≠ 0#64) : ∃ m, bitAt (levels 6) m = true ∧
    ancestor i (m / 64) = n := by
  induction hi using Nat.decreasingInduction generalizing n with
  | self =>
    obtain ⟨m, hm, hbit⟩ := wordAt_ne_zero_iff.mp h
    exact ⟨m, hbit, by rw [ancestor_last, hm]⟩
  | of_succ i hi ih =>
    obtain ⟨m, rfl, hbit⟩ := wordAt_ne_zero_iff.mp h
    have hword := ((hlinked i hi m).mp hbit).resolve_right fun hs => hi0 hs.1
    obtain ⟨q, hq, hanc⟩ := ih (Nat.succ_ne_zero i) hword
    exact ⟨q, hq, by rw [← ancestor_div hi, hanc]⟩

/-- What is left stays so as long as no bit from `lo` on is reset: bits of the path that are
older than the bitmap still lead to words that are not zero. -/
theorem Pending.change (h : Pending levels due lo w hbi) (hlinked : Linked levels 6)
    (hlinked' : Linked levels' 6) (hsize : (levels' 6).size = (levels 6).size)
    (hkeep : ∀ n, bitAt (levels 6) n = true → lo ≤ n → bitAt (levels' 6) n = true) :
    Pending levels' due lo w hbi := by
  have hlo := h.lo_le
  have hdue : ∀ n ∈ due, bitAt (levels' 6) n = true := by
    intro n hn
    refine hkeep n (h.due n hn).1 ?_
    rcases (h.due n hn).2 with ⟨hpos, hbit⟩ | hlt
    · have := (h.word _ (Nat.mod_lt n (by decide)) hbit).2
      omega
    · omega
  refine ⟨⟨hsize ▸ h.path.pos_lt, ?_, fun i hi k hk => ⟨fun hbit => ?_, (h.path.cur i hi k hk).2⟩⟩,
    fun k hk hbit => ?_, fun n hn => ⟨hdue n hn, (h.due n hn).2⟩, hlo⟩
  · rintro q ⟨n, hn, rfl⟩
    exact wordAt_ne_zero_iff.mpr ⟨n, rfl, hdue n hn⟩
  · obtain ⟨hset, hbehind⟩ := (h.path.cur i hi k hk).1 hbit
    refine ⟨?_, hbehind⟩
    rcases (hlinked i hi _).mp hset with hword | hs
    · obtain ⟨n, hn, hanc⟩ := exists_bitAt_of_ne_zero hlinked hi (Nat.succ_ne_zero i) hword
      rw [← hanc] at hbehind ⊢
      have hlt := lt_of_ancestor_lt hbehind
      have hn' := hkeep n hn (by omega)
      exact bitAt_ancestor hlinked' (wordAt_ne_zero_iff.mpr ⟨n, rfl, hn'⟩) hi
    · exact (hlinked' i hi _).mpr (.inr hs)
  · obtain ⟨hset, hle⟩ := h.word k hk hbit
    exact ⟨hkeep _ hset hle, hle⟩

/-! ## Runs -/

/-- The calls on a bitmap while it is iterated on. -/
inductive IterEvent
  | next
  | set (start count : BitVec 64)
  | reset (start count : BitVec 64)

structure Iteration where
  hb : HBitmap
  hbi : HBitmapIter
  /-- what `hbitmap_iter_next` has returned so far -/
  returned : List Int

def Iteration.step (s : Iteration) : IterEvent → Option Iteration
  | .next => (hbitmapIterNext s.hb s.hbi).map fun (hbi, item) =>
    { s with hbi := hbi, returned := s.returned ++ [item.toInt] }
  | .set start count => (hbitmapSet s.hb start count).map fun hb => { s with hb := hb }
  | .reset start count => (hbitmapReset s.hb start count).map fun hb => { s with hb := hb }

def iteration (hb : HBitmap) (first : BitVec 64) : Machine Iteration IterEvent where
  init s := s.hb = hb ∧ hbitmapIterInit hb first = some s.hbi ∧ s.returned = []
  step := Iteration.step

/-- The first element of a group. -/
def HBitmap.itemOf (hb : HBitmap) (n : Nat) : Int := (n * 2 ^ hb.granularity : Nat)

def HBitmap.groupOf (hb : HBitmap) (item : BitVec 64) : Nat := item.toNat / 2 ^ hb.granularity

/-- The first group that the iterator has not passed. -/
def Iteration.position (first : BitVec 64) (s : Iteration) : Nat :=
  match s.returned.getLast? with
  | none => s.hb.groupOf first
  | some item => if item = -1 then s.hb.size.toNat else item.toNat / 2 ^ s.hb.granularity + 1

/-- Other code sets bits, or resets bits before the position of the iterator. -/
def Iteration.Allowed (first : BitVec 64) (s : Iteration) : IterEvent → Prop
  | .next => True
  | .set start count => s.hb.InRange start count
  | .reset start count => s.hb.InRange start count ∧
    ∀ n ∈ groupRange s.hb.granularity start count, n < s.position first

/-- The elements that an iteration from the group `lo` on returns, in order. -/
def itemsFrom (hb : HBitmap) (lo : Nat) : List Int :=
  (((groups hb).filter (lo ≤ ·)).sort (· ≤ ·)).map hb.itemOf

/-- All elements of the bitmap are values of an `int64_t`. -/
def HBitmap.FitsInt64 (hb : HBitmap) : Prop := hb.size.toNat * 2 ^ hb.granularity ≤ 2 ^ 63

theorem firstOf_toInt (hint : hb.FitsInt64) (hn : n < hb.size.toNat) :
    (firstOf hb n).toInt = hb.itemOf n := by
  have hlt := Nat.mul_lt_mul_of_pos_right hn (Nat.two_pow_pos hb.granularity)
  have hnat : (firstOf hb n).toNat = n * 2 ^ hb.granularity := by
    rw [firstOf, toNat_ofNat, Nat.mod_eq_of_lt (by unfold HBitmap.FitsInt64 at hint; omega)]
  rw [toInt_eq_toNat_of_lt (by unfold HBitmap.FitsInt64 at hint; omega), hnat, HBitmap.itemOf]

/-- One call of `hbitmap_iter_next`, with no change before it. -/
theorem Pending.next (h : Pending hb.levels ((groups hb).filter (lo ≤ ·)) lo (hbi.cur 6) hbi)
    (hwf : hb.Wf) (hint : hb.FitsInt64) :
    ∃ hbi' item lo', hbitmapIterNext hb hbi = some (hbi', item) ∧
      item.toInt = (itemsFrom hb lo).getD 0 (-1) ∧
      Pending hb.levels ((groups hb).filter (lo' ≤ ·)) lo' (hbi'.cur 6) hbi' ∧
      ∀ i, (itemsFrom hb lo').getD i (-1) = (itemsFrom hb lo).getD (i + 1) (-1) := by
  rcases hbitmapIterNext_spec hwf h with ⟨hend, hempty⟩ | ⟨n, hbi', hnext, hmem, hlo, hleast, h'⟩
  · exact ⟨hbi, -1#64, lo, hend hb, by simp [itemsFrom, hempty], h, fun i =>
      by simp [itemsFrom, hempty]⟩
  have hrest : ((groups hb).filter (lo ≤ ·)).erase n = (groups hb).filter (n + 1 ≤ ·) := by
    ext m
    simp only [mem_erase, Finset.mem_filter] at hleast ⊢
    constructor
    · rintro ⟨hne, hm, hle⟩
      have := hleast m ⟨hm, hle⟩
      exact ⟨hm, by omega⟩
    · rintro ⟨hm, hlt⟩
      exact ⟨by omega, hm, by omega⟩
  have hitems : itemsFrom hb lo = hb.itemOf n :: itemsFrom hb (n + 1) := by
    rw [itemsFrom, ← insert_erase (Finset.mem_filter.2 ⟨hmem, hlo⟩), hrest,
      sort_insert _ (fun m hm => ?_) (by simp), List.map_cons, itemsFrom]
    exact Nat.le_of_succ_le (Finset.mem_filter.1 hm).2
  refine ⟨hbi', _, n + 1, hnext, ?_, hrest ▸ h', fun i => by rw [hitems]; rfl⟩
  rw [hitems, firstOf_toInt hint (hwf.lt_size hmem)]
  rfl

variable {first : BitVec 64}

variable {s : Iteration}

/-- Calls of `hbitmap_iter_next` alone. -/
theorem run_next (hwf : s.hb.Wf) (hint : s.hb.FitsInt64)
    (h : Pending s.hb.levels ((groups s.hb).filter (lo ≤ ·)) lo (s.hbi.cur 6) s.hbi) (k : Nat) :
    ∃ s', (iteration hb first).run s (List.replicate k .next) = some s' ∧
      s'.returned = s.returned ++ (List.range k).map ((itemsFrom s.hb lo).getD · (-1)) := by
  induction k generalizing s lo with
  | zero => exact ⟨s, rfl, by simp⟩
  | succ k ih =>
    obtain ⟨hbi', item, lo', hnext, hitem, h', hrest⟩ := h.next hwf hint
    have hstep : s.step .next =
        some { s with hbi := hbi', returned := s.returned ++ [item.toInt] } := by
      simp [Iteration.step, hnext]
    obtain ⟨s', hrun, hret⟩ :=
      ih (s := { s with hbi := hbi', returned := s.returned ++ [item.toInt] }) hwf hint h'
    refine ⟨s', bind_eq_some_iff.2 ⟨_, hstep, hrun⟩, ?_⟩
    rw [hret, range_succ_eq_map, List.map_cons, List.map_map, ← hitem, List.append_assoc]
    simp only [hrest]
    rfl

/-- What has been visited, and what is left. -/
structure Visiting (hb : HBitmap) (first : BitVec 64) (s : Iteration) : Prop where
  wf : s.hb.Wf
  size : s.hb.size = hb.size
  granularity : s.hb.granularity = hb.granularity
  visited : ∃ ns : List Nat, ns.Pairwise (· < ·) ∧
    (∀ n ∈ ns, hb.groupOf first ≤ n ∧ n < hb.size.toNat) ∧
    ((s.returned = ns.map hb.itemOf ∧
      hb.groupOf first ≤ s.position first ∧ (∀ n ∈ ns, n < s.position first) ∧
      (∀ n ∈ groups hb, hb.groupOf first ≤ n → n ∈ ns ∨ s.position first ≤ n) ∧
      Pending s.hb.levels ((groups hb).filter (s.position first ≤ ·)) (s.position first)
        (s.hbi.cur 6) s.hbi) ∨
    ((∃ j, s.returned = ns.map hb.itemOf ++ List.replicate (j + 1) (-1)) ∧
      (∀ n ∈ groups hb, hb.groupOf first ≤ n → n ∈ ns) ∧
      ∀ hb', hbitmapIterNext hb' s.hbi = some (s.hbi, -1#64)))

theorem Visiting.change (h : Visiting hb first s) (hwf : hb'.Wf)
    (hsize : hb'.size = s.hb.size) (hgran : hb'.granularity = s.hb.granularity)
    (hkeep : ∀ n ∈ groups s.hb, s.position first ≤ n → n ∈ groups hb') :
    Visiting hb first { s with hb := hb' } := by
  have hpos : ({ s with hb := hb' } : Iteration).position first = s.position first := by
    simp only [Iteration.position, HBitmap.groupOf, hsize, hgran]
  obtain ⟨ns, hsorted, hns, hcase⟩ := h.visited
  refine ⟨hwf, hsize.trans h.size, hgran.trans h.granularity, ns, hsorted, hns, hcase.imp_left ?_⟩
  rw [hpos]
  rintro ⟨hret, hle, hlt, hall, hp⟩
  refine ⟨hret, hle, hlt, hall, hp.change h.wf.linked hwf.linked ?_ fun n hn hge => ?_⟩
  · rw [hwf.sizes 6 (by decide), h.wf.sizes 6 (by decide), hsize]
  · exact mem_groups.1 (hkeep n (mem_groups.2 hn) hge)

theorem Visiting.next (h : Visiting hb first s)
    (hint : hb.FitsInt64) : ∃ s', s.step .next = some s' ∧ Visiting hb first s' := by
  obtain ⟨ns, hsorted, hns, ⟨hret, hle, hlt, hall, hp⟩ | ⟨⟨j, hret⟩, hall, hend⟩⟩ := h.visited
  · rcases hbitmapIterNext_spec h.wf hp with ⟨hend, hempty⟩ |
      ⟨n, hbi', hnext, hmem, hlo, hleast, hp'⟩
    · refine ⟨{ s with returned := s.returned ++ [-1] }, by simp [Iteration.step, hend], h.wf,
        h.size, h.granularity, ns, hsorted, hns,
        .inr ⟨⟨0, by rw [hret]; rfl⟩, fun n hn hle => ?_, hend⟩⟩
      refine (hall n hn hle).resolve_right fun hge => ?_
      exact notMem_empty n (hempty ▸ Finset.mem_filter.2 ⟨hn, hge⟩)
    have hn := h.wf.lt_size hmem
    have hx : (firstOf s.hb n).toInt = hb.itemOf n := by
      rw [firstOf_toInt (by rwa [HBitmap.FitsInt64, h.size, h.granularity]) hn, HBitmap.itemOf,
        h.granularity, HBitmap.itemOf]
    let s' : Iteration := ⟨s.hb, hbi', s.returned ++ [(firstOf s.hb n).toInt]⟩
    have hpos : s'.position first = n + 1 := by
      simp only [s', Iteration.position, getLast?_concat, hx, HBitmap.itemOf]
      rw [if_neg (by omega), Int.toNat_natCast, h.granularity,
        Nat.mul_div_cancel _ (Nat.two_pow_pos _)]
    rw [h.size] at hn
    refine ⟨s', by rw [Iteration.step, hnext]; rfl, h.wf, h.size, h.granularity, ns ++ [n], ?_, ?_,
      .inl ?_⟩
    · refine pairwise_append.2 ⟨hsorted, pairwise_singleton _ _, fun m hm k hk => ?_⟩
      have := hlt m hm
      rw [List.mem_singleton.1 hk]
      omega
    · exact forall_mem_append.2 ⟨hns, forall_mem_singleton.2 ⟨by omega, hn⟩⟩
    rw [hpos]
    refine ⟨by simp [s', hret, hx], by omega, fun m hm => ?_, fun m hm hm' => ?_,
      hp'.mono fun m hm => ?_⟩
    · rcases mem_append.1 hm with hm | hm
      · have := hlt m hm
        omega
      · rw [List.mem_singleton.1 hm]
        omega
    · rw [mem_append, List.mem_singleton]
      rcases hall m hm hm' with hin | hge
      · exact .inl (.inl hin)
      · have := hleast m (Finset.mem_filter.2 ⟨hm, hge⟩)
        omega
    · obtain ⟨hm, hlt'⟩ := Finset.mem_filter.1 hm
      exact mem_erase.2 ⟨by omega, Finset.mem_filter.2 ⟨hm, by omega⟩⟩
  · refine ⟨{ s with returned := s.returned ++ [-1] }, by simp [Iteration.step, hend], h.wf, h.size,
      h.granularity, ns, hsorted, hns, .inr ⟨⟨j + 1, ?_⟩, hall, hend⟩⟩
    rw [hret, List.append_assoc, ← List.replicate_succ']

theorem Visiting.step {e : IterEvent} (h : Visiting hb first s)
    (hint : hb.FitsInt64) (hok : s.Allowed first e) : ∃ s', s.step e = some s' ∧
    Visiting hb first s' := by
  cases e with
  | next => exact h.next hint
  | set start count =>
    obtain ⟨hb', hset, hwf, hsize, hgran, hgroups, -⟩ := hbitmapSet_spec h.wf hok
    refine ⟨_, by rw [Iteration.step, hset]; rfl, h.change hwf hsize hgran fun n hn _ => ?_⟩
    rw [hgroups]
    exact mem_union_left _ hn
  | reset start count =>
    obtain ⟨hb', hreset, hwf, hsize, hgran, hgroups, -⟩ := hbitmapReset_spec h.wf hok.1
    refine ⟨_, by rw [Iteration.step, hreset]; rfl, h.change hwf hsize hgran fun n hn hle => ?_⟩
    rw [hgroups]
    exact mem_sdiff.2 ⟨hn, fun hr => Nat.not_lt.2 hle (hok.2 n hr)⟩

/-- Iteration is complete and ordered.  From an iterator on a well-formed bitmap with elements below
`2 ^ 63`, `hbitmap_iter_next` returns the set groups from `first` on in order, each as its first
element, and then -1 for ever.  While other code sets bits, or resets bits before the position of
the iterator, no call fails, the elements returned are increasing, and by the time that -1 is
returned they contain every group that was set at the start. -/
theorem iteration_complete (hwf : hb.Wf) (hint : hb.FitsInt64) {first : BitVec 64}
    (hfirst : first.toNat < hb.size.toNat * 2 ^ hb.granularity) :
    (∃ s, (iteration hb first).init s) ∧ (∀ s, (iteration hb first).init s → ∀ k, ∃ s',
      (iteration hb first).run s (List.replicate k .next) = some s' ∧ s'.returned =
        (List.range k).map ((itemsFrom hb (hb.groupOf first)).getD · (-1))) ∧
    ∀ s, (iteration hb first).Reach (Iteration.Allowed first) s →
      (∀ e, s.Allowed first e → ∃ s', s.step e = some s') ∧
      ∃ (ns : List Nat) (j : Nat), s.returned = ns.map hb.itemOf ++
          List.replicate j (-1) ∧ ns.Pairwise (· < ·) ∧
        (∀ n ∈ ns, hb.groupOf first ≤ n ∧ n < hb.size.toNat) ∧
        (j ≠ 0 → ∀ n ∈ groups hb, hb.groupOf first ≤ n → n ∈ ns) := by
  obtain ⟨hbi, hinit, hp⟩ := hbitmapIterInit_spec hwf.fits hwf.linked first
    (by rw [toNat_ushiftRight, Nat.shiftRight_eq_div_pow])
    (Nat.div_lt_of_lt_mul (by rwa [Nat.mul_comm])) hwf.size_le_last
  have hstart : ∀ s, (iteration hb first).init s → s = ⟨hb, hbi, []⟩ := by
    rintro ⟨hb₀, hbi₀, ret⟩ ⟨rfl, hi, rfl⟩
    obtain rfl : hbi₀ = hbi := some.inj (hi.symm.trans hinit)
    rfl
  refine ⟨⟨⟨hb, hbi, []⟩, rfl, hinit, rfl⟩, fun s hs k => ?_, fun s hs => ?_⟩
  · obtain rfl := hstart s hs
    exact run_next hwf hint hp k
  have hv : Visiting hb first s := by
    refine hs.invariant (fun s hs => ?_) fun s e s' _ h hok hs' => ?_
    · obtain rfl := hstart s hs
      exact ⟨hwf, rfl, rfl, [], .nil, nofun, .inl ⟨rfl, Nat.le_refl _, nofun, fun _ _ => .inr, hp⟩⟩
    · obtain ⟨s'', hs'', h'⟩ := h.step hint hok
      obtain rfl := some.inj (hs''.symm.trans hs')
      exact h'
  refine ⟨fun e he => (hv.step hint he).imp fun _ h => h.1, ?_⟩
  obtain ⟨ns, hsorted, hns, ⟨hret, -⟩ | ⟨⟨j, hret⟩, hall, -⟩⟩ := hv.visited
  · exact ⟨ns, 0, by simpa using hret, hsorted, hns, fun h => absurd rfl h⟩
  · exact ⟨ns, j + 1, hret, hsorted, hns, fun _ => hall⟩

theorem iteration_complete_twoGroups : ∃ hb s s',
    (hbitmapAlloc 400 1).bind (hbitmapSet · 100 4) = some hb ∧ (iteration hb 0).init s ∧
      (iteration hb 0).run s [.next, .next, .next] = some s' ∧ s'.returned = [100, 102, -1] := by
  have hmax : (roundUp 400 1).toNat ≤ 2 ^ logMaxSize := by decide
  obtain ⟨hb₀, halloc, hwf₀, hsize₀, hgran₀, hgroups₀, -⟩ := hbitmapAlloc_spec (by decide) hmax
  have hin : hb₀.InRange 100 4 := by
    rw [HBitmap.InRange, hsize₀, hgran₀]
    decide
  obtain ⟨hb, hset, hwf, hsize, hgran, hgroups, -⟩ := hbitmapSet_spec hwf₀ hin
  rw [hsize₀] at hsize
  rw [hgran₀] at hgran
  rw [hgroups₀, hgran₀] at hgroups
  have hfirst : (0#64).toNat < hb.size.toNat * 2 ^ hb.granularity := by
    rw [hsize, hgran]
    decide
  obtain ⟨⟨s, hs⟩, hnext, -⟩ :=
    iteration_complete hwf (by rw [HBitmap.FitsInt64, hsize, hgran]; decide) hfirst
  obtain ⟨s', hrun, hret⟩ := hnext s hs 3
  refine ⟨hb, s, s', by rw [halloc, bind_some, hset], hs, hrun, ?_⟩
  have hgroup : hb.groupOf 0#64 = 0 := Nat.zero_div _
  have hitem : hb.itemOf = fun n => ((n * 2 ^ 1 : Nat) : Int) := by
    funext n
    rw [HBitmap.itemOf, hgran]
  have hitems : (∅ ∪ groupRange 1 100 4).filter (0 ≤ ·) = insert 50 {51} := by decide
  rw [hret, itemsFrom, hgroups, hgroup, hitem, hitems,
    sort_insert _ (by decide) (by decide), sort_singleton]
  rfl

/-- The elements from `2 ^ 63` on come out negative. -/
theorem iteration_negative : ∃ hb s s', hb.Wf ∧ (iteration hb 0).init s ∧
    (iteration hb 0).run s [.next, .next, .next] = some s' ∧
      s'.returned = [0, 2 ^ 62, -2 ^ 63] := by
  have hmax : (roundUp (3#64 <<< 62) 62).toNat ≤ 2 ^ logMaxSize := by decide
  obtain ⟨hb₀, halloc, hwf₀, hsize₀, hgran₀, -⟩ := hbitmapAlloc_spec (by decide) hmax
  have hin : hb₀.InRange 0 (3#64 <<< 62) := by
    rw [HBitmap.InRange, hsize₀, hgran₀]
    decide
  obtain ⟨hb, hset, hwf, -⟩ := hbitmapSet_spec hwf₀ hin
  have heval : (((hbitmapAlloc (3#64 <<< 62) 62).bind (hbitmapSet · 0 (3#64 <<< 62))).any fun hb =>
      (hbitmapIterInit hb 0).any fun hbi => ((iteration hb 0).run ⟨hb, hbi, []⟩
        [.next, .next, .next]).any (·.returned = [0, 2 ^ 62, -2 ^ 63])) := by decide +kernel
  rw [halloc, bind_some, hset, any_some] at heval
  obtain ⟨hbi, hinit, heval⟩ := (Option.any_eq_true ..).1 heval
  obtain ⟨s', hrun, hret⟩ := (Option.any_eq_true ..).1 heval
  exact ⟨hb, ⟨hb, hbi, []⟩, s', hwf, ⟨rfl, hinit, rfl⟩, hrun, of_decide_eq_true hret⟩

end QemuAndroid.Hbitmap
