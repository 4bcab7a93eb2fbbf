import QemuAndroid.Block.Aligned

/-!
# Requests that are cut into pieces

`bdrv_co_do_write_zeroes` and `bdrv_co_discard` cut a request where the driver's limits ask for it,
and call the driver for one piece after the other.  What the driver answers is a function of where a
call starts, as no two calls of a function start at the same sector.
-/

namespace QemuAndroid.Block

open List Nat BlockConfig

variable {s n : Nat} {calls : List (Nat × Nat)}

/-- Calls for `n` sectors from `s` on: each is for at least one sector, and starts where the one
before it ends. -/
def Tiles : Nat → Nat → List (Nat × Nat) → Prop
  | _, n, [] => n = 0
  | s, n, (start, num) :: calls => start = s ∧ 0 < num ∧ num ≤ n ∧ Tiles (s + num) (n - num) calls

theorem Tiles.le (h : Tiles s n calls) {p : Nat × Nat} (hp : p ∈ calls) : s ≤ p.1 := by
  induction calls generalizing s n with
  | nil => cases hp
  | cons q calls ih =>
    obtain ⟨rfl, -, -, hrest⟩ := h
    rcases mem_cons.1 hp with rfl | hp
    · exact le_refl _
    · exact (le_add_right _ _).trans (ih hrest hp)

theorem Tiles.disjoint (h : Tiles s n calls) : calls.Pairwise fun p q => p.1 + p.2 ≤ q.1 := by
  induction calls generalizing s n with
  | nil => exact .nil
  | cons q calls ih =>
    obtain ⟨rfl, -, -, hrest⟩ := h
    exact .cons (fun p hp => hrest.le hp) (ih hrest)

theorem minNonZero_le (a b : Nat) : minNonZero a b ≤ b ∧ (a ≠ 0 → minNonZero a b ≤ a) := by
  unfold minNonZero
  split <;> omega

/-! ## Zeroes -/

/-- The sectors that a call is for: where they start, and how many. -/
def ZeroCall.range (c : ZeroCall) : Nat × Nat := (c.sectorNum, c.num)

/-- A call is within the limits, and within the bounce buffer if it writes from it. -/
structure ZeroCall.Within (bl : BlockLimits) (c : ZeroCall) : Prop where
  zeroes : bl.maxWriteZeroes ≠ 0 → c.num ≤ bl.maxWriteZeroes
  buffer : ∀ len ∈ c.buffer, c.num ≤ len ∧
    (bl.maxTransferLength ≠ 0 → c.num ≤ bl.maxTransferLength)

theorem zeroPiece_le_max (bl : BlockLimits) (s n : Nat) (h : bl.maxWriteZeroes ≠ 0) :
    zeroPiece bl s n ≤ bl.maxWriteZeroes :=
  (min_le_right _ _).trans ((minNonZero_le _ _).2 h)

/-- The calls make up the request, each within the limits, and the driver is as they leave it.  A
buffer that is kept is as long as any write can be. -/
theorem bdrvCoDoWriteZeroes_calls (cfg : BlockConfig) {fuel : Nat} (d : Driver) {buf : Option Nat}
    (hfuel : n ≤ fuel) (hbuf : ∀ len ∈ buf, maxXferLen cfg.limits ≤ len) :
    let r := bdrvCoDoWriteZeroes cfg fuel d s n buf
    Tiles s n (r.2.map ZeroCall.range) ∧ (∀ c ∈ r.2, c.Within cfg.limits) ∧
      r.1 = r.2.foldl (fun d c => drvWriteZeroes cfg d c.sectorNum c.num) d := by
  fun_induction bdrvCoDoWriteZeroes cfg fuel d s n buf with
  | case1 => exact ⟨le_zero.1 hfuel, forall_mem_nil _, rfl⟩
  | case2 => exact ⟨rfl, forall_mem_nil _, rfl⟩
  | case3 fuel d s n buf hn num hz r ih =>
    have hpos : 0 < num := zeroPiece_pos _ s (Nat.pos_of_ne_zero hn)
    obtain ⟨htiles, hwithin, hdriver⟩ := ih (by omega) hbuf
    have hcall : (ZeroCall.mk s num none).Within cfg.limits :=
      ⟨zeroPiece_le_max _ _ _, by rintro _ ⟨⟩⟩
    exact ⟨⟨rfl, hpos, zeroPiece_le _ _ _, htiles⟩, forall_mem_cons.2 ⟨hcall, hwithin⟩, hdriver⟩
  | case4 fuel d s n buf hn piece hz num len d' r ih =>
    have hpos : 0 < num :=
      Nat.lt_min.2 ⟨zeroPiece_pos _ s (Nat.pos_of_ne_zero hn), maxXferLen_pos _⟩
    have hpiece : num ≤ piece := min_le_left _ _
    have hmax : num ≤ maxXferLen cfg.limits := min_le_right _ _
    obtain ⟨htiles, hwithin, hdriver⟩ := ih (by omega) fun len' hlen' => by
      obtain ⟨hge, ⟨⟩⟩ := Option.ite_none_left_eq_some.1 hlen'
      cases buf with
      | none => exact Nat.le_of_not_lt hge
      | some len => exact hbuf len rfl
    have hlen : num ≤ len := by
      cases buf with
      | none => exact le_refl _
      | some len => exact hmax.trans (hbuf len rfl)
    have hcall : (ZeroCall.mk s num (some len)).Within cfg.limits := by
      refine ⟨fun h => hpiece.trans (zeroPiece_le_max _ _ _ h), ?_⟩
      rintro _ ⟨⟩
      exact ⟨hlen, fun h => hmax.trans ((minNonZero_le _ _).2 h)⟩
    exact ⟨⟨rfl, hpos, hpiece.trans (zeroPiece_le _ _ _), htiles⟩,
      forall_mem_cons.2 ⟨hcall, hwithin⟩, hdriver⟩

structure DiscardLimits where
  maxDiscard : Nat
  discardAlignment : Nat

/-- What the driver returns for a discard: 0, `-ENOTSUP`, or another error. -/
inductive DiscardResult
  | ok
  | enotsup
  | error
deriving DecidableEq

def maxDiscard (bl : DiscardLimits) : Nat := minNonZero bl.maxDiscard requestMaxSectors

/-- The discard starts off the alignment, and is not short. -/
def Realigned (bl : DiscardLimits) (sectorNum nbSectors : Nat) : Prop :=
  bl.discardAlignment ≠ 0 ∧ bl.discardAlignment ≤ nbSectors ∧ sectorNum % bl.discardAlignment ≠ 0
deriving Decidable

/-- How many sectors a pass of `bdrv_co_discard` is for. -/
def discardPiece (bl : DiscardLimits) (sectorNum nbSectors : Nat) : Nat :=
  let num :=
    if Realigned bl sectorNum nbSectors then
      min nbSectors bl.discardAlignment - sectorNum % bl.discardAlignment
    else nbSectors
  min num (maxDiscard bl)

variable (bl : DiscardLimits)

theorem discardPiece_pos (s : Nat) (h : n ≠ 0) : 0 < discardPiece bl s n := by
  refine Nat.lt_min.2 ⟨?_, minNonZero_pos (by decide)⟩
  split
  · next hr =>
    rw [min_eq_right hr.2.1]
    exact Nat.sub_pos_of_lt (mod_lt _ (Nat.pos_of_ne_zero hr.1))
  · exact Nat.pos_of_ne_zero h

theorem discardPiece_le (s n : Nat) : discardPiece bl s n ≤ n := by
  refine (min_le_left _ _).trans ?_
  split
  · exact (sub_le _ _).trans (min_le_left _ _)
  · exact le_refl _

theorem discardPiece_eq_iff : discardPiece bl s n = n ↔ ¬ Realigned bl s n ∧ n ≤ maxDiscard bl := by
  unfold discardPiece
  split
  · next hr =>
    refine iff_of_false (Nat.ne_of_lt ((min_le_left _ _).trans_lt ?_)) fun h => h.1 hr
    rw [min_eq_right hr.2.1]
    exact (sub_lt (Nat.pos_of_ne_zero hr.1) (Nat.pos_of_ne_zero hr.2.2)).trans_le hr.2.1
  · next hr => exact min_eq_left_iff.trans (iff_and_self.2 fun _ => hr)

section

variable (coroutine : Bool) (result : Nat → DiscardResult)

/-- The loop of `bdrv_co_discard`: the ranges that `bdrv_co_discard` or, unless the driver has that,
`bdrv_aio_discard` is called for, and whether the loop returns 0. -/
def bdrvCoDiscard (sectorNum nbSectors : Nat) : List (Nat × Nat) × Bool :=
  if nbSectors = 0 then ([], true)
  else
    let num := discardPiece bl sectorNum nbSectors
    -- the other interface gets all that is left
    let call := (sectorNum, if coroutine then num else nbSectors)
    if result sectorNum = .error then ([call], false)
    else
      let r := bdrvCoDiscard (sectorNum + num) (nbSectors - num)
      (call :: r.1, r.2)
termination_by nbSectors
decreasing_by
  next hn _ => exact sub_lt (Nat.pos_of_ne_zero hn) (discardPiece_pos bl sectorNum hn)

end

/-- The calls are for consecutive, disjoint ranges of the request within the limit, and make up the
request if the loop returns 0. -/
def DiscardsOnce (s n : Nat) (r : List (Nat × Nat) × Bool) : Prop :=
  ∃ m ≤ n, Tiles s m r.1 ∧ (r.1.Pairwise fun p q => p.1 + p.2 ≤ q.1) ∧
    (∀ p ∈ r.1, p.2 ≤ maxDiscard bl) ∧ (r.2 = true → m = n)

variable {bl}

theorem DiscardsOnce.cons {num : Nat} {r : List (Nat × Nat) × Bool} (hpos : 0 < num)
    (hmax : num ≤ maxDiscard bl) (hle : num ≤ n) (h : DiscardsOnce bl (s + num) (n - num) r) :
    DiscardsOnce bl s n ((s, num) :: r.1, r.2) := by
  obtain ⟨m, hm, htiles, -, hlimit, hret⟩ := h
  have htiles : Tiles s (num + m) ((s, num) :: r.1) :=
    ⟨rfl, hpos, le_add_right _ _, (Nat.add_sub_cancel_left ..).symm ▸ htiles⟩
  refine ⟨num + m, by omega, htiles, htiles.disjoint, forall_mem_cons.2 ⟨hmax, hlimit⟩,
    fun hr => ?_⟩
  have := hret hr
  omega

theorem discardsOnce_last {num : Nat} (hpos : 0 < num) (hmax : num ≤ maxDiscard bl)
    (hle : num ≤ n) : DiscardsOnce bl s n ([(s, num)], false) := by
  have hnone : DiscardsOnce bl (s + num) (n - num) ([], false) :=
    ⟨0, zero_le _, rfl, .nil, nofun, nofun⟩
  exact hnone.cons hpos hmax hle

variable (bl)

theorem discardsOnce_bdrvCoDiscard {coroutine : Bool} (result : Nat → DiscardResult) (s n : Nat)
    (h : coroutine = true ∨ discardPiece bl s n = n) :
    DiscardsOnce bl s n (bdrvCoDiscard bl coroutine result s n) := by
  induction n using Nat.strong_induction_on generalizing s with
  | _ n ih =>
    have hcall : (if coroutine then discardPiece bl s n else n) = discardPiece bl s n := by
      rcases h with rfl | h
      · rfl
      · rw [h, ite_self]
    have hle := discardPiece_le bl s n
    have hmax : discardPiece bl s n ≤ maxDiscard bl := min_le_right _ _
    rw [bdrvCoDiscard]
    dsimp only
    rw [hcall]
    split_ifs with hn
    · exact ⟨0, zero_le _, rfl, .nil, nofun, fun _ => hn.symm⟩
    · exact discardsOnce_last (discardPiece_pos bl s hn) hmax hle
    have hpos := discardPiece_pos bl s hn
    refine (ih _ (sub_lt (hpos.trans_le hle) hpos) _ (h.imp_right fun h => ?_)).cons hpos hmax hle
    -- nothing is left
    rw [h, Nat.sub_self]
    exact le_zero.1 (discardPiece_le _ _ _)

theorem bdrvCoDiscard_aio (result : Nat → DiscardResult) (s : Nat) (hn : n ≠ 0) :
    bdrvCoDiscard bl false result s n = if result s = .error then ([(s, n)], false)
      else
        let r := bdrvCoDiscard bl false result (s + discardPiece bl s n) (n - discardPiece bl s n)
        ((s, n) :: r.1, r.2) := by
  rw [bdrvCoDiscard, if_neg hn]
  rfl

/-- The ranges are right for the coroutine interface.  Otherwise the request must be within the
limit, and must not be cut at the alignment, unless the first call fails. -/
theorem discardsOnce_iff (coroutine : Bool) (result : Nat → DiscardResult)
    (sectorNum nbSectors : Nat) :
    DiscardsOnce bl sectorNum nbSectors (bdrvCoDiscard bl coroutine result sectorNum nbSectors) ↔
      coroutine = true ∨ nbSectors ≤ maxDiscard bl ∧
        (Realigned bl sectorNum nbSectors → result sectorNum = .error) := by
  cases coroutine with
  | true => exact iff_of_true (discardsOnce_bdrvCoDiscard bl result _ _ (.inl rfl)) (.inl rfl)
  | false =>
    constructor
    · rintro ⟨m, hm, htiles, -, hmax, -⟩
      right
      by_cases hn : nbSectors = 0
      · exact ⟨hn ▸ zero_le _, fun hr => absurd (le_zero.1 (hn ▸ hr.2.1)) hr.1⟩
      rw [bdrvCoDiscard_aio bl result _ hn] at htiles hmax
      split_ifs at htiles hmax with herr
      · exact ⟨hmax _ mem_cons_self, fun _ => herr⟩
      refine ⟨hmax _ mem_cons_self, fun hr => ?_⟩
      -- the first call is for all of the request, and there is a second one
      have hlt := lt_of_le_of_ne (discardPiece_le bl sectorNum nbSectors)
        fun heq => ((discardPiece_eq_iff bl).1 heq).1 hr
      obtain ⟨-, -, hfirst, hrest⟩ := htiles
      rw [bdrvCoDiscard_aio bl result _ (sub_ne_zero_of_lt hlt)] at hrest
      have hsecond : nbSectors - discardPiece bl sectorNum nbSectors ≤ m - nbSectors := by
        split_ifs at hrest
        · exact hrest.2.2.1
        · exact hrest.2.2.1
      omega
    · rintro (hco | ⟨hmax, herr⟩)
      · cases hco
      by_cases hr : Realigned bl sectorNum nbSectors
      · have hpos := (Nat.pos_of_ne_zero hr.1).trans_le hr.2.1
        rw [bdrvCoDiscard_aio bl result _ hpos.ne', if_pos (herr hr)]
        exact discardsOnce_last hpos hmax (le_refl _)
      · exact discardsOnce_bdrvCoDiscard bl result _ _
          (.inr ((discardPiece_eq_iff bl).2 ⟨hr, hmax⟩))

/-- With `bdrv_aio_discard` and at most 8 sectors a time, 16 sectors are discarded in one call that
is too long, and the last 8 of them once more. -/
theorem not_discardsOnce_aio :
    ¬ DiscardsOnce ⟨8, 0⟩ 0 16 (bdrvCoDiscard ⟨8, 0⟩ false (fun _ => .ok) 0 16) := by
  have hcalls : bdrvCoDiscard ⟨8, 0⟩ false (fun _ => .ok) 0 16 = ([(0, 16), (8, 8)], true) := by
    simp [bdrvCoDiscard, discardPiece, Realigned, maxDiscard, minNonZero, requestMaxSectors]
  rintro ⟨m, hm, htiles, -⟩
  rw [hcalls] at htiles
  exact absurd htiles.2.2.2.1 (by decide)

end QemuAndroid.Block
