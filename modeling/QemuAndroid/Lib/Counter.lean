import Mathlib.Data.BitVec
import Mathlib.Data.List.Range

/-!
# Names from a counter that wraps around

`nextFree taken fuel n` increments a counter of `w` bits, from `n` on, until its value is not taken.
-/

namespace QemuAndroid.Lib

variable {w : Nat} {taken : BitVec w → Bool}

/-- `do id = ++n; while (taken(id));`. -/
def nextFree (taken : BitVec w → Bool) : Nat → BitVec w → Option (BitVec w)
  | 0, _ => none
  | fuel + 1, n => if taken (n + 1#w) then nextFree taken fuel (n + 1#w) else some (n + 1#w)

theorem add_one_add_ofNat (n : BitVec w) (k : Nat) :
    n + 1#w + BitVec.ofNat w k = n + BitVec.ofNat w (k + 1) := by
  rw [BitVec.add_assoc, Nat.add_comm, BitVec.ofNat_add]

theorem nextFree_of_free {fuel : Nat} {n : BitVec w} (hfuel : 0 < fuel)
    (h : taken (n + 1#w) = false) : nextFree taken fuel n = some (n + 1#w) := by
  obtain ⟨fuel, rfl⟩ := Nat.exists_eq_succ_of_ne_zero (Nat.ne_of_gt hfuel)
  rw [nextFree, h]
  rfl

/-- Every value is some increments away. -/
theorem add_ofNat_sub (n id : BitVec w) :
    n + BitVec.ofNat w ((id - n - 1#w).toNat + 1) = id := by
  rw [BitVec.ofNat_add, BitVec.ofNat_toNat, BitVec.setWidth_eq, BitVec.sub_add_cancel,
    BitVec.add_comm, BitVec.sub_add_cancel]

/-- The search ends if a value is free. -/
theorem exists_nextFree {fuel k : Nat} {n : BitVec w} (hk : k < fuel)
    (h : taken (n + BitVec.ofNat w (k + 1)) = false) : ∃ id, nextFree taken fuel n = some id := by
  fun_induction nextFree taken fuel n generalizing k with
  | case1 => cases hk
  | case2 fuel n htaken ih =>
    cases k with
    | zero => exact absurd (h.symm.trans htaken) nofun
    | succ k =>
      rw [← add_one_add_ofNat] at h
      exact ih (Nat.lt_of_succ_lt_succ hk) h
  | case3 => exact ⟨_, rfl⟩

/-- The values that are tried before the result are taken. -/
theorem exists_of_nextFree {fuel : Nat} {n id : BitVec w} (h : nextFree taken fuel n = some id) :
    ∃ k < fuel, id = n + BitVec.ofNat w (k + 1) ∧ taken id = false ∧
      ∀ j < k, taken (n + BitVec.ofNat w (j + 1)) = true := by
  fun_induction nextFree taken fuel n with
  | case1 => cases h
  | case2 fuel n htaken ih =>
    obtain ⟨k, hk, rfl, hfree, hbefore⟩ := ih h
    rw [add_one_add_ofNat] at hfree ⊢
    refine ⟨k + 1, Nat.succ_lt_succ hk, rfl, hfree, fun j hj => ?_⟩
    cases j with
    | zero => exact htaken
    | succ j =>
      rw [← add_one_add_ofNat]
      exact hbefore j (Nat.lt_of_succ_lt_succ hj)
  | case3 fuel n hfree =>
    cases h
    exact ⟨0, Nat.succ_pos _, rfl, Bool.eq_false_of_not_eq_true hfree, nofun⟩

/-- A counter passes each of the values that are taken at most once. -/
theorem nextFree_eq_some_of_taken {fuel : Nat} {n id : BitVec w} {l : List (BitVec w)}
    (hfuel : fuel ≤ 2 ^ w) (hl : ∀ v, taken v = true → v ∈ l)
    (h : nextFree taken fuel n = some id) :
    taken id = false ∧ ∃ k ≤ l.length, id = n + BitVec.ofNat w (k + 1) := by
  obtain ⟨k, hk, rfl, hfree, hbefore⟩ := exists_of_nextFree h
  refine ⟨hfree, k, ?_, rfl⟩
  have hnodup : ((List.range k).map fun j => n + BitVec.ofNat w (j + 1)).Nodup := by
    refine List.Nodup.map_on (fun i hi j hj heq => ?_) List.nodup_range
    have hnat := congrArg BitVec.toNat ((BitVec.add_right_inj n).1 heq)
    rw [BitVec.toNat_ofNat, BitVec.toNat_ofNat] at hnat
    have hmod := Nat.ModEq.add_right_cancel' 1 hnat
    rw [List.mem_range] at hi hj
    exact hmod.eq_of_lt_of_lt (by omega) (by omega)
  have hsub : ((List.range k).map fun j => n + BitVec.ofNat w (j + 1)) ⊆ l := by
    intro v hv
    obtain ⟨j, hj, rfl⟩ := List.mem_map.1 hv
    exact hl _ (hbefore j (List.mem_range.1 hj))
  have hle := (List.subperm_of_subset hnodup hsub).length_le
  rwa [List.length_map, List.length_range] at hle

end QemuAndroid.Lib
