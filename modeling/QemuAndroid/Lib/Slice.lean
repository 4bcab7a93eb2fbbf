import Mathlib.Data.List.Basic

/-!
# Ranges of an unbounded array

An array is a function of the position.  `slice` reads a range of it, `overwrite` replaces one and
`modifyRange` goes through one.
-/

namespace QemuAndroid.Lib

open List

universe u

variable {α : Type u} {c c' : Nat → α} {o o' m n k i p : Nat} {l l' : List α}

/-- The values of an array from a position on. -/
def slice (c : Nat → α) (o n : Nat) : List α := (List.range' o n).map c

/-- An array, with some values replaced from a position on. -/
def overwrite (c : Nat → α) (o : Nat) (l : List α) (p : Nat) : α :=
  if o ≤ p then l[p - o]?.getD (c p) else c p

/-! ## Slices -/

@[simp] theorem length_slice (c : Nat → α) (o n : Nat) : (slice c o n).length = n := by
  rw [slice, length_map, length_range']

@[simp] theorem slice_zero (c : Nat → α) (o : Nat) : slice c o 0 = [] := rfl

@[simp] theorem getElem_slice (h : i < (slice c o n).length) :
    (slice c o n)[i] = c (o + i) := by
  simp only [slice, getElem_map, getElem_range', Nat.one_mul]

theorem getElem?_slice (h : i < n) : (slice c o n)[i]? = some (c (o + i)) := by
  rw [getElem?_eq_getElem (by rwa [length_slice]), getElem_slice]

theorem slice_add (c : Nat → α) (o m n : Nat) :
    slice c o (m + n) = slice c o m ++ slice c (o + m) n := by
  rw [slice, slice, slice, ← map_append, range'_append_1]

/-- A list is a slice when its values are the array's. -/
theorem eq_slice (hlen : l.length = n) (h : ∀ i (hi : i < l.length), l[i] = c (o + i)) :
    l = slice c o n := by
  apply ext_getElem
  · rw [hlen, length_slice]
  · intro i hi hi'
    rw [h i hi, getElem_slice]

theorem slice_congr (h : ∀ i < n, c (o + i) = c' (o' + i)) : slice c o n = slice c' o' n := by
  apply eq_slice (length_slice c o n)
  intro i hi
  rw [getElem_slice]
  exact h i (by rwa [length_slice] at hi)

theorem slice_part (h : slice c o n = slice c' o' n) (hle : k + m ≤ n) :
    slice c (o + k) m = slice c' (o' + k) m := by
  apply slice_congr
  intro i hi
  have hget := congrArg (·[k + i]?) h
  simp only [getElem?_slice (show k + i < n by omega), Option.some.injEq] at hget
  rw [Nat.add_assoc, Nat.add_assoc, hget]

/-! ## Replacing a range -/

theorem overwrite_of_lt (h : p < o) : overwrite c o l p = c p := if_neg (by omega)

theorem overwrite_of_ge (h : o + l.length ≤ p) : overwrite c o l p = c p := by
  rw [overwrite, if_pos (by omega), getElem?_eq_none (by omega), Option.getD_none]

theorem overwrite_add (h : i < l.length) : overwrite c o l (o + i) = l[i] := by
  rw [overwrite, if_pos (Nat.le_add_right o i), Nat.add_sub_cancel_left,
    getElem?_eq_getElem h, Option.getD_some]

@[simp] theorem overwrite_nil (c : Nat → α) (o : Nat) : overwrite c o [] = c := by
  funext p
  rcases Nat.lt_or_ge p o with hlt | hge
  · exact overwrite_of_lt hlt
  · exact overwrite_of_ge hge

theorem overwrite_append (c : Nat → α) (o : Nat) (l l' : List α) :
    overwrite c o (l ++ l') = overwrite (overwrite c o l) (o + l.length) l' := by
  funext p
  rcases Nat.lt_or_ge p o with hlt | hge
  · rw [overwrite_of_lt hlt, overwrite_of_lt (by omega), overwrite_of_lt hlt]
  obtain ⟨i, rfl⟩ := Nat.exists_eq_add_of_le hge
  rcases Nat.lt_or_ge i l.length with hi | hi
  · rw [overwrite_add (by rw [length_append]; omega), overwrite_of_lt (by omega),
      overwrite_add hi, getElem_append_left hi]
  obtain ⟨j, rfl⟩ := Nat.exists_eq_add_of_le hi
  rw [← Nat.add_assoc]
  rcases Nat.lt_or_ge j l'.length with hj | hj
  · rw [Nat.add_assoc, overwrite_add (by rw [length_append]; omega), ← Nat.add_assoc,
      overwrite_add hj, getElem_append_right (by omega)]
    simp only [Nat.add_sub_cancel_left]
  · rw [overwrite_of_ge (by rw [length_append]; omega), overwrite_of_ge (by omega),
      overwrite_of_ge (by omega)]

/-- Replacing a range by what it holds changes nothing. -/
@[simp] theorem overwrite_slice (c : Nat → α) (o n : Nat) : overwrite c o (slice c o n) = c := by
  funext p
  rcases Nat.lt_or_ge p o with hlt | hge
  · exact overwrite_of_lt hlt
  obtain ⟨i, rfl⟩ := Nat.exists_eq_add_of_le hge
  rcases Nat.lt_or_ge i n with hi | hi
  · rw [overwrite_add (by rwa [length_slice]), getElem_slice]
  · exact overwrite_of_ge (by rw [length_slice]; omega)

theorem slice_overwrite_of_le (h : o + l.length ≤ o') :
    slice (overwrite c o l) o' n = slice c o' n :=
  slice_congr fun _ _ => overwrite_of_ge (by omega)

/-- What surrounds the new values may be written back with them. -/
theorem overwrite_padded (c : Nat → α) (o h t : Nat) (l : List α) :
    overwrite c o (slice c o h ++ l ++ slice c (o + h + l.length) t) = overwrite c (o + h) l := by
  rw [overwrite_append, overwrite_append, overwrite_slice, length_append, length_slice,
    ← Nat.add_assoc, ← slice_overwrite_of_le (Nat.le_refl (o + h + l.length)), overwrite_slice]

/-! ## Loops over a range -/

/-- An array, with a function applied to a range of its positions, one after the other. -/
def modifyRange (c : Nat → α) (o n : Nat) (f : Nat → α → α) : Nat → α :=
  (List.range n).foldl (fun c i p => if p = o + i then f i (c p) else c p) c

theorem modifyRange_succ (c : Nat → α) (o n : Nat) (f : Nat → α → α) (p : Nat) :
    modifyRange c o (n + 1) f p =
      if p = o + n then f n (modifyRange c o n f p) else modifyRange c o n f p := by
  rw [modifyRange, range_succ, foldl_append]
  rfl

theorem modifyRange_apply (c : Nat → α) (o n : Nat) (f : Nat → α → α) (p : Nat) :
    modifyRange c o n f p = if o ≤ p ∧ p < o + n then f (p - o) (c p) else c p := by
  induction n with
  | zero => exact (if_neg (by omega)).symm
  | succ n ih =>
    rw [modifyRange_succ, ih]
    by_cases hp : p = o + n
    · subst hp
      rw [if_pos rfl, if_neg (by omega), if_pos (by omega), Nat.add_sub_cancel_left]
    · rw [if_neg hp]
      exact if_congr (by omega) rfl rfl

end QemuAndroid.Lib
