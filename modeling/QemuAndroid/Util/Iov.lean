import QemuAndroid.Lib.Buffer

/-!
# I/O vectors

The helpers of `iov.c` that work on arrays of `iovec`.  An array stands for the list of the host
addresses of its elements, one after the other (`iovAddrs`); the lemmas say what each helper does
in terms of that list.
-/

namespace QemuAndroid.Util

open Lib List Nat

structure IoVec where
  base : Nat
  len : Nat
deriving DecidableEq

/-- The addresses of an array, in order. -/
def iovAddrs (iov : List IoVec) : List Nat := iov.flatMap fun v => List.range' v.base v.len

def iovSize (iov : List IoVec) : Nat := (iov.map IoVec.len).sum

def memset (mem : Buffer) (s : Nat) (c : UInt8) (n : Nat) : Buffer :=
  fun a => if s ≤ a ∧ a < s + n then c else mem a

/-- `iov_memset`, without the elements before: `offset` bytes are left to skip and `bytes` to set.
The assertion at its end fails when there are fewer bytes than `offset`. -/
def iovMemset (fillc : UInt8) : List IoVec → Nat → Nat → Buffer → Option Buffer
  | [], offset, _, mem => if offset = 0 then some mem else none
  | v :: iov, offset, bytes, mem =>
    if offset ≠ 0 ∨ 0 < bytes then
      if offset < v.len then
        let len := min (v.len - offset) bytes
        iovMemset fillc iov 0 (bytes - len) (memset mem (v.base + offset) fillc len)
      else iovMemset fillc iov (offset - v.len) bytes mem
    else some mem

/-- The loop of `qemu_iovec_concat_iov`: what it adds to `dst`. -/
def iovecConcatLoop : List IoVec → Nat → Nat → Option (List IoVec)
  | [], soffset, _ => if soffset = 0 then some [] else none
  | v :: iov, soffset, sbytes =>
    if 0 < sbytes then
      if soffset < v.len then
        let len := min (v.len - soffset) sbytes
        (iovecConcatLoop iov 0 (sbytes - len)).map (⟨v.base + soffset, len⟩ :: ·)
      else iovecConcatLoop iov (soffset - v.len) sbytes
    else if soffset = 0 then some [] else none

def qemuIovecConcat (dst src : List IoVec) (soffset sbytes : Nat) : Option (List IoVec) :=
  if sbytes = 0 then some dst else (iovecConcatLoop src soffset sbytes).map (dst ++ ·)

def qemuIovecIsZero (iov : List IoVec) (mem : Buffer) : Bool :=
  iov.all fun v => (List.range' v.base v.len).all fun a => mem a = 0

def gather (iov : List IoVec) (mem : Buffer) : List UInt8 := (iovAddrs iov).map mem

/-- Storing bytes at addresses, one after the other. -/
def scatter : List Nat → List UInt8 → Buffer → Buffer
  | a :: as, d :: ds, mem => scatter as ds (mem.set a d)
  | _, _, mem => mem

/-! ## Addresses -/

section Addrs

variable {v : IoVec} {iov dst src iov' : List IoVec} {mem : Buffer}

@[simp] theorem iovAddrs_nil : iovAddrs [] = [] := rfl

@[simp] theorem iovAddrs_cons : iovAddrs (v :: iov) = List.range' v.base v.len ++ iovAddrs iov :=
  rfl

@[simp] theorem iovAddrs_append : iovAddrs (iov ++ iov') = iovAddrs iov ++ iovAddrs iov' :=
  flatMap_append

@[simp] theorem length_iovAddrs : (iovAddrs iov).length = iovSize iov := by
  induction iov with
  | nil => rfl
  | cons v iov ih =>
    rw [iovAddrs_cons, length_append, length_range', ih]
    rfl

theorem length_gather : (gather iov mem).length = iovSize iov := by
  rw [gather, length_map, length_iovAddrs]

theorem qemuIovecIsZero_iff : qemuIovecIsZero iov mem = true ↔ ∀ d ∈ gather iov mem, d = 0 := by
  have haddrs : qemuIovecIsZero iov mem = (iovAddrs iov).all fun a => mem a = 0 := by
    rw [iovAddrs, all_flatMap]
    rfl
  rw [haddrs, all_eq_true, gather, forall_mem_map]
  simp only [decide_eq_true_eq]

theorem take_range' (s n k : Nat) : (List.range' s n).take k = List.range' s (min k n) := by
  refine ext_getElem ?_ fun i hi hi' => ?_
  · rw [length_take, length_range', length_range']
  · rw [getElem_take, getElem_range', getElem_range']

/-- Part of the addresses of one element. -/
theorem take_drop_range' (v : IoVec) (offset bytes : Nat) :
    ((List.range' v.base v.len).drop offset).take bytes =
      List.range' (v.base + offset) (min (v.len - offset) bytes) := by
  rw [drop_range', mul_one, take_range', min_comm]

variable {offset soffset : Nat}

/-- What is taken from an element and from those behind it. -/
theorem take_drop_iovAddrs_of_lt (h : offset < v.len) (bytes : Nat) :
    ((iovAddrs (v :: iov)).drop offset).take bytes =
      List.range' (v.base + offset) (min (v.len - offset) bytes) ++
        (iovAddrs iov).take (bytes - min (v.len - offset) bytes) := by
  have hle : offset ≤ (range' v.base v.len).length := by
    rw [length_range']
    exact le_of_lt h
  rw [iovAddrs_cons, drop_append_of_le_length hle, take_append, take_drop_range',
    length_drop, length_range']
  congr 2
  omega

theorem take_drop_iovAddrs_of_le (h : v.len ≤ offset) (bytes : Nat) :
    ((iovAddrs (v :: iov)).drop offset).take bytes =
      ((iovAddrs iov).drop (offset - v.len)).take bytes := by
  rw [iovAddrs_cons, drop_append, length_range',
    drop_eq_nil_of_le (by rw [length_range']; exact h), nil_append]

end Addrs

/-! ## The helpers -/

/-- `iov_memset` sets the bytes of the range that the array has. -/
theorem iovMemset_spec (fillc : UInt8) {iov : List IoVec} {offset : Nat}
    (h : offset ≤ iovSize iov) (bytes : Nat) (mem : Buffer) :
    ∃ mem', iovMemset fillc iov offset bytes mem = some mem' ∧
      ∀ a, mem' a = if a ∈ ((iovAddrs iov).drop offset).take bytes then fillc else mem a := by
  fun_induction iovMemset fillc iov offset bytes mem with
  | case1 => exact ⟨_, rfl, fun a => by simp⟩
  | case2 _ _ _ hne => exact absurd (le_zero.1 h) hne
  | case3 v iov offset bytes mem _ hlt len ih =>
    rw [take_drop_iovAddrs_of_lt hlt]
    obtain ⟨mem', hmem', hget⟩ := ih (zero_le _)
    refine ⟨mem', hmem', fun a => ?_⟩
    rw [hget, drop_zero, memset]
    simp only [mem_append, mem_range'_1]
    by_cases hrest : a ∈ (iovAddrs iov).take (bytes - len)
    · rw [if_pos hrest, if_pos (.inr hrest)]
    · simp only [len] at hrest
      simp only [len, hrest, if_false, or_false]
  | case4 v iov offset bytes mem _ hlt ih =>
    have hsize : iovSize (v :: iov) = v.len + iovSize iov := rfl
    rw [take_drop_iovAddrs_of_le (Nat.le_of_not_lt hlt)]
    exact ih (by omega)
  | case5 v iov offset bytes mem hmore =>
    obtain ⟨hoffset, hbytes⟩ := not_or.1 hmore
    rw [not_not.1 hoffset, le_zero.1 (Nat.le_of_not_lt hbytes)]
    exact ⟨mem, rfl, fun a => by simp⟩

theorem iovecConcatLoop_spec {iov : List IoVec} {soffset sbytes : Nat} (h : soffset ≤ iovSize iov)
    (hsome : 0 < sbytes ∨ soffset = 0) : ∃ iov', iovecConcatLoop iov soffset sbytes = some iov' ∧
      iovAddrs iov' = ((iovAddrs iov).drop soffset).take sbytes := by
  fun_induction iovecConcatLoop iov soffset sbytes with
  | case1 => exact ⟨[], rfl, by simp⟩
  | case2 _ _ hne => exact absurd (le_zero.1 h) hne
  | case3 v iov soffset sbytes _ hlt len ih =>
    rw [take_drop_iovAddrs_of_lt hlt]
    obtain ⟨iov', hiov', haddrs⟩ := ih (zero_le _) (.inr rfl)
    refine ⟨_, congrArg (Option.map _) hiov', ?_⟩
    rw [iovAddrs_cons, haddrs, drop_zero]
  | case4 v iov soffset sbytes hmore hlt ih =>
    have hsize : iovSize (v :: iov) = v.len + iovSize iov := rfl
    rw [take_drop_iovAddrs_of_le (Nat.le_of_not_lt hlt)]
    exact ih (by omega) (.inl hmore)
  | case5 _ _ _ hmore => exact ⟨[], rfl, by simp [le_zero.1 (Nat.le_of_not_lt hmore)]⟩
  | case6 _ _ _ _ hmore hne => exact absurd (hsome.resolve_left hmore) hne

/-- `qemu_iovec_concat` adds the addresses of the range that the source has. -/
theorem qemuIovecConcat_spec (dst : List IoVec) {src : List IoVec} {soffset : Nat}
    (h : soffset ≤ iovSize src) (sbytes : Nat) :
    ∃ iov, qemuIovecConcat dst src soffset sbytes = some iov ∧
      iovAddrs iov = iovAddrs dst ++ ((iovAddrs src).drop soffset).take sbytes := by
  rw [qemuIovecConcat]
  by_cases hzero : sbytes = 0
  · rw [hzero]
    exact ⟨dst, rfl, by simp⟩
  rw [if_neg hzero]
  obtain ⟨iov', hiov', haddrs⟩ := iovecConcatLoop_spec h (.inl (Nat.pos_of_ne_zero hzero))
  refine ⟨_, by rw [hiov']; rfl, ?_⟩
  rw [iovAddrs_append, haddrs]

/-! ## Storing and collecting bytes -/

section Scatter

variable {as bs : List Nat} {ds es : List UInt8} {mem : Buffer} {a : Nat}

theorem scatter_of_notMem (h : a ∉ as) : scatter as ds mem a = mem a := by
  fun_induction scatter as ds mem with
  | case1 b as d ds mem ih =>
    rw [ih (not_mem_of_not_mem_cons h), Buffer.set_of_ne d (ne_of_not_mem_cons h)]
  | case2 => rfl

/-- Bytes that were stored are collected again. -/
theorem map_scatter (hnodup : as.Nodup) (hlen : as.length = ds.length) :
    as.map (scatter as ds mem) = ds := by
  induction as generalizing ds mem with
  | nil => exact (eq_nil_of_length_eq_zero hlen.symm).symm
  | cons b as ih =>
    obtain ⟨hb, hrest⟩ := nodup_cons.1 hnodup
    cases ds with
    | nil => cases hlen
    | cons d ds =>
      rw [map_cons]
      congr 1
      · rw [scatter, scatter_of_notMem hb, Buffer.set_self]
      · exact ih hrest (succ.inj hlen)

end Scatter

end QemuAndroid.Util
