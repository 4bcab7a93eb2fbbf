import QemuAndroid.Migration.RoundTrip

/-!
# The XBZRLE decoder on any input

What the decoder accepts is given by a grammar over positions of the input: a page is a
sequence of runs, and a run is the length of a `zrun`, the length of an `nzrun` and the new
bytes (`Run`, `Runs`).  The decoder follows the grammar and stops with an error where there
is no run, so it reads nothing past the end of the input.
-/

namespace QemuAndroid.Migration

open Lib Nat

variable {src src' : Buffer} {slen dlen i d : Nat}

/-! ## Lengths and runs -/

/-- The bytes from `i` up to `j` are the number `m`. -/
def Length (src : Buffer) (i m j : Nat) : Prop :=
  (src i).toNat < 128 ∧ m = (src i).toNat ∧ j = i + 1 ∨
    128 ≤ (src i).toNat ∧ (src (i + 1)).toNat < 128 ∧
      m = (src i).toNat % 128 + 128 * (src (i + 1)).toNat ∧ j = i + 2

theorem uleb128DecodeSmall_eq_some_iff {m r : Nat} :
    uleb128DecodeSmall src i = some (m, r) ↔ Length src i m (i + r) := by
  have hadd (n : Nat) : i + r = i + n ↔ r = n := add_left_cancel_iff
  simp only [uleb128DecodeSmall, Ne, and_80_eq_zero_iff, uleb128_value, Length, hadd]
  split_ifs
  · simp only [Option.some.injEq, Prod.mk.injEq]
    omega
  · simp only [Option.some.injEq, Prod.mk.injEq]
    omega
  · simp only [false_iff]
    omega

theorem Length.bounds {m j : Nat} (h : Length src i m j) : i < j ∧ j ≤ i + 2 ∧ m < 2 ^ 14 := by
  rw [Length] at h
  omega

theorem Length.unique {m m' j j' : Nat} (h : Length src i m j) (h' : Length src i m' j') :
    m = m' ∧ j = j' := by
  rw [Length] at h h'
  omega

theorem Length.congr {m j : Nat} (h : Length src i m j) (hsrc : AgreeOn src' src 0 slen)
    (hj : j ≤ slen) : Length src' i m j := by
  have hlt := h.bounds
  have hbyte := hsrc i (zero_le _) (by omega)
  rcases h with ⟨hb, hm, rfl⟩ | ⟨hb, hb', hm, rfl⟩
  · exact .inl ⟨hbyte ▸ hb, hbyte ▸ hm, rfl⟩
  · have hbyte' := hsrc (i + 1) (zero_le _) (by omega)
    refine .inr ⟨hbyte ▸ hb, hbyte' ▸ hb', ?_, rfl⟩
    rw [hbyte, hbyte', hm]

/-- From `i` on there are a `zrun` of `m` bytes and an `nzrun` of `k` bytes, which starts at `l`.
Only the first `zrun` may be empty. -/
def Run (src : Buffer) (slen i m k l : Nat) : Prop :=
  ∃ j, Length src i m j ∧ (i = 0 ∨ m ≠ 0) ∧ Length src j k l ∧ k ≠ 0 ∧ l + k ≤ slen

theorem Run.unique {m k l m' k' l' : Nat} (h : Run src slen i m k l)
    (h' : Run src slen i m' k' l') : m = m' ∧ k = k' ∧ l = l' := by
  obtain ⟨j, hz, -, hnz, -, -⟩ := h
  obtain ⟨j', hz', -, hnz', -, -⟩ := h'
  obtain ⟨rfl, rfl⟩ := hz.unique hz'
  exact ⟨rfl, hnz.unique hnz'⟩

theorem Run.congr {m k l : Nat} (h : Run src slen i m k l) (hsrc : AgreeOn src' src 0 slen) :
    Run src' slen i m k l := by
  obtain ⟨j, hz, hfirst, hnz, hk, hl⟩ := h
  have hlt := hnz.bounds
  exact ⟨j, hz.congr hsrc (by omega), hfirst, hnz.congr hsrc (by omega), hk, hl⟩

theorem Run.lt {m k l : Nat} (h : Run src slen i m k l) : i < l ∧ l + k ≤ slen := by
  obtain ⟨j, hz, -, hnz, -, hl⟩ := h
  exact ⟨hz.bounds.1.trans hnz.bounds.1, hl⟩

/-- The input from `i` on is a sequence of runs, for `out` bytes of output. -/
inductive Runs (src : Buffer) (slen : Nat) : Nat → Nat → Prop
  | done : Runs src slen slen 0
  | run {i m k l out : Nat} (h : Run src slen i m k l) (rest : Runs src slen (l + k) out) :
      Runs src slen i (m + k + out)

/-! ## The decoder -/

theorem decodeLoop_run {m k l : Nat} (hdlen : dlen < 2 ^ 31) (h : Run src slen i m k l)
    (hle : d + m + k ≤ dlen) (fuel : Nat) (dst : Buffer) :
    decodeLoop src slen dlen (fuel + 1) i d dst =
      decodeLoop src slen dlen fuel (l + k) (d + m + k) (memcpy dst (d + m) src l k) := by
  obtain ⟨j, hz, hfirst, hnz, hk, hl⟩ := h
  obtain ⟨r, rfl⟩ := Nat.exists_eq_add_of_lt hz.bounds.1
  obtain ⟨r', rfl⟩ := Nat.exists_eq_add_of_lt hnz.bounds.1
  exact decodeLoop_step hdlen (uleb128DecodeSmall_eq_some_iff.2 hz)
    (uleb128DecodeSmall_eq_some_iff.2 hnz) (le_add_left _ _) (le_add_left _ _) hfirst hk hle hl
    fuel dst

theorem decodeLoop_stop (hdlen : dlen < 2 ^ 31) (hi : i < slen) (hd : d ≤ dlen)
    (h : ∀ m k l, Run src slen i m k l → dlen < d + m + k) (fuel : Nat) (dst : Buffer) :
    decodeLoop src slen dlen (fuel + 1) i d dst = (-1, dst) := by
  rw [decodeLoop, if_neg (by omega)]
  split_ifs
  · rfl
  split
  · rfl
  next m r hz =>
  dsimp only
  split_ifs
  · rfl
  · rfl
  · rfl
  split
  · rfl
  next k r' hnz =>
  rw [uleb128DecodeSmall_eq_some_iff] at hz hnz
  have hm := hz.bounds
  have hk := hnz.bounds
  split_ifs
  · rfl
  · rfl
  · have hlt := h m k _ ⟨_, hz, by omega, hnz, ‹_›, by omega⟩
    omega

/-- What the decoder does from `i` on, with `d` bytes of output behind it. -/
theorem decodeLoop_spec (src : Buffer) (hdlen : dlen < 2 ^ 31) (hi : i ≤ slen) (hd : d ≤ dlen)
    (dst : Buffer) : ∃ ret buf, (∀ src' fuel, AgreeOn src' src 0 slen → slen - i < fuel →
        decodeLoop src' slen dlen fuel i d dst = (ret, buf)) ∧ (∀ k, dlen ≤ k → buf k = dst k) ∧
      (ret = -1 ∧ (∀ out, Runs src slen i out → dlen < d + out) ∨
        ∃ out, Runs src slen i out ∧ d + out ≤ dlen ∧ ret = (d + out : Nat)) := by
  -- the input that is left gets shorter with every run
  induction hn : slen - i using Nat.strong_induction_on generalizing i d dst with
  | _ n ih =>
  rcases hi.lt_or_eq with hlt | rfl
  · by_cases hrun : ∃ m k l, Run src slen i m k l ∧ d + m + k ≤ dlen
    · obtain ⟨m, k, l, hrun, hle⟩ := hrun
      have hl := hrun.lt
      obtain ⟨ret, buf, hres, hkeep, hout⟩ := ih (slen - (l + k)) (by omega) hl.2 hle
        (memcpy dst (d + m) src l k) rfl
      refine ⟨ret, buf, fun src' fuel hsrc hfuel => ?_, fun x hx => ?_, ?_⟩
      · obtain ⟨fuel, rfl⟩ := Nat.exists_eq_add_of_lt hfuel
        rw [decodeLoop_run hdlen (hrun.congr hsrc) hle,
          memcpy_congr (hsrc.mono (zero_le _) hl.2), hres src' _ hsrc (by omega)]
      · rw [hkeep x hx, memcpy_of_notMem (by omega)]
      rcases hout with ⟨rfl, hnone⟩ | ⟨out, hout, hle', rfl⟩
      · refine .inl ⟨rfl, fun out hruns => ?_⟩
        cases hruns with
        | done => exact absurd hlt (lt_irrefl _)
        | run h rest =>
          obtain ⟨rfl, rfl, rfl⟩ := h.unique hrun
          have := hnone _ rest
          omega
      · exact .inr ⟨_, .run hrun hout, by omega, by omega⟩
    · push Not at hrun
      refine ⟨-1, dst, fun src' fuel hsrc hfuel => ?_, fun _ _ => rfl,
        .inl ⟨rfl, fun out hruns => ?_⟩⟩
      · obtain ⟨fuel, rfl⟩ := Nat.exists_eq_add_of_lt hfuel
        exact decodeLoop_stop hdlen hlt hd
          (fun m k l h => hrun m k l (h.congr fun x h₁ h₂ => (hsrc x h₁ h₂).symm)) _ _
      cases hruns with
      | done => exact absurd hlt (lt_irrefl _)
      | run h rest =>
        have := hrun _ _ _ h
        omega
  · refine ⟨d, dst, fun src' fuel _ hfuel => ?_, fun _ _ => rfl, .inr ⟨0, .done, hd, rfl⟩⟩
    obtain ⟨fuel, rfl⟩ := Nat.exists_eq_add_of_lt hfuel
    rw [decodeLoop, if_pos (le_refl _)]

/-- For every input and every size of the destination the decoder comes to an end; it reads only the
first `slen` bytes of the input and writes only the first `dlen` bytes of the destination.  It
accepts the inputs of the grammar whose output fits, and returns the length of the output. -/
theorem xbzrleDecodeBuffer_safe (src dst : Buffer) (slen : Nat) {dlen : Nat}
    (hdlen : dlen < 2 ^ 31) : ∃ ret buf, xbzrleDecodeBuffer src slen dst dlen = (ret, buf) ∧
      (∀ src' fuel, AgreeOn src' src 0 slen → slen < fuel →
        decodeLoop src' slen dlen fuel 0 0 dst = (ret, buf)) ∧ (∀ k, dlen ≤ k → buf k = dst k) ∧
      (ret = -1 ∧ (∀ out, Runs src slen 0 out → dlen < out) ∨
        ∃ out, Runs src slen 0 out ∧ out ≤ dlen ∧ ret = (out : Nat)) := by
  obtain ⟨ret, buf, hres, hkeep, hout⟩ :=
    decodeLoop_spec src hdlen (zero_le slen) (zero_le dlen) dst
  refine ⟨ret, buf, hres src _ (.refl _ _ _) (lt_succ_self _), hres, hkeep, ?_⟩
  simpa only [zero_add] using hout

/-- Three bytes that change the third byte of a page of four. -/
theorem xbzrleDecodeBuffer_safe_page :
    4 < 2 ^ 31 ∧ ∃ buf, xbzrleDecodeBuffer (fun k => [2, 1, 7].getD k 0) 3 (fun _ => 0) 4 =
      (3, buf) ∧ ∀ k, 4 ≤ k → buf k = 0 := by
  obtain ⟨ret, buf, hres, -, hkeep, -⟩ :=
    xbzrleDecodeBuffer_safe (fun k => [2, 1, 7].getD k 0) (fun _ => 0) 3 (show 4 < 2 ^ 31 by decide)
  obtain rfl : 3 = ret := congrArg Prod.fst hres
  exact ⟨by decide, buf, hres, hkeep⟩

end QemuAndroid.Migration
