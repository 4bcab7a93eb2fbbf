import QemuAndroid.Migration.Runs

/-!
# The XBZRLE round trip

The encoder keeps the invariant that what it has written so far turns the old page
into the new one up to the current offset (`Decodes`).  It is stated with the decoder
itself: on any input that starts with these bytes, the decoder comes to this point.
-/

namespace QemuAndroid.Migration

open Lib Nat

variable {oldBuf newBuf : Buffer} {slen sizeofLong : Nat}

/-- The first `d` bytes of `dst` turn `oldBuf` into `newBuf` up to offset `i`. -/
def Decodes (oldBuf newBuf : Buffer) (slen : Nat) (dst : Buffer) (i d : Nat) : Prop :=
  ∀ src len fuel, AgreeOn src dst 0 d → d ≤ len → len < fuel → ∃ buf fuel',
    decodeLoop src len slen fuel 0 0 oldBuf = decodeLoop src len slen fuel' d i buf ∧
      len - d < fuel' ∧ AgreeOn buf newBuf 0 i ∧ ∀ k, i ≤ k → buf k = oldBuf k

theorem decodes_zero (dst : Buffer) : Decodes oldBuf newBuf slen dst 0 0 :=
  fun _ _ fuel _ _ hfuel => ⟨oldBuf, fuel, rfl, hfuel, fun _ _ h => absurd h (not_lt_zero _),
    fun _ _ => rfl⟩

/-- One turn of the decoder, on a run of `m` equal bytes and a run of `k` new bytes. -/
theorem decodeLoop_step {src : Buffer} {slen dlen i d m k n n' : Nat} (hdlen : dlen < 2 ^ 31)
    (hz : uleb128DecodeSmall src i = some (m, n))
    (hnz : uleb128DecodeSmall src (i + n) = some (k, n')) (hn : 1 ≤ n) (hn' : 1 ≤ n')
    (hfirst : i = 0 ∨ m ≠ 0) (hk : k ≠ 0) (hd : d + m + k ≤ dlen) (hi : i + n + n' + k ≤ slen)
    (fuel : Nat) (dst : Buffer) : decodeLoop src slen dlen (fuel + 1) i d dst =
      decodeLoop src slen dlen fuel (i + n + n' + k) (d + m + k)
        (memcpy dst (d + m) src (i + n + n') k) := by
  have hwrap : (d + m) % 2 ^ 32 = d + m := by omega
  have hwrap' : (d + m + k) % 2 ^ 32 = d + m + k := by omega
  rw [decodeLoop, if_neg (by omega), if_neg (by omega)]
  simp only [hz, hwrap]
  rw [if_neg (by omega), if_neg (by omega), if_neg (by omega)]
  simp only [hnz, hwrap']
  rw [if_neg hk, if_neg (by omega)]

/-- Writing a run of equal bytes up to `j` and a run of new bytes up to `k`. -/
theorem Decodes.step {dst dst₁ dst₂ : Buffer} {i j k d n n' : Nat}
    (hdec : Decodes oldBuf newBuf slen dst i d) (hslen : slen < 2 ^ 31)
    (hagree : AgreeOn oldBuf newBuf i j) (hij : i ≤ j) (hjk : j < k) (hk : k ≤ slen) (hn : 1 ≤ n)
    (hn' : 1 ≤ n') (hfirst : d ≠ 0 → i ≠ j) (hkeep : ∀ x, x < d ∨ d + n ≤ x → dst₁ x = dst x)
    (hz : ∀ src, AgreeOn src dst₁ d (d + n) → uleb128DecodeSmall src d = some (j - i, n))
    (hkeep' : ∀ x, x < d + n ∨ d + n + n' ≤ x → dst₂ x = dst₁ x)
    (hnz : ∀ src, AgreeOn src dst₂ (d + n) (d + n + n') →
      uleb128DecodeSmall src (d + n) = some (k - j, n')) :
    Decodes oldBuf newBuf slen (memcpy dst₂ (d + n + n') newBuf j (k - j)) k
      (d + n + n' + (k - j)) := by
  intro src len fuel hsrc hlen hfuel
  have hsrc₂ : AgreeOn src dst₂ 0 (d + n + n') := by
    intro x h₁ h₂
    rw [hsrc x h₁ (by omega), memcpy_of_notMem (by omega)]
  have hsrc₁ : AgreeOn src dst₁ 0 (d + n) := by
    intro x h₁ h₂
    rw [hsrc₂ x h₁ (by omega), hkeep' x (.inl h₂)]
  have hsrc₀ : AgreeOn src dst 0 d := by
    intro x h₁ h₂
    rw [hsrc₁ x h₁ (by omega), hkeep x (.inl h₂)]
  obtain ⟨buf, fuel', hrun, hfuel', hbuf, hrest⟩ := hdec src len fuel hsrc₀ (by omega) hfuel
  obtain ⟨f, rfl⟩ : ∃ f, fuel' = f + 1 := ⟨fuel' - 1, by omega⟩
  refine ⟨memcpy buf j src (d + n + n') (k - j), f, ?_, by omega, ?_, ?_⟩
  · rw [hrun, decodeLoop_step hslen (hz src (hsrc₁.mono (zero_le _) (le_refl _)))
      (hnz src (hsrc₂.mono (zero_le _) (le_refl _))) hn hn' (by omega) (by omega) (by omega) hlen,
      Nat.add_sub_cancel' hij, Nat.add_sub_cancel' hjk.le]
  · intro x h₁ h₂
    rcases lt_or_ge x j with hx | hx
    · rw [memcpy_of_notMem (by omega)]
      rcases lt_or_ge x i with hx' | hx'
      · exact hbuf x h₁ hx'
      · rw [hrest x hx', hagree x hx' hx]
    rw [memcpy_of_mem hx (by omega), hsrc _ (zero_le _) (by omega),
      memcpy_of_mem (by omega) (by omega)]
    congr 1
    omega
  · intro x hx
    rw [memcpy_of_notMem (by omega), hrest x (by omega)]

/-- The encoder before offset `i`, with `d` bytes written. -/
structure EncodeInv (oldBuf newBuf : Buffer) (slen dlen i d : Nat) (dst : Buffer) : Prop where
  le : i ≤ slen
  fits : d ≤ dlen
  decodes : Decodes oldBuf newBuf slen dst i d
  start : d = 0 ↔ i = 0
  /-- A run of new bytes ends at an equal byte. -/
  eq : d ≠ 0 → i < slen → oldBuf i = newBuf i

def EncodeResult (oldBuf newBuf : Buffer) (slen dlen : Nat) (dst : Buffer) (r : Int)
    (dst' : Buffer) : Prop :=
  (∀ k, dlen ≤ k → dst' k = dst k) ∧ (r = -1 ∨ ∃ d i : Nat, r = d ∧ d ≤ dlen ∧
    i ≤ slen ∧ Decodes oldBuf newBuf slen dst' i d ∧ AgreeOn oldBuf newBuf i slen ∧ (d = 0 → i = 0))

/-- The loop of `xbzrle_encode_buffer`, by induction on the bytes left. -/
theorem encodeLoop_spec {dlen fuel i d : Nat} {dst : Buffer} (hlong : sizeofLong ≤ 8)
    (hslen : slen ≤ 0x3fff) (hpos : 0 < slen) (hfuel : slen - i < fuel)
    (hinv : EncodeInv oldBuf newBuf slen dlen i d dst) :
    ∃ r dst', encodeLoop sizeofLong oldBuf newBuf slen dlen fuel i d dst = some (r, dst') ∧
      EncodeResult oldBuf newBuf slen dlen dst r dst' := by
  induction fuel generalizing i d dst with
  | zero => omega
  | succ fuel ih =>
    obtain ⟨hle, hfits, hdec, hstart, heq⟩ := hinv
    rw [encodeLoop]
    by_cases hend : slen ≤ i
    · rw [if_pos hend]
      refine ⟨d, dst, rfl, fun _ _ => rfl, .inr ⟨d, i, rfl, hfits, hle, hdec, ?_, hstart.1⟩⟩
      exact fun k h₁ h₂ => by omega
    rw [if_neg hend]
    by_cases hroom : dlen < d + 2
    · rw [if_pos hroom]
      exact ⟨-1, dst, rfl, fun _ _ => rfl, .inl rfl⟩
    rw [if_neg hroom]
    obtain ⟨hij, hj, hagree, hne⟩ := zrun_spec sizeofLong oldBuf newBuf hle
    generalize zrun sizeofLong oldBuf newBuf slen i = j at *
    by_cases hsame : j - i = slen
    · simp only [hsame, if_true]
      have hi : i = 0 := by omega
      have hd : d = 0 := hstart.2 hi
      subst hi hd
      refine ⟨0, dst, rfl, fun _ _ => rfl, .inr ⟨0, 0, rfl, hfits, hle, hdec, ?_, fun _ => rfl⟩⟩
      exact hagree.mono (le_refl _) (by omega)
    by_cases hlast : j = slen
    · simp only [if_neg hsame, if_pos hlast]
      subst hlast
      exact ⟨d, dst, rfl, fun _ _ => rfl, .inr ⟨d, i, rfl, hfits, hle, hdec, hagree, hstart.1⟩⟩
    have hjlt : j < slen := by omega
    -- the run of equal bytes, which is empty at the start of the buffer at most
    obtain ⟨dst₁, n, hz, hn, hn2, hkeep, hdecz⟩ :=
      uleb128EncodeSmall_spec dst d (show j - i ≤ 0x3fff by omega)
    have hfirst : d ≠ 0 → i ≠ j := by
      rintro hd rfl
      exact hne hjlt (heq hd hjlt)
    simp only [if_neg hsame, if_neg hlast, hz, Option.bind_eq_bind, Option.bind_some]
    by_cases hroom' : dlen < d + n + 2
    · rw [if_pos hroom']
      exact ⟨-1, dst₁, rfl, fun k hk => hkeep k (by omega), .inl rfl⟩
    rw [if_neg hroom']
    -- the run of new bytes
    obtain ⟨k, hk, hjk, hkle, hkeq⟩ := nzrun_spec hlong hjlt (hne hjlt)
    obtain ⟨dst₂, n', hnz, hn', hn2', hkeep', hdecnz⟩ :=
      uleb128EncodeSmall_spec dst₁ (d + n) (show k - j ≤ 0x3fff by omega)
    simp only [hk, hnz, Option.bind_some]
    by_cases hroom'' : dlen < d + n + n' + (k - j)
    · rw [if_pos hroom'']
      refine ⟨-1, dst₂, rfl, fun x hx => ?_, .inl rfl⟩
      rw [hkeep' x (by omega), hkeep x (by omega)]
    rw [if_neg hroom'']
    obtain ⟨r, dst', hrun, hframe, hresult⟩ := ih (by omega)
      { le := hkle
        fits := by omega
        decodes := hdec.step (by omega) hagree hij hjk hkle hn hn' hfirst hkeep hdecz hkeep' hdecnz
        start := by omega
        eq := fun _ => hkeq }
    refine ⟨r, dst', hrun, fun x hx => ?_, hresult⟩
    rw [hframe x hx, memcpy_of_notMem (by omega), hkeep' x (by omega), hkeep x (by omega)]

/-- `xbzrle_encode_buffer` stays inside the destination.  If it does not run out of room, then
`xbzrle_decode_buffer` turns the old page into the new one, and the result is 0 only if they are
the same. -/
theorem xbzrleEncodeBuffer_spec (oldBuf newBuf : Buffer) {slen : Nat}
    (hlong : sizeofLong ≤ 8) (hslen : slen ≤ 0x3fff) (hpos : 0 < slen)
    (halign : slen % sizeofLong = 0) (dst : Buffer) (dlen : Nat) :
    ∃ r dst', xbzrleEncodeBuffer sizeofLong oldBuf newBuf slen dst dlen = some (r, dst') ∧
      (∀ k, dlen ≤ k → dst' k = dst k) ∧
      (r = -1 ∨ ∃ d : Nat, r = d ∧ d ≤ dlen ∧ (d = 0 → AgreeOn oldBuf newBuf 0 slen) ∧
        ∀ src, AgreeOn src dst' 0 d → ∃ (i : Nat) (buf : Buffer),
          xbzrleDecodeBuffer src d oldBuf slen = ((i : Int), buf) ∧ AgreeOn buf newBuf 0 slen ∧
            ∀ k, slen ≤ k → buf k = oldBuf k) := by
  rw [xbzrleEncodeBuffer, if_pos halign]
  have hinv : EncodeInv oldBuf newBuf slen dlen 0 0 dst :=
    ⟨zero_le slen, zero_le dlen, decodes_zero dst, Iff.rfl, fun h => absurd rfl h⟩
  obtain ⟨r, dst', hrun, hframe, hresult⟩ :=
    encodeLoop_spec hlong hslen hpos (lt_succ_self (slen - 0)) hinv
  refine ⟨r, dst', hrun, hframe, hresult.imp_right ?_⟩
  rintro ⟨d, i, hr, hd, hi, hdec, hagree, hzero⟩
  refine ⟨d, hr, hd, fun h => ?_, fun src hsrc => ?_⟩
  · rw [hzero h] at hagree
    exact hagree
  obtain ⟨buf, fuel, hdecode, hfuel, hbuf, hrest⟩ :=
    hdec src d (d + 1) hsrc (le_refl _) (lt_succ_self _)
  obtain ⟨f, rfl⟩ : ∃ f, fuel = f + 1 := ⟨fuel - 1, by omega⟩
  refine ⟨i, buf, ?_, hbuf.append fun k h₁ h₂ => ?_, fun k hk => ?_⟩
  · rw [xbzrleDecodeBuffer, hdecode, decodeLoop, if_pos (le_refl _)]
  · rw [hrest k h₁, hagree k h₁ h₂]
  · exact hrest k (hi.trans hk)

/-- The round trip: the encoder writes inside the first `dlen` bytes of its destination; if the
result is not `-1`, the decoder accepts these bytes and turns a buffer that holds the old page
into one that holds the new page, without leaving its `slen` bytes; and the result is 0 for equal
pages only. -/
theorem xbzrle_round_trip {sizeofLong slen : Nat} (hlong : sizeofLong = 4 ∨ sizeofLong = 8)
    (halign : slen % sizeofLong = 0) (hpos : 0 < slen) (hslen : slen ≤ 0x3fff)
    (oldBuf newBuf dst : Buffer) (dlen : Nat) : ∃ (r : Int) (dst' : Buffer),
      xbzrleEncodeBuffer sizeofLong oldBuf newBuf slen dst dlen = some (r, dst') ∧ -1 ≤ r ∧
      (∀ k, dlen ≤ k → dst' k = dst k) ∧
      (0 ≤ r → r ≤ dlen ∧ ∀ src, AgreeOn src dst' 0 r.toNat → ∃ (d : Int) (buf : Buffer),
        xbzrleDecodeBuffer src r.toNat oldBuf slen = (d, buf) ∧ 0 ≤ d ∧
          AgreeOn buf newBuf 0 slen ∧ ∀ k, slen ≤ k → buf k = oldBuf k) ∧
      (r = 0 → AgreeOn oldBuf newBuf 0 slen) := by
  have hlong' : sizeofLong ≤ 8 := by omega
  obtain ⟨r, dst', henc, hframe, hresult⟩ :=
    xbzrleEncodeBuffer_spec oldBuf newBuf hlong' hslen hpos halign dst dlen
  refine ⟨r, dst', henc, ?_⟩
  rcases hresult with rfl | ⟨d, rfl, hd, hzero, hdec⟩
  · exact ⟨le_refl _, hframe, fun h => absurd h (by decide), fun h => absurd h (by decide)⟩
  refine ⟨by omega, hframe, fun _ => ⟨Int.ofNat_le.2 hd, fun src hsrc => ?_⟩, fun h => ?_⟩
  · obtain ⟨i, buf, hbuf, hagree, hrest⟩ := hdec src hsrc
    exact ⟨i, buf, hbuf, Int.natCast_nonneg i, hagree, hrest⟩
  · exact hzero (Int.natCast_eq_zero.1 h)

/-- A page of 8 bytes of which two change, on a host with a `long` of 4 bytes. -/
theorem xbzrle_round_trip_eight : ∃ (r : Int) (dst' : Buffer),
    xbzrleEncodeBuffer 4 (fun _ => 0) (fun k => if k = 1 ∨ k = 6 then 7 else 0) 8 (fun _ => 0) 8 =
      some (r, dst') ∧ r = 6 ∧ ∃ (d : Int) (buf : Buffer),
        xbzrleDecodeBuffer dst' 6 (fun _ => 0) 8 = (d, buf) ∧ 0 ≤ d ∧
          AgreeOn buf (fun k => if k = 1 ∨ k = 6 then 7 else 0) 0 8 := by
  obtain ⟨r, dst', henc, -, -, hdec, -⟩ := xbzrle_round_trip (.inl rfl)
    (show 8 % 4 = 0 from rfl) (by decide) (by decide) (fun _ => 0)
    (fun k => if k = 1 ∨ k = 6 then 7 else 0) (fun _ => 0) 8
  have hr : r = 6 := by
    have hlen : (xbzrleEncodeBuffer 4 (fun _ => 0) (fun k => if k = 1 ∨ k = 6 then 7 else 0) 8
        (fun _ => 0) 8).map Prod.fst = some 6 := by decide +kernel
    rw [henc] at hlen
    exact Option.some.inj hlen
  subst hr
  obtain ⟨d, buf, hbuf, hd, hagree, -⟩ := (hdec (by decide)).2 dst' (.refl _ _ _)
  exact ⟨6, dst', henc, rfl, d, buf, hbuf, hd, hagree⟩

end QemuAndroid.Migration
