import QemuAndroid.Json.Parser
import QemuAndroid.Json.Texts
import Mathlib.Data.List.TakeWhile

/-!
# Strings and numbers, printed and read back

`to_json` takes a string apart into code points and writes each of them as itself or as an escape;
`qstring_from_escaped_str` writes the bytes of the code point again.  For the characters of the
basic multilingual plane that Unicode gives a meaning these are the bytes that the code point was
read from.
-/

namespace QemuAndroid.Json

open Lib List BitVec
open UInt8 hiding ofNat_or toNat_ofNat

/-! ## Characters -/

/-- A character below U+10000 that is neither zero, nor a surrogate, nor one of the code points that
are no characters. -/
structure BmpChar (cp : Nat) : Prop where
  pos : 0 < cp
  lt : cp < 0x10000
  surrogate : ¬(0xd800 ≤ cp ∧ cp ≤ 0xdfff)
  arabic : ¬(0xfdd0 ≤ cp ∧ cp ≤ 0xfdef)
  last : cp ≠ 0xfffe ∧ cp ≠ 0xffff

/-- The UTF-8 sequence of a code point below U+10000. -/
def utf8 (cp : Nat) : List UInt8 :=
  if cp < 0x80 then [ofNat cp]
  else if cp < 0x800 then [ofNat (0xc0 + cp / 64), ofNat (0x80 + cp % 64)]
  else [ofNat (0xe0 + cp / 4096), ofNat (0x80 + cp / 64 % 64), ofNat (0x80 + cp % 64)]

/-- A string of such characters. -/
def IsText (string : List UInt8) : Prop :=
  ∃ cps : List Nat, (∀ cp ∈ cps, BmpChar cp) ∧ string = cps.flatMap utf8

/-! ## Reading a character -/

theorem toNat_ofNat_of_lt {n : Nat} (h : n < 256 := by omega) : (ofNat n).toNat = n := by
  simp [Nat.mod_eq_of_lt h]

theorem and_63 (n : Nat) : (0x80 + n % 64) &&& 0x3f = n % 64 := by
  rw [Nat.and_two_pow_sub_one_eq_mod _ 6]
  omega

theorem and_c0 : ∀ n < 64, (0x80 + n) &&& 0xc0 = 0x80 := by decide

variable {byte ch : UInt8} {cp : Nat}

/-- A continuation byte adds its six bits. -/
theorem continuation_cons {m : Nat} (hb : byte.toNat = 0x80 + m % 64) (left n cp : Nat)
    (rest : List UInt8) :
    continuation (left + 1) (n + 1) cp (byte :: rest) = continuation left n (cp * 64 + m % 64)
    rest := by
  have hmod : m % 64 < 64 := Nat.mod_lt _ (by decide)
  have hor : cp <<< 6 ||| m % 64 = cp * 64 + m % 64 := by
    rw [← Nat.shiftLeft_add_eq_or_of_lt hmod, Nat.shiftLeft_eq]
  have hc0 : (0x80 + m % 64) &&& 0xc0 = 0x80 := and_c0 _ hmod
  simp [continuation, hb, hc0, and_63, hor]

theorem leadingOnes_two : ∀ n < 32, leadingOnes 8 (0xc0 + n) 0x80 0 = (2, 0x20) := by decide

theorem leadingOnes_three : ∀ n < 16, leadingOnes 8 (0xe0 + n) 0x80 0 = (3, 0x10) := by decide

theorem and_1f : ∀ n < 32, (0xc0 + n) &&& (0x20 - 1) = n ∧ (0xc0 + n) &&& 0x40 ≠ 0 := by decide

theorem and_0f : ∀ n < 16, (0xe0 + n) &&& (0x10 - 1) = n ∧ (0xe0 + n) &&& 0x40 ≠ 0 := by decide

/-- Only the last two code points of a plane have all the bits of the mask. -/
theorem and_fffe (hlt : cp < 0x10000) (h : cp &&& 0xfffe = 0xfffe) : cp = 0xfffe ∨ cp = 0xffff := by
  have hhalf : cp / 2 &&& 0x7fff = 0x7fff := by
    have hdiv : (cp &&& 0xfffe) / 2 = cp / 2 &&& 0xfffe / 2 := Nat.and_div_two
    rw [h] at hdiv
    exact hdiv.symm
  rw [Nat.and_two_pow_sub_one_eq_mod _ 15] at hhalf
  omega

theorem checkedCp_of_bmpChar {cp len : Nat} (h : BmpChar cp) (hmin : minCp len ≤ cp) :
    checkedCp len cp = cp := by
  have hlt := h.lt
  have hnonchar : ¬((0xfdd0 ≤ cp ∧ cp ≤ 0xfdef) ∨ cp &&& 0xfffe = 0xfffe) := by
    rintro (hc | hc)
    · exact h.arabic hc
    · rcases and_fffe hlt hc with hc | hc
      · exact h.last.1 hc
      · exact h.last.2 hc
  unfold checkedCp
  rw [if_neg (by omega), if_neg hnonchar, if_neg h.surrogate, if_neg fun hc =>
    absurd hc.1 (by omega)]

theorem ne_zero_of_toNat {n : Nat} (h : byte.toNat = n) (hn : 0 < n) : byte ≠ 0 := by
  rintro rfl
  exact absurd h.symm hn.ne'

theorem modUtf8Codepoint_one (hb : byte.toNat = cp) (hpos : 0 < cp) (hlt : cp < 0x80)
    (rest : List UInt8) : modUtf8Codepoint (byte :: rest) 6 = ((cp : Int), rest) := by
  have hne : byte ≠ 0 := ne_zero_of_toNat hb hpos
  simp [modUtf8Codepoint, hb, hne, hlt]

theorem modUtf8Codepoint_two {b₀ b₁ : UInt8} (h : BmpChar cp) (hlo : 0x80 ≤ cp) (hhi : cp < 0x800)
    (h₀ : b₀.toNat = 0xc0 + cp / 64) (h₁ : b₁.toNat = 0x80 + cp % 64) (rest : List UInt8) :
    modUtf8Codepoint (b₀ :: b₁ :: rest) 6 = ((cp : Int), rest) := by
  have hdiv : cp / 64 < 32 := by omega
  have hne : b₀ ≠ 0 := ne_zero_of_toNat h₀ (by omega)
  obtain ⟨hmask, hbit⟩ := and_1f _ hdiv
  have hcp : cp / 64 * 64 + cp % 64 = cp := by omega
  have hcont : continuation 1 5 (cp / 64) (b₁ :: rest) = (some cp, rest) := by
    rw [continuation_cons h₁, hcp]
    rfl
  have hlead : ¬0xc0 + cp / 64 < 0x80 ∧ ¬0xc0 + cp / 64 ≥ 0xfe := by omega
  simp only [modUtf8Codepoint, h₀, hne, or_false, hlead.1, hlead.2, hbit, if_false,
    leadingOnes_two _ hdiv, hmask, hcont, @checkedCp_of_bmpChar cp 2 h hlo, OfNat.ofNat_ne_zero]

theorem modUtf8Codepoint_three {b₀ b₁ b₂ : UInt8} (h : BmpChar cp) (hlo : 0x800 ≤ cp)
    (h₀ : b₀.toNat = 0xe0 + cp / 4096) (h₁ : b₁.toNat = 0x80 + cp / 64 % 64)
    (h₂ : b₂.toNat = 0x80 + cp % 64) (rest : List UInt8) :
    modUtf8Codepoint (b₀ :: b₁ :: b₂ :: rest) 6 = ((cp : Int), rest) := by
  have hlt := h.lt
  have hdiv : cp / 4096 < 16 := by omega
  have hne : b₀ ≠ 0 := ne_zero_of_toNat h₀ (by omega)
  obtain ⟨hmask, hbit⟩ := and_0f _ hdiv
  have hcp : (cp / 4096 * 64 + cp / 64 % 64) * 64 + cp % 64 = cp := by omega
  have hcont : continuation 2 5 (cp / 4096) (b₁ :: b₂ :: rest) = (some cp, rest) := by
    rw [continuation_cons h₁, continuation_cons h₂, hcp]
    rfl
  have hlead : ¬0xe0 + cp / 4096 < 0x80 ∧ ¬0xe0 + cp / 4096 ≥ 0xfe := by omega
  simp only [modUtf8Codepoint, h₀, hne, or_false, hlead.1, hlead.2, hbit, if_false,
    leadingOnes_three _ hdiv, hmask, hcont, @checkedCp_of_bmpChar cp 3 h hlo, OfNat.ofNat_ne_zero]

/-- The sequence of a character is read as that character. -/
theorem modUtf8Codepoint_utf8 (h : BmpChar cp) (rest : List UInt8) :
    modUtf8Codepoint (utf8 cp ++ rest) 6 = ((cp : Int), rest) := by
  have hlt := h.lt
  unfold utf8
  split
  · rename_i h80
    exact modUtf8Codepoint_one toNat_ofNat_of_lt h.pos h80 rest
  split
  · rename_i h80 h800
    exact modUtf8Codepoint_two h (by omega) h800 toNat_ofNat_of_lt
      toNat_ofNat_of_lt rest
  · exact modUtf8Codepoint_three h (by omega) toNat_ofNat_of_lt
      toNat_ofNat_of_lt toNat_ofNat_of_lt rest

/-! ## Printing a string -/

theorem ofNat_ne_zero {n : Nat} (hpos : 0 < n := by omega) (hlt : n < 256 := by omega) :
    ofNat n ≠ 0 := ne_zero_of_toNat (toNat_ofNat_of_lt hlt) hpos

theorem utf8_ne_zero (h : BmpChar cp) : ∀ byte ∈ utf8 cp, byte ≠ 0 := by
  have hlt := h.lt
  have hpos := h.pos
  unfold utf8
  split
  · exact forall_mem_singleton.2 ofNat_ne_zero
  split
  · exact forall_mem_cons.2 ⟨ofNat_ne_zero, forall_mem_singleton.2 ofNat_ne_zero⟩
  · exact forall_mem_cons.2 ⟨ofNat_ne_zero, forall_mem_cons.2
      ⟨ofNat_ne_zero, forall_mem_singleton.2 ofNat_ne_zero⟩⟩

theorem utf8_cons (h : BmpChar cp) : ∃ byte tail, utf8 cp = byte :: tail ∧ byte ≠ 0 := by
  have hne : utf8 cp ≠ [] := by
    unfold utf8
    split_ifs <;> exact cons_ne_nil _ _
  obtain ⟨byte, tail, hutf8⟩ := exists_cons_of_ne_nil hne
  exact ⟨byte, tail, hutf8, utf8_ne_zero h byte (hutf8 ▸ mem_cons_self)⟩

/-- The characters of a string are printed one by one. -/
theorem escapeLoop_text (cps : List Nat) (h : ∀ cp ∈ cps, BmpChar cp) (fuel : Nat)
    (hfuel : (cps.flatMap utf8).length ≤ fuel) :
    escapeLoop fuel (cps.flatMap utf8) = cps.flatMap fun cp : Nat => escapeCp (cp : Int) := by
  induction cps generalizing fuel with
  | nil =>
    cases fuel with
    | zero => rfl
    | succ fuel => rfl
  | cons cp cps ih =>
    have hcp := h cp mem_cons_self
    obtain ⟨byte, tail, hutf8, hbyte⟩ := utf8_cons hcp
    rw [flatMap_cons] at hfuel ⊢
    cases fuel with
    | zero => simp [hutf8] at hfuel
    | succ fuel =>
      have hrest : (cps.flatMap utf8).length ≤ fuel := by
        rw [hutf8, List.cons_append, length_cons, length_append] at hfuel
        omega
      have hhead : (utf8 cp ++ cps.flatMap utf8).headD 0 ≠ 0 := by
        rw [hutf8]
        exact hbyte
      rw [escapeLoop, if_neg hhead, modUtf8Codepoint_utf8 hcp]
      exact congrArg (escapeCp cp ++ ·) (ih (fun c hc => h c (mem_cons_of_mem _ hc)) fuel hrest)

/-! ## Reading an escape -/

section Unescape

variable {c : JSONParserContext}

theorem hex2decimal_hexDigit : ∀ n < 16, hex2decimal (hexDigit n) = some n := by decide

/-- Four digits make up a number. -/
theorem or_hexDigits (n : Nat) (h : n < 0x10000) :
    (n / 4096 % 16) <<< 12 ||| (n / 256 % 16) <<< 8 ||| (n / 16 % 16) <<< 4 ||| (n % 16) = n := by
  have h₁ : (n / 4096 % 16) <<< 12 ||| (n / 256 % 16) <<< 8 = (n / 256) <<< 8 := by
    rw [← Nat.shiftLeft_add_eq_or_of_lt (by omega)]
    omega
  have h₂ : (n / 256) <<< 8 ||| (n / 16 % 16) <<< 4 = (n / 16) <<< 4 := by
    rw [← Nat.shiftLeft_add_eq_or_of_lt (by omega)]
    omega
  rw [h₁, h₂, ← Nat.shiftLeft_add_eq_or_of_lt (by omega)]
  omega

theorem hexDigits_cons {digit : Nat} (h : digit < 16) (i : Nat) (wchar : BitVec 16)
    (ptr : List UInt8) : hexDigits (i + 1) wchar (hexDigit digit :: ptr) =
      hexDigits i (wchar ||| BitVec.ofNat 16 (digit <<< (i * 4))) ptr := by
  rw [hexDigits, hex2decimal_hexDigit digit h]

theorem hexDigits_hex4 (n : Nat) (h : n < 0x10000) (ptr : List UInt8) :
    hexDigits 4 0 (hex4 n ++ ptr) = pure (BitVec.ofNat 16 n, ptr) := by
  have hmod (m : Nat) : m % 16 < 16 := Nat.mod_lt _ (by decide)
  have hor : (0 : BitVec 16) ||| BitVec.ofNat 16 ((n / 4096 % 16) <<< (3 * 4)) |||
      BitVec.ofNat 16 ((n / 256 % 16) <<< (2 * 4)) ||| BitVec.ofNat 16
      ((n / 16 % 16) <<< (1 * 4)) |||
      BitVec.ofNat 16 ((n % 16) <<< (0 * 4)) = BitVec.ofNat 16 n := by
    rw [show (0 : BitVec 16) = 0#16 from rfl, zero_or, ← ofNat_or, ← ofNat_or, ← ofNat_or]
    exact congrArg (BitVec.ofNat 16) (or_hexDigits n h)
  change hexDigits 4 0 (hexDigit _ :: hexDigit _ :: hexDigit _ :: hexDigit _ :: ptr) = _
  rw [hexDigits_cons (hmod _), hexDigits_cons (hmod _), hexDigits_cons (hmod _),
    hexDigits_cons (hmod _), hor]
  rfl

theorem or_lead : (∀ n < 32, 0xc0 ||| n = 0xc0 + n) ∧ (∀ n < 16, 0xe0 ||| n = 0xe0 + n) ∧
    ∀ n < 64, 0x80 ||| n = 0x80 + n := by
  decide

/-- A code point is written as its sequence. -/
theorem wcharToUtf8_ofNat (n : Nat) (h : n < 0x10000) :
    wcharToUtf8 (BitVec.ofNat 16 n) 4 = pure (utf8 n) := by
  have hnat : (BitVec.ofNat 16 n).toNat = n := by
    rw [toNat_ofNat]
    omega
  obtain ⟨hc0, he0, h80⟩ := or_lead
  have h3f (m : Nat) : m &&& 0x3f = m % 64 := Nat.and_two_pow_sub_one_eq_mod m 6
  have hmod (m : Nat) : m % 64 < 64 := Nat.mod_lt _ (by decide)
  unfold wcharToUtf8 utf8
  rw [hnat]
  by_cases h₁ : n < 0x80
  · have h7f : n &&& 0x7f = n := by
      rw [Nat.and_two_pow_sub_one_eq_mod n 7]
      omega
    rw [if_pos (by omega), if_pos h₁, h7f]
    rfl
  rw [if_neg (by omega), if_neg h₁]
  by_cases h₂ : n < 0x800
  · have h1f : n >>> 6 &&& 0x1f = n / 64 := by
      rw [Nat.and_two_pow_sub_one_eq_mod _ 5]
      omega
    rw [if_pos (by omega), if_pos h₂, h1f, h3f, hc0 _ (by omega), h80 _ (hmod _)]
    rfl
  have h0f : n >>> 12 &&& 0x0f = n / 4096 := by
    rw [Nat.and_two_pow_sub_one_eq_mod _ 4]
    omega
  have hmid : n >>> 6 &&& 0x3f = n / 64 % 64 := by rw [h3f, Nat.shiftRight_eq_div_pow]
  rw [if_neg (by omega), if_neg h₂, h0f, hmid, h3f, he0 _ (by omega), h80 _ (hmod _),
    h80 _ (hmod _)]
  rfl

theorem takeWhile_utf8 (h : BmpChar cp) :
    (utf8 cp).takeWhile (fun byte => decide (byte ≠ 0)) = utf8 cp :=
  takeWhile_eq_self_iff.2 fun byte hb => decide_eq_true (utf8_ne_zero h byte hb)

theorem unescapeLoop_quote (fuel : Nat) (ptr str : List UInt8) :
    unescapeLoop 0x22 (fuel + 1) (0x22 :: ptr) str = pure str := by
  rfl

theorem unescapeLoop_plain (hquote : ch ≠ 0x22) (hslash : ch ≠ 0x5c) (fuel : Nat)
    (ptr str : List UInt8) :
    unescapeLoop 0x22 (fuel + 1) (ch :: ptr) str = unescapeLoop 0x22 fuel ptr (str ++ [ch]) := by
  rw [unescapeLoop.eq_def]
  dsimp only
  rw [if_neg hquote, if_neg hslash]

theorem unescapeLoop_simple (h : simpleEscape ch = some byte) (fuel : Nat)
    (ptr str : List UInt8) : unescapeLoop 0x22 (fuel + 1) (0x5c :: ch :: ptr) str =
      unescapeLoop 0x22 fuel ptr (str ++ [byte]) := by
  rw [unescapeLoop.eq_def]
  dsimp only
  rw [if_neg (by decide), if_pos rfl, h]

/-- An escaped code point is read as the bytes of the character. -/
theorem unescapeLoop_ucode (h : BmpChar cp) (fuel : Nat) (ptr str : List UInt8) :
    unescapeLoop 0x22 (fuel + 1) (ucode cp ++ ptr) str = unescapeLoop 0x22 fuel ptr
    (str ++ utf8 cp) := by
  funext c
  change unescapeLoop 0x22 (fuel + 1) (0x5c :: 0x75 :: (hex4 cp ++ ptr)) str c = _
  rw [unescapeLoop.eq_def]
  dsimp only
  rw [hexDigits_hex4 cp h.lt]
  refine (Prog.bind_of_ok rfl _).trans ?_
  rw [wcharToUtf8_ofNat cp h.lt]
  refine (Prog.bind_of_ok rfl _).trans ?_
  rw [takeWhile_utf8 h]

/-- Each character is read back. -/
theorem unescapeLoop_escapeCp (h : BmpChar cp) (fuel : Nat) (ptr str : List UInt8) :
    unescapeLoop 0x22 (fuel + 1) (escapeCp cp ++ ptr) str =
      unescapeLoop 0x22 fuel ptr (str ++ utf8 cp) := by
  unfold escapeCp
  have hlt := h.lt
  split_ifs with h₁ h₂ h₃ h₄ h₅ h₆ h₇ h₈
  · obtain rfl : cp = 0x22 := by omega
    exact unescapeLoop_simple (by decide) fuel ptr str
  · obtain rfl : cp = 0x5c := by omega
    exact unescapeLoop_simple (by decide) fuel ptr str
  · obtain rfl : cp = 0x08 := by omega
    exact unescapeLoop_simple (by decide) fuel ptr str
  · obtain rfl : cp = 0x0c := by omega
    exact unescapeLoop_simple (by decide) fuel ptr str
  · obtain rfl : cp = 0x0a := by omega
    exact unescapeLoop_simple (by decide) fuel ptr str
  · obtain rfl : cp = 0x0d := by omega
    exact unescapeLoop_simple (by decide) fuel ptr str
  · obtain rfl : cp = 0x09 := by omega
    exact unescapeLoop_simple (by decide) fuel ptr str
  · omega
  rw [Int.toNat_natCast]
  unfold plainCp
  rw [if_neg (by omega)]
  split
  · exact unescapeLoop_ucode h fuel ptr str
  have hutf8 : utf8 cp = [ofNat cp] := if_pos (by omega)
  have hnat : (ofNat cp).toNat = cp := toNat_ofNat_of_lt
  rw [hutf8]
  refine unescapeLoop_plain ?_ ?_ fuel ptr str
  · intro hc
    have := congrArg toNat hc
    rw [hnat] at this
    exact h₁ (by exact_mod_cast this)
  intro hc
  have := congrArg toNat hc
  rw [hnat] at this
  exact h₂ (by exact_mod_cast this)

theorem unescapeLoop_text (cps : List Nat) (h : ∀ cp ∈ cps, BmpChar cp) (fuel : Nat)
    (hfuel : cps.length < fuel) (str : List UInt8) :
    unescapeLoop 0x22 fuel ((cps.flatMap fun cp : Nat => escapeCp (cp : Int)) ++ [0x22]) str =
      pure (str ++ cps.flatMap utf8) := by
  induction cps generalizing fuel str with
  | nil =>
    obtain ⟨fuel, rfl⟩ := Nat.exists_eq_succ_of_ne_zero (ne_of_gt hfuel)
    rw [flatMap_nil, flatMap_nil, append_nil]
    exact unescapeLoop_quote fuel [] str
  | cons cp cps ih =>
    obtain ⟨fuel, rfl⟩ := Nat.exists_eq_succ_of_ne_zero (ne_of_gt (Nat.zero_lt_of_lt hfuel))
    rw [flatMap_cons, List.append_assoc, unescapeLoop_escapeCp (h cp mem_cons_self),
      ih (fun c hc => h c (mem_cons_of_mem _ hc)) fuel (Nat.lt_of_succ_lt_succ hfuel),
      flatMap_cons, List.append_assoc]

theorem escapeCp_length (cp : Int) : 0 < (escapeCp cp).length := by
  have hplain (n : Nat) : 0 < (plainCp n).length := by
    unfold plainCp ucode
    split_ifs <;> simp
  unfold escapeCp
  split_ifs
  all_goals first | exact hplain _ | decide

theorem length_le_escape (cps : List Nat) :
    cps.length ≤ (cps.flatMap fun cp : Nat => escapeCp (cp : Int)).length := by
  induction cps with
  | nil => exact le_rfl
  | cons cp cps ih =>
    have := escapeCp_length cp
    rw [flatMap_cons, length_append, length_cons]
    omega

theorem qstringFromEscapedStr_text {string : List UInt8} (h : IsText string) {token : JSONToken}
    (ht : token.token = stringToJson string) : qstringFromEscapedStr token = pure string := by
  obtain ⟨cps, hcps, rfl⟩ := h
  unfold qstringFromEscapedStr
  rw [ht, stringToJson, escapeLoop_text cps hcps _ le_rfl]
  dsimp only
  rw [if_pos rfl, unescapeLoop_text cps hcps _ ?_ []]
  · rfl
  · rw [length_append]
    have := length_le_escape cps
    omega

end Unescape

/-! ## Numbers -/

theorem digitChar_digit : ∀ d < 10, inRange '0' '9' (digitChar d) = true ∧
    (digitChar d).toNat - '0'.toNat = d ∧ digitChar d ≠ 0x2d := by
  decide

theorem decimalLoop_digits (digits : List Nat) (h : ∀ d ∈ digits, d < 10) (value : Nat) :
    decimalLoop value (digits.map digitChar) = digits.foldl (fun v d => v * 10 + d) value := by
  induction digits generalizing value with
  | nil => rfl
  | cons d digits ih =>
    obtain ⟨hrange, hd, -⟩ := digitChar_digit d (h d mem_cons_self)
    rw [map_cons, decimalLoop, if_pos hrange, hd]
    exact ih (fun d' hd' => h d' (mem_cons_of_mem _ hd')) _

/-- The digits of a number, in the order in which they are printed. -/
theorem decimal_digits (n : Nat) :
    ∃ digits : List Nat, decimal n = digits.map digitChar ∧ digits ≠ [] ∧ (∀ d ∈ digits, d < 10) ∧
      digits.foldl (fun v d => v * 10 + d) 0 = n := by
  by_cases hn : n = 0
  · subst hn
    exact ⟨[0], rfl, cons_ne_nil _ _, by decide, rfl⟩
  refine ⟨(Nat.digits 10 n).reverse, if_neg hn, ?_, fun d hd => ?_, ?_⟩
  · exact fun hnil => Nat.digits_ne_nil_iff_ne_zero.2 hn (reverse_eq_nil_iff.1 hnil)
  · exact Nat.digits_lt_base (by decide) (mem_reverse.1 hd)
  · have hof := Nat.ofDigits_digits 10 n
    rw [Nat.ofDigits_eq_foldr] at hof
    simpa [Nat.mul_comm, Nat.add_comm] using hof

theorem decimalLoop_decimal (n : Nat) : decimalLoop 0 (decimal n) = n := by
  obtain ⟨digits, htext, -, hlt, hvalue⟩ := decimal_digits n
  rw [htext, decimalLoop_digits digits hlt, hvalue]

theorem decimalValue_intToJson (value : Int) : decimalValue (intToJson value) = value := by
  unfold intToJson
  split
  · rw [decimalValue, decimalLoop_decimal]
    omega
  obtain ⟨digits, htext, hne, hlt, -⟩ := decimal_digits value.natAbs
  have hloop := decimalLoop_decimal value.natAbs
  rw [htext] at hloop ⊢
  cases digits with
  | nil => exact absurd rfl hne
  | cons d digits =>
    have hd := (digitChar_digit d (hlt d mem_cons_self)).2.2
    rw [map_cons] at hloop ⊢
    have hvalue : decimalValue (digitChar d :: digits.map digitChar) =
        decimalLoop 0 (digitChar d :: digits.map digitChar) := by
      unfold decimalValue
      split
      · rename_i heq
        exact absurd (cons.inj heq).1 hd
      · rfl
    omega

/-- The text of an integer is read as the integer. -/
theorem strtoll_intToJson (value : BitVec 64) : strtoll (intToJson value.toInt) = some value := by
  unfold strtoll
  rw [decimalValue_intToJson, if_pos ⟨value.le_toInt, value.toInt_lt⟩, ofInt_toInt]

end QemuAndroid.Json
