import QemuAndroid.Json.Walk
import Mathlib.Data.Nat.Digits.Lemmas

/-!
# The texts of scalars

The text of each scalar is a walk through the table of the lexer: that of a string up to its last
quote, and that of any other scalar up to a state in which every delimiter ends the token.
-/

namespace QemuAndroid.Json

open List UInt8

variable {text : List UInt8}

/-- A step of a walk between fixed states. -/
theorem Walk.step {state last : Nat} {ch : UInt8} (next : Nat)
    (hs : inError < state ∧ state ≤ inStart) (he : entry state ch = next)
    (hn : inError < next ∧ next < inStart) (h : Walk next text last) :
    Walk state (ch :: text) last :=
  .cons hs he hn.1 hn.2 h

/-! ## Strings -/

theorem hexDigit_entry : ∀ n < 16,
    entry inDqUcode0 (hexDigit n) = inDqUcode1 ∧ entry inDqUcode1 (hexDigit n) = inDqUcode2 ∧
      entry inDqUcode2 (hexDigit n) = inDqUcode3 ∧ entry inDqUcode3 (hexDigit n) = inDqString := by
  decide

theorem walk_ucode (n : Nat) : Walk inDqString (ucode n) inDqString := by
  have hmod (m : Nat) : m % 16 < 16 := Nat.mod_lt _ (by decide)
  refine .step inDqStringEscape (by decide) (by decide) (by decide) ?_
  refine .step inDqUcode0 (by decide) (by decide) (by decide) ?_
  refine .step inDqUcode1 (by decide) (hexDigit_entry _ (hmod _)).1 (by decide) ?_
  refine .step inDqUcode2 (by decide) (hexDigit_entry _ (hmod _)).2.1 (by decide) ?_
  refine .step inDqUcode3 (by decide) (hexDigit_entry _ (hmod _)).2.2.1 (by decide) ?_
  exact .step inDqString (by decide) (hexDigit_entry _ (hmod _)).2.2.2 (by decide) (.nil _)

theorem walk_simpleEscape {ch : UInt8} (h : ch ∈ [0x22, 0x5c, 0x62, 0x66, 0x6e, 0x72, 0x74]) :
    Walk inDqString [0x5c, ch] inDqString := by
  have hall : ∀ ch ∈ ([0x22, 0x5c, 0x62, 0x66, 0x6e, 0x72, 0x74] : List UInt8),
      entry inDqStringEscape ch = inDqString := by decide +kernel
  exact .step inDqStringEscape (by decide) (by decide) (by decide)
    (.step inDqString (by decide) (hall ch h) (by decide) (.nil _))

theorem walk_plain (n : Nat) (hlo : 0x20 ≤ n) (hhi : n < 0x7f) (hquote : n ≠ 0x22)
    (hslash : n ≠ 0x5c) : Walk inDqString [ofNat n] inDqString := by
  have hall : ∀ n < 0x7f, 0x20 ≤ n → n ≠ 0x22 → n ≠ 0x5c →
      entry inDqString (ofNat n) = inDqString := by decide
  exact .step inDqString (by decide) (hall n hhi hlo hquote hslash) (by decide) (.nil _)

theorem walk_plainCp (cp : Nat) (hquote : cp ≠ 0x22) (hslash : cp ≠ 0x5c) :
    Walk inDqString (plainCp cp) inDqString := by
  unfold plainCp
  split
  · exact (walk_ucode _).append (walk_ucode _)
  split
  · exact walk_ucode _
  · rename_i h
    push Not at h
    exact walk_plain cp h.1 h.2 hquote hslash

theorem walk_escapeCp (cp : Int) : Walk inDqString (escapeCp cp) inDqString := by
  unfold escapeCp
  split_ifs
  iterate 7 exact walk_simpleEscape (by decide)
  · exact walk_plainCp 0xfffd (by decide) (by decide)
  · exact walk_plainCp cp.toNat (by omega) (by omega)

theorem walk_escapeLoop (fuel : Nat) (ptr : List UInt8) :
    Walk inDqString (escapeLoop fuel ptr) inDqString := by
  fun_induction escapeLoop fuel ptr with
  | case3 _ _ _ _ _ _ ih => exact (walk_escapeCp _).append ih
  | _ => exact .nil _

theorem scanAll_string (string : List UInt8) (hlen : (stringToJson string).length ≤ maxTokenSize)
    (text : List UInt8) : scanAll start (stringToJson string ++ text) =
      prepend [(jsonString, stringToJson string)] (scanAll start text) := by
  have hwalk : Walk inStart (0x22 :: escapeLoop string.length string) inDqString :=
    .step inDqString (by decide) (by decide) (by decide) (walk_escapeLoop _ _)
  have hsplit : stringToJson string = (0x22 :: escapeLoop string.length string) ++ [0x22] := rfl
  rw [hsplit] at hlen ⊢
  rw [append_assoc]
  refine hwalk.closed (Nat.le_trans ?_ hlen) (by decide) (by decide) (by decide) text
  simp

/-! ## Numbers -/

theorem digit_entry : ∀ n < 10, entry inNonzeroNumber (ofNat (48 + n)) = inNonzeroNumber ∧
      entry inMantissa (ofNat (48 + n)) = inMantissaDigits ∧
      entry inMantissaDigits (ofNat (48 + n)) = inMantissaDigits ∧
      (n ≠ 0 → entry inStart (ofNat (48 + n)) = inNonzeroNumber ∧
        entry inNegNonzeroNumber (ofNat (48 + n)) = inNonzeroNumber) := by
  decide

def BeginsNumber (state : Nat) : Prop := state = inStart ∨ state = inNegNonzeroNumber

def numberState (n : Nat) : Nat := if n = 0 then inZero else inNonzeroNumber

theorem walk_digits (digits : List Nat) (h : ∀ d ∈ digits, d < 10) :
    Walk inNonzeroNumber (digits.map fun d => ofNat (48 + d)) inNonzeroNumber := by
  induction digits with
  | nil => exact .nil _
  | cons d digits ih =>
    exact .step inNonzeroNumber (by decide) (digit_entry d (h d mem_cons_self)).1 (by decide)
      (ih fun d' hd' => h d' (mem_cons_of_mem _ hd'))

theorem walk_decimal {state : Nat} (hstate : BeginsNumber state) (n : Nat) :
    Walk state (decimal n) (numberState n) := by
  have hs : inError < state ∧ state ≤ inStart := by rcases hstate with rfl | rfl <;> decide
  unfold decimal numberState
  split
  · exact .step inZero hs (by rcases hstate with rfl | rfl <;> decide) (by decide) (.nil _)
  rename_i hn
  -- the first digit is the last one of the little-endian list, and is not zero
  have hne : Nat.digits 10 n ≠ [] := Nat.digits_ne_nil_iff_ne_zero.2 hn
  obtain ⟨front, last, hsplit⟩ : ∃ front last, Nat.digits 10 n = front ++ [last] :=
    ⟨_, _, (dropLast_append_getLast hne).symm⟩
  have hlast : last ≠ 0 := by
    have hgl := Nat.getLast_digit_ne_zero 10 hn
    simpa [hsplit] using hgl
  have hlt (d : Nat) (hd : d ∈ Nat.digits 10 n) : d < 10 := Nat.digits_lt_base (by decide) hd
  rw [hsplit, reverse_append]
  have hentry := (digit_entry last (hlt last (by simp [hsplit]))).2.2.2 hlast
  refine .step inNonzeroNumber hs ?_ (by decide) (walk_digits _ fun d hd => hlt d ?_)
  · rcases hstate with rfl | rfl
    · exact hentry.1
    · exact hentry.2
  · rw [hsplit]
    exact mem_append_left _ (mem_reverse.1 hd)

def sign (negative : Bool) : List UInt8 := if negative then [0x2d] else []

theorem walk_signed (negative : Bool) (n : Nat) :
    Walk inStart (sign negative ++ decimal n) (numberState n) := by
  cases negative with
  | false => exact walk_decimal (Or.inl rfl) n
  | true =>
    exact .step inNegNonzeroNumber (by decide) (by decide) (by decide) (walk_decimal (Or.inr rfl) n)

theorem intToJson_eq (value : Int) :
    intToJson value = sign (decide (value < 0)) ++ decimal value.natAbs := by
  unfold intToJson sign
  by_cases h : value < 0
  · simp [h]
  · simp [h]

abbrev digitChar (d : Nat) : UInt8 := ofNat (48 + d)

theorem walk_mantissa (digits : List Nat) (h : ∀ d ∈ digits, d < 10) :
    Walk inMantissaDigits (digits.map digitChar) inMantissaDigits := by
  induction digits with
  | nil => exact .nil _
  | cons d digits ih =>
    exact .step inMantissaDigits (by decide) (digit_entry d (h d mem_cons_self)).2.2.1 (by decide)
      (ih fun d' hd' => h d' (mem_cons_of_mem _ hd'))

theorem walk_fraction (negative : Bool) (n : Nat) (digits : List Nat) (h : ∀ d ∈ digits, d < 10)
    (hne : digits ≠ []) :
    Walk inStart (sign negative ++ decimal n ++ 0x2e :: digits.map digitChar) inMantissaDigits := by
  refine (walk_signed negative n).append ?_
  have hdot : entry (numberState n) 0x2e = inMantissa := by
    unfold numberState
    split <;> decide
  have hstate : inError < numberState n ∧ numberState n ≤ inStart := by
    unfold numberState
    split <;> decide
  refine .step inMantissa hstate hdot (by decide) ?_
  cases digits with
  | nil => exact absurd rfl hne
  | cons d digits =>
    exact .step inMantissaDigits (by decide) (digit_entry d (h d mem_cons_self)).2.1 (by decide)
      (walk_mantissa digits fun d' hd' => h d' (mem_cons_of_mem _ hd'))

/-- What `%f` prints: a number with six decimals, or the name of a value that is none. -/
inductive Formatted : List UInt8 → Prop
  | number (negative : Bool) (n : Nat) (digits : List Nat) : (∀ d ∈ digits, d < 10) →
      digits.length = 6 → Formatted (sign negative ++ decimal n ++ 0x2e :: digits.map digitChar)
  | inf (negative : Bool) : Formatted (sign negative ++ bytes "inf")
  | nan (negative : Bool) : Formatted (sign negative ++ bytes "nan")

/-- The decimals that are left when the zeros at the end are gone. -/
def significant (digits : List Nat) : List Nat :=
  (digits.reverse.dropWhile fun d => decide (digitChar d = 0x30)).reverse

theorem significant_lt {digits : List Nat} (h : ∀ d ∈ digits, d < 10) :
    ∀ d ∈ significant digits, d < 10 := by
  intro d hd
  have hmem := (dropWhile_sublist _).subset (mem_reverse.1 hd)
  exact h d (mem_reverse.1 hmem)

/-- The zeros behind the dot go, and the dot goes when nothing is left behind it. -/
theorem floatToJson_number (front : List UInt8) (digits : List Nat) (h : ∀ d ∈ digits, d < 10) :
    floatToJson (front ++ 0x2e :: digits.map digitChar) =
      if significant digits = [] then front
      else front ++ 0x2e :: (significant digits).map digitChar := by
  have hdot : (0x2e : UInt8) ≠ 0x30 := by decide
  have hrev : (front ++ 0x2e :: digits.map digitChar).reverse =
      digits.reverse.map digitChar ++ 0x2e :: front.reverse := by
    simp
  have hdrop : (digits.reverse.map digitChar).dropWhile (fun c => decide (c = 0x30)) =
      (significant digits).reverse.map digitChar := by
    rw [dropWhile_map, significant, reverse_reverse]
    rfl
  have hstrip : ((front ++ 0x2e :: digits.map digitChar).reverse.dropWhile
      (fun c => decide (c = 0x30))).reverse = front ++ 0x2e :: (significant digits).map
      digitChar := by
    rw [hrev, dropWhile_append, hdrop]
    by_cases hnil : significant digits = []
    · simp [hnil, hdot]
    · simp [hnil]
  unfold floatToJson
  rw [hstrip]
  by_cases hnil : significant digits = []
  · rw [hnil]
    simp
  obtain ⟨init, last, hsplit⟩ : ∃ init last, significant digits = init ++ [last] :=
    ⟨_, _, (dropLast_append_getLast hnil).symm⟩
  have hlast : last < 10 := significant_lt h last (by simp [hsplit])
  have hne : digitChar last ≠ 0x2e := by
    have hall : ∀ d < 10, digitChar d ≠ 0x2e := by decide
    exact hall last hlast
  have hconcat : front ++ 0x2e :: (significant digits).map digitChar =
      (front ++ 0x2e :: init.map digitChar) ++ [digitChar last] := by
    rw [hsplit, map_append, append_assoc]
    rfl
  rw [if_neg hnil, if_neg]
  rw [hconcat, getLast?_concat]
  exact fun he => hne (Option.some.inj he)

/-! ## Words -/

/-- The characters that may follow a value in a printed text. -/
def delimiters : List UInt8 := [0x2c, 0x5d, 0x7d, 0x0a]

/-- A delimiter ends the token in this state. -/
def EndsWord (state : Nat) : Prop :=
  entry state 0 ≠ inError ∧ entry state 0 ≠ jsonSkip ∧
    ∀ d ∈ delimiters, entry state d = entry state 0

instance (state : Nat) : Decidable (EndsWord state) :=
  @instDecidableAnd _ _ _ (@instDecidableAnd _ _ _ (decidableBAll _ _))

/-- A text that is one token, ended by a delimiter. -/
def IsWord (text : List UInt8) : Prop := ∃ state, Walk inStart text state ∧ EndsWord state

def wordToken (text : List UInt8) : Tok := (entry (text.foldl entry inStart) 0, text)

theorem Walk.foldl {s t : Nat} (h : Walk s text t) : text.foldl entry s = t := by
  induction h with
  | nil => rfl
  | cons _ he _ _ _ ih => rw [foldl_cons, he, ih]

theorem scanAll_word (h : IsWord text) (hlen : text.length ≤ maxTokenSize)
    {d : UInt8} (hd : d ∈ delimiters) (rest : List UInt8) :
    scanAll start (text ++ d :: rest) = prepend [wordToken text] (scanAll start (d :: rest)) := by
  obtain ⟨state, hwalk, herr, hskip, hends⟩ := h
  rw [hwalk.word hlen (hends d hd) rfl herr, ended, if_neg hskip, wordToken, hwalk.foldl]

def walkTo : Nat → List UInt8 → Option Nat
  | state, [] => some state
  | state, ch :: text =>
    if (inError < state ∧ state ≤ inStart) ∧ inError < entry state ch ∧
      entry state ch < inStart then
      walkTo (entry state ch) text
    else none

theorem Walk.of_walkTo {s t : Nat} (h : walkTo s text = some t) : Walk s text t := by
  fun_induction walkTo s text with
  | case1 s =>
    obtain rfl : s = t := Option.some.inj h
    exact .nil s
  | case2 _ _ _ hc ih => exact .step _ hc.1 rfl hc.2 (ih h)
  | case3 => cases h

theorem isWord_keyword (h : walkTo inStart text = some inKeyword) : IsWord text :=
  ⟨inKeyword, .of_walkTo h, by decide +kernel⟩

theorem isWord_null : IsWord (bytes "null") := isWord_keyword (by decide)

theorem isWord_bool (value : Bool) : IsWord (if value then bytes "true" else bytes "false") := by
  cases value with
  | false => exact isWord_keyword (by decide)
  | true => exact isWord_keyword (by decide)

theorem isWord_number (negative : Bool) (n : Nat) : IsWord (sign negative ++ decimal n) := by
  refine ⟨numberState n, walk_signed negative n, ?_⟩
  unfold numberState
  split <;> decide +kernel

theorem isWord_int (value : Int) : IsWord (intToJson value) :=
  intToJson_eq value ▸ isWord_number _ _

/-- A double is a word, unless it is a negative infinity or a negative value that is no number. -/
theorem isWord_float {buffer : List UInt8} (h : Formatted buffer) (hinf : buffer ≠ bytes "-inf")
    (hnan : buffer ≠ bytes "-nan") : IsWord (floatToJson buffer) := by
  cases h with
  | number negative n digits hdigits _ =>
    rw [floatToJson_number _ digits hdigits]
    split
    · exact isWord_number negative n
    · rename_i hne
      exact ⟨inMantissaDigits, walk_fraction negative n _ (significant_lt hdigits) hne,
        by decide +kernel⟩
  | inf negative =>
    cases negative with
    | false => exact isWord_keyword (by decide)
    | true => exact absurd rfl hinf
  | nan negative =>
    cases negative with
    | false => exact isWord_keyword (by decide)
    | true => exact absurd rfl hnan

end QemuAndroid.Json
