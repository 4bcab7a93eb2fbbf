import QemuAndroid.Lib.Prog

/-!
# The JSON lexer

`qobject/json-lexer.c` is driven by a table: a row for each state of the lexer, an entry for each
byte.  An entry is the next state, or the type of a token that ends here.  The rows are given by the
ranges of their initialisers, in the order of the source; a later range overrides an earlier one,
and a byte in none of them has the entry 0, which is the error state.  States and token types are
the numbers of the two enumerations, since the lexer keeps both in one variable and reports an
oversized token with its state in the place of a type.

A lookup outside the table is undefined behaviour.  The bytes that make up a token have no zero
among them unless the token is an error, so C strings and lists of bytes are the same thing here.
-/

namespace QemuAndroid.Json

open Lib

/-! ## States and token types -/

@[match_pattern] abbrev inError : Nat := 0
@[match_pattern] abbrev inDqUcode3 : Nat := 1
@[match_pattern] abbrev inDqUcode2 : Nat := 2
@[match_pattern] abbrev inDqUcode1 : Nat := 3
@[match_pattern] abbrev inDqUcode0 : Nat := 4
@[match_pattern] abbrev inDqStringEscape : Nat := 5
@[match_pattern] abbrev inDqString : Nat := 6
@[match_pattern] abbrev inSqUcode3 : Nat := 7
@[match_pattern] abbrev inSqUcode2 : Nat := 8
@[match_pattern] abbrev inSqUcode1 : Nat := 9
@[match_pattern] abbrev inSqUcode0 : Nat := 10
@[match_pattern] abbrev inSqStringEscape : Nat := 11
@[match_pattern] abbrev inSqString : Nat := 12
@[match_pattern] abbrev inZero : Nat := 13
@[match_pattern] abbrev inDigits : Nat := 14
@[match_pattern] abbrev inDigit : Nat := 15
@[match_pattern] abbrev inExpE : Nat := 16
@[match_pattern] abbrev inMantissa : Nat := 17
@[match_pattern] abbrev inMantissaDigits : Nat := 18
@[match_pattern] abbrev inNonzeroNumber : Nat := 19
@[match_pattern] abbrev inNegNonzeroNumber : Nat := 20
@[match_pattern] abbrev inKeyword : Nat := 21
@[match_pattern] abbrev inEscape : Nat := 22
@[match_pattern] abbrev inEscapeL : Nat := 23
@[match_pattern] abbrev inEscapeLl : Nat := 24
@[match_pattern] abbrev inEscapeI : Nat := 25
@[match_pattern] abbrev inEscapeI6 : Nat := 26
@[match_pattern] abbrev inEscapeI64 : Nat := 27
@[match_pattern] abbrev inWhitespace : Nat := 28
@[match_pattern] abbrev inStart : Nat := 29

abbrev jsonOperator : Nat := 100
abbrev jsonInteger : Nat := 101
abbrev jsonFloat : Nat := 102
abbrev jsonKeyword : Nat := 103
abbrev jsonString : Nat := 104
abbrev jsonEscape : Nat := 105
abbrev jsonSkip : Nat := 106
abbrev jsonError : Nat := 107

def maxTokenSize : Nat := 64 * 2 ^ 20

/-! ## The table -/

/-- `[lo ... hi] = next`. -/
structure Init where
  lo : Nat
  hi : Nat
  next : Nat

/-- `['c'] = next`. -/
def Init.char (c : Char) (next : Nat) : Init := ⟨c.toNat, c.toNat, next⟩

/-- `['lo' ... 'hi'] = next`. -/
def Init.chars (lo hi : Char) (next : Nat) : Init := ⟨lo.toNat, hi.toNat, next⟩

/-- `TERMINAL(state)`. -/
def Init.terminal (state : Nat) : Init := ⟨0, 0x7f, state⟩

/-- The row of a state within the escape of a code point. -/
def ucodeRow (next : Nat) : List Init :=
  [.chars '0' '9' next, .chars 'a' 'f' next, .chars 'A' 'F' next]

/-- The row of a state after a backslash. -/
def stringEscapeRow (string ucode0 : Nat) : List Init :=
  [.char 'b' string, .char 'f' string, .char 'n' string, .char 'r' string, .char 't' string,
    .char '/' string, .char '\\' string, .char '\'' string, .char '"' string, .char 'u' ucode0]

/-- The row of a state within a string that the quote ends. -/
def stringRow (string escape : Nat) (quote : Char) : List Init :=
  [⟨1, 0xbf, string⟩, ⟨0xc2, 0xf4, string⟩, .char '\\' escape, .char quote jsonString]

def jsonLexerRow : Nat → Option (List Init)
  | inError => some []
  | inDqUcode3 => some (ucodeRow inDqString)
  | inDqUcode2 => some (ucodeRow inDqUcode3)
  | inDqUcode1 => some (ucodeRow inDqUcode2)
  | inDqUcode0 => some (ucodeRow inDqUcode1)
  | inDqStringEscape => some (stringEscapeRow inDqString inDqUcode0)
  | inDqString => some (stringRow inDqString inDqStringEscape '"')
  | inSqUcode3 => some (ucodeRow inSqString)
  | inSqUcode2 => some (ucodeRow inSqUcode3)
  | inSqUcode1 => some (ucodeRow inSqUcode2)
  | inSqUcode0 => some (ucodeRow inSqUcode1)
  | inSqStringEscape => some (stringEscapeRow inSqString inSqUcode0)
  | inSqString => some (stringRow inSqString inSqStringEscape '\'')
  | inZero => some [.terminal jsonInteger, .chars '0' '9' inError, .char '.' inMantissa]
  | inDigits => some [.terminal jsonFloat, .chars '0' '9' inDigits]
  | inDigit => some [.chars '0' '9' inDigits]
  | inExpE => some [.char '-' inDigit, .char '+' inDigit, .chars '0' '9' inDigits]
  | inMantissa => some [.chars '0' '9' inMantissaDigits]
  | inMantissaDigits =>
    some [.terminal jsonFloat, .chars '0' '9' inMantissaDigits, .char 'e' inExpE, .char 'E' inExpE]
  | inNonzeroNumber =>
    some [.terminal jsonInteger, .chars '0' '9' inNonzeroNumber, .char 'e' inExpE, .char 'E' inExpE,
      .char '.' inMantissa]
  | inNegNonzeroNumber => some [.char '0' inZero, .chars '1' '9' inNonzeroNumber]
  | inKeyword => some [.terminal jsonKeyword, .chars 'a' 'z' inKeyword]
  | inEscape =>
    some [.char 'd' jsonEscape, .char 'i' jsonEscape, .char 'p' jsonEscape, .char 's' jsonEscape,
      .char 'f' jsonEscape, .char 'l' inEscapeL, .char 'I' inEscapeI]
  | inEscapeL => some [.char 'd' jsonEscape, .char 'l' inEscapeLl]
  | inEscapeLl => some [.char 'd' jsonEscape]
  | inEscapeI => some [.char '6' inEscapeI6]
  | inEscapeI6 => some [.char '4' inEscapeI64]
  | inEscapeI64 => some [.char 'd' jsonEscape]
  | inWhitespace =>
    some [.terminal jsonSkip, .char ' ' inWhitespace, .char '\t' inWhitespace,
      .char '\r' inWhitespace, .char '\n' inWhitespace]
  | inStart =>
    some [.char '"' inDqString, .char '\'' inSqString, .char '0' inZero,
      .chars '1' '9' inNonzeroNumber, .char '-' inNegNonzeroNumber, .char '\x7b' jsonOperator,
      .char '\x7d' jsonOperator, .char '[' jsonOperator, .char ']' jsonOperator,
      .char ',' jsonOperator, .char ':' jsonOperator, .chars 'a' 'z' inKeyword, .char '%' inEscape,
      .char ' ' inWhitespace, .char '\t' inWhitespace, .char '\r' inWhitespace,
      .char '\n' inWhitespace]
  | _ => none

/-- `json_lexer[state][ch]`. -/
def jsonLexer (state : Nat) (ch : UInt8) : Option Nat :=
  (jsonLexerRow state).map fun row =>
    row.foldl (fun entry i => if i.lo ≤ ch.toNat ∧ ch.toNat ≤ i.hi then i.next else entry) inError

/-! ## The lexer -/

structure JSONToken where
  type : Nat
  token : List UInt8
  x : BitVec 32
  y : BitVec 32
deriving DecidableEq

structure JSONLexer where
  state : Nat
  token : List UInt8
  x : BitVec 32
  y : BitVec 32

def jsonLexerInit : JSONLexer := ⟨inStart, [], 0, 0⟩

def lookupEntry (state : Nat) (ch : UInt8) : Except Halt Nat :=
  match jsonLexer state ch with
  | none => .error .undefined
  | some entry => .ok entry

/-- How a turn of the loop of `json_lexer_feed_char` ends. -/
inductive Turn
  | returned
  | done (charConsumed : Bool)

/-- The token types with a case of their own in the `switch`. -/
def isReported (type : Nat) : Bool :=
  type == jsonOperator || type == jsonEscape || type == jsonInteger || type == jsonFloat ||
    type == jsonKeyword || type == jsonString

def lexerTurn (lexer : JSONLexer) (ch : UInt8) :
    Except Halt (JSONLexer × List JSONToken × Turn) := do
  let newState ← lookupEntry lexer.state ch
  let first ← lookupEntry lexer.state 0
  let charConsumed := first != newState
  let token := if charConsumed then lexer.token ++ [ch] else lexer.token
  if isReported newState then
    pure ({ lexer with state := inStart, token := [] }, [⟨newState, token, lexer.x, lexer.y⟩],
      .done charConsumed)
  else if newState == jsonSkip then
    pure ({ lexer with state := inStart, token := [] }, [], .done charConsumed)
  else if newState == inError then
    pure ({ lexer with state := inStart, token := [] }, [⟨jsonError, token, lexer.x, lexer.y⟩],
      .returned)
  else pure ({ lexer with state := newState, token := token }, [], .done charConsumed)

/-- The check after the loop. -/
def limitToken (lexer : JSONLexer) : JSONLexer × List JSONToken :=
  if lexer.token.length > maxTokenSize then
    ({ lexer with state := inStart, token := [] }, [⟨lexer.state, lexer.token, lexer.x, lexer.y⟩])
  else (lexer, [])

/-- The loop of `json_lexer_feed_char` and what follows it. -/
def lexerLoop (ch : UInt8) (flush : Bool) :
    Nat → JSONLexer → Except Halt (JSONLexer × List JSONToken)
  | 0, _ => .error .fuel
  | fuel + 1, lexer => do
      let (lexer, tokens, turn) ← lexerTurn lexer ch
      match turn with
      | .returned => pure (lexer, tokens)
      | .done charConsumed =>
        if !charConsumed && !flush then do
          let (lexer, more) ← lexerLoop ch flush fuel lexer
          pure (lexer, tokens ++ more)
        else pure ((limitToken lexer).1, tokens ++ (limitToken lexer).2)

def jsonLexerFeedChar (lexer : JSONLexer) (ch : UInt8) (flush : Bool) :
    Except Halt (JSONLexer × List JSONToken) :=
  lexerLoop ch flush 2
    (if ch = 10 then { lexer with x := 0, y := lexer.y + 1 } else { lexer with x := lexer.x + 1 })

def jsonLexerFlush (lexer : JSONLexer) : Except Halt (JSONLexer × List JSONToken) :=
  if lexer.state = inStart then .ok (lexer, []) else jsonLexerFeedChar lexer 0 true

end QemuAndroid.Json
