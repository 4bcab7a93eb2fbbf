import QemuAndroid.Json.Streamer
import QemuAndroid.Json.Object

/-!
# The JSON parser

`qobject/json-parser.c` is a recursive-descent parser over a list of tokens.  Its context is the
position in the list, here the tokens that are left, and the last error.  Reading a token beyond the
end is a failed assertion; the checks of the source for a token that is `NULL` never succeed and are
left out.  A rule that fails jumps to `out`, restores the position and returns `NULL`; the jump is a
raised error.  The rules are those for `ap = NULL`: `parse_escape` reads no token and returns
`NULL`.

The recursion of `parse_value` and the loops of the rules have a fuel.
-/

namespace QemuAndroid.Json

open Lib Prog

/-- The calls of `parse_error`, without their texts. -/
inductive ParseError
  | hexEscape
  | escape
  | keyNotString
  | missingColon
  | missingValue
  | separatorInDict
  | expectingValue
  | separatorInList
  | invalidKeyword (value : List UInt8)
deriving DecidableEq

structure JSONParserContext where
  err : Option ParseError
  tokens : List JSONToken

abbrev Parse := Prog JSONParserContext Unit

/-! ## Tokens -/

def parserContextPopToken : Parse JSONToken := fun ctxt =>
  match ctxt.tokens with
  | [] => (.halted .assertion, ctxt)
  | token :: tokens => (.ok token, { ctxt with tokens := tokens })

def parserContextPeekToken : Parse JSONToken := fun ctxt =>
  match ctxt.tokens with
  | [] => (.halted .assertion, ctxt)
  | token :: _ => (.ok token, ctxt)

def tokenIsOperator (token : JSONToken) (op : Char) : Bool :=
  token.type == jsonOperator && token.token == [UInt8.ofNat op.toNat]

def tokenIsKeyword (token : JSONToken) (value : String) : Bool :=
  token.type == jsonKeyword && token.token == bytes value

/-- `parse_error`, and the jump to `out` that follows it. -/
def parseError {α : Type} (e : ParseError) : Parse α := do
  Prog.modify fun ctxt => { ctxt with err := some e }
  Prog.raise ()

/-- A rule with its label `out`: `parser_context_save` at the start, `parser_context_restore` and
`NULL` for a jump. -/
def orRestore {α : Type} (rule : Parse α) : Parse (Option α) := do
  let saved ← Prog.get
  match ← rule.attempt with
  | .ok a => pure (some a)
  | .error _ => do
      Prog.modify fun ctxt => { ctxt with tokens := saved.tokens }
      pure none

section Evaluation

variable {α : Type} {rule : Parse α} {c c' : JSONParserContext}

theorem orRestore_of_ok {a : α} (h : rule c = (.ok a, c')) :
    orRestore rule c = (.ok (some a), c') := by
  simp only [orRestore, bind, Prog.get, Prog.attempt, h]
  rfl

theorem orRestore_of_raised (h : rule c = (.raised (), c')) :
    orRestore rule c = (.ok none, { c' with tokens := c.tokens }) := by
  simp only [orRestore, bind, Prog.get, Prog.attempt, h]
  rfl

theorem orRestore_of_halted {k : Halt} (h : rule c = (.halted k, c')) :
    orRestore rule c = (.halted k, c') := by
  simp only [orRestore, bind, Prog.get, Prog.attempt, h]

end Evaluation

/-! ## Strings -/

/-- `wchar_to_utf8`: the bytes written before the final zero. -/
def wcharToUtf8 (wchar : BitVec 16) (bufferLength : Nat) : Parse (List UInt8) :=
  if wchar.toNat ≤ 0x7f then do
    Prog.assert (¬ bufferLength < 2)
    pure [UInt8.ofNat (wchar.toNat &&& 0x7f)]
  else if wchar.toNat ≤ 0x7ff then do
    Prog.assert (¬ bufferLength < 3)
    pure [UInt8.ofNat (0xc0 ||| (wchar.toNat >>> 6 &&& 0x1f)),
      UInt8.ofNat (0x80 ||| (wchar.toNat &&& 0x3f))]
  else do
    Prog.assert (¬ bufferLength < 4)
    pure [UInt8.ofNat (0xe0 ||| (wchar.toNat >>> 12 &&& 0x0f)),
      UInt8.ofNat (0x80 ||| (wchar.toNat >>> 6 &&& 0x3f)),
      UInt8.ofNat (0x80 ||| (wchar.toNat &&& 0x3f))]

def inRange (lo hi : Char) (ch : UInt8) : Bool := lo.toNat ≤ ch.toNat && ch.toNat ≤ hi.toNat

/-- `hex2decimal` with the test of `qemu_isxdigit` before it. -/
def hex2decimal (ch : UInt8) : Option Nat :=
  if inRange '0' '9' ch then some (ch.toNat - '0'.toNat)
  else if inRange 'a' 'f' ch then some (10 + (ch.toNat - 'a'.toNat))
  else if inRange 'A' 'F' ch then some (10 + (ch.toNat - 'A'.toNat))
  else none

/-- The loop over the digits of an escaped code point: `i` of them are still to be read. -/
def hexDigits : Nat → BitVec 16 → List UInt8 → Parse (BitVec 16 × List UInt8)
  | 0, unicodeChar, ptr => pure (unicodeChar, ptr)
  | _ + 1, _, [] => parseError .hexEscape
  | i + 1, unicodeChar, ch :: ptr =>
    match hex2decimal ch with
    | none => parseError .hexEscape
    | some digit => hexDigits i (unicodeChar ||| BitVec.ofNat 16 (digit <<< (i * 4))) ptr

def simpleEscape (ch : UInt8) : Option UInt8 :=
  match Char.ofNat ch.toNat with
  | '"' => some 0x22
  | '\'' => some 0x27
  | '\\' => some 0x5c
  | '/' => some 0x2f
  | 'b' => some 0x08
  | 'f' => some 0x0c
  | 'n' => some 0x0a
  | 'r' => some 0x0d
  | 't' => some 0x09
  | _ => none

/-- The loop of `qstring_from_escaped_str`: `ptr` is what is left of the token, `str` the result so
far.  A code point 0 appends nothing, since its bytes are an empty C string. -/
def unescapeLoop (quote : UInt8) : Nat → List UInt8 → List UInt8 → Parse (List UInt8)
  | 0, _, _ => Prog.halt .fuel
  | fuel + 1, ptr, str =>
    match ptr with
    | [] => pure str
    | ch :: ptr =>
      if ch = quote then pure str
      else if ch = 0x5c then
        match ptr with
        | [] => parseError .escape
        | ch :: ptr =>
          match simpleEscape ch with
          | some byte => unescapeLoop quote fuel ptr (str ++ [byte])
          | none =>
            if ch = 0x75 then do
              let (unicodeChar, ptr) ← hexDigits 4 0 ptr
              let utf8Char ← wcharToUtf8 unicodeChar 4
              unescapeLoop quote fuel ptr (str ++ utf8Char.takeWhile (· ≠ 0))
            else parseError .escape
      else unescapeLoop quote fuel ptr (str ++ [ch])

/-- `qstring_from_escaped_str`.  The quote is skipped unseen, which leaves a text that has none. -/
def qstringFromEscapedStr (token : JSONToken) : Parse (List UInt8) :=
  match token.token with
  | [] => Prog.halt .undefined
  | ch :: ptr => unescapeLoop (if ch = 0x22 then 0x22 else 0x27) (ptr.length + 1) ptr []

/-! ## Numbers -/

/-- The value of the digits at the start of a text. -/
def decimalLoop : Nat → List UInt8 → Nat
  | value, [] => value
  | value, ch :: text =>
    if inRange '0' '9' ch then decimalLoop (value * 10 + (ch.toNat - '0'.toNat)) text else value

/-- The number that an integer token stands for. -/
def decimalValue : List UInt8 → Int
  | 0x2d :: text => -decimalLoop 0 text
  | text => decimalLoop 0 text

/-- `strtoll` in base 10 on the text of an integer token; `none` is `ERANGE`. -/
def strtoll (text : List UInt8) : Option (BitVec 64) :=
  if -2 ^ 63 ≤ decimalValue text ∧ decimalValue text < 2 ^ 63 then
    some (BitVec.ofInt 64 (decimalValue text))
  else none

/-! ## Rules -/

section Rules

variable {δ : Type} (libc : Libc δ)

def parseKeyword : Parse (Option (QObject δ)) := orRestore do
  let token ← parserContextPopToken
  if token.type ≠ jsonKeyword then Prog.raise ()
  else if tokenIsKeyword token "true" then pure (.qbool true)
  else if tokenIsKeyword token "false" then pure (.qbool false)
  else if tokenIsKeyword token "null" then pure .qnull
  else parseError (.invalidKeyword token.token)

/-- The literal of a token.  An integer out of range is read as a double. -/
def literal (token : JSONToken) : Parse (Option (QObject δ)) :=
  if token.type = jsonString then do
    match ← (qstringFromEscapedStr token).attempt with
    | .ok string => pure (some (.qstring string))
    | .error _ => pure none
  else if token.type = jsonInteger then
    match strtoll token.token with
    | some value => pure (some (.qint value))
    | none => pure (some (.qfloat (libc.strtod token.token)))
  else if token.type = jsonFloat then pure (some (.qfloat (libc.strtod token.token)))
  else Prog.raise ()

/-- `parse_literal`: after a string with a bad escape the position is not restored. -/
def parseLiteral : Parse (Option (QObject δ)) := do
  match ← orRestore (do literal libc (← parserContextPopToken)) with
  | some obj => pure obj
  | none => pure none

variable (parseValue : Parse (Option (QObject δ)))

/-- `parse_pair`, with the rule for the values. -/
def parsePair (dict : List (List UInt8 × QObject δ)) :
    Parse (Option (List (List UInt8 × QObject δ))) := orRestore do
  let _ ← parserContextPeekToken
  match ← parseValue with
  | some (.qstring key) => do
      let token ← parserContextPopToken
      if tokenIsOperator token ':' then do
        match ← parseValue with
        | some value => pure (qdictPutObj dict key value)
        | none => parseError .missingValue
      else parseError .missingColon
  | _ => parseError .keyNotString

def parsePairs : Nat → List (List UInt8 × QObject δ) → Parse (List (List UInt8 × QObject δ))
  | 0, _ => Prog.halt .fuel
  | fuel + 1, dict => do
      match ← parsePair parseValue dict with
      | none => Prog.raise ()
      | some dict => do
          let token ← parserContextPopToken
          if tokenIsOperator token '\x7d' then pure dict
          else if tokenIsOperator token ',' then parsePairs fuel dict
          else parseError .separatorInDict

def parseObject (fuel : Nat) : Parse (Option (QObject δ)) := orRestore do
  let token ← parserContextPopToken
  if tokenIsOperator token '\x7b' then do
    let peek ← parserContextPeekToken
    if tokenIsOperator peek '\x7d' then do
      let _ ← parserContextPopToken
      pure (.qdict [])
    else do
      let dict ← parsePairs parseValue fuel []
      pure (.qdict dict)
  else Prog.raise ()

/-- The elements of an array and the bracket that ends them. -/
def parseElements : Nat → List (QObject δ) → Parse (List (QObject δ))
  | 0, _ => Prog.halt .fuel
  | fuel + 1, list => do
      match ← parseValue with
      | none => parseError .expectingValue
      | some obj => do
          let token ← parserContextPopToken
          if tokenIsOperator token ']' then pure (list ++ [obj])
          else if tokenIsOperator token ',' then parseElements fuel (list ++ [obj])
          else parseError .separatorInList

def parseArray (fuel : Nat) : Parse (Option (QObject δ)) := orRestore do
  let token ← parserContextPopToken
  if tokenIsOperator token '[' then do
    let peek ← parserContextPeekToken
    if tokenIsOperator peek ']' then do
      let _ ← parserContextPopToken
      pure (.qlist [])
    else do
      let list ← parseElements parseValue fuel []
      pure (.qlist list)
  else Prog.raise ()

/-! ### What objects and arrays share -/

/-- Nothing, or items, between two operators. -/
def bracketed {β : Type} (opening closing : Char) (items : Parse (List β))
    (make : List β → QObject δ) : Parse (Option (QObject δ)) := orRestore do
  let token ← parserContextPopToken
  if tokenIsOperator token opening then do
    let peek ← parserContextPeekToken
    if tokenIsOperator peek closing then do
      let _ ← parserContextPopToken
      pure (make [])
    else do
      let list ← items
      pure (make list)
  else Prog.raise ()

/-- Items with commas between them, and the operator that ends them. -/
def separated {α : Type} (item : α → Parse α) (closing : Char) (err : ParseError) :
    Nat → α → Parse α
  | 0, _ => Prog.halt .fuel
  | fuel + 1, a => do
      let a ← item a
      let token ← parserContextPopToken
      if tokenIsOperator token closing then pure a
      else if tokenIsOperator token ',' then separated item closing err fuel a
      else parseError err

def pairItem (dict : List (List UInt8 × QObject δ)) : Parse (List (List UInt8 × QObject δ)) := do
  match ← parsePair parseValue dict with
  | none => Prog.raise ()
  | some dict => pure dict

/-- An element of an array, put at the end of the list. -/
def elementItem (list : List (QObject δ)) : Parse (List (QObject δ)) := do
  match ← parseValue with
  | none => parseError .expectingValue
  | some obj => pure (list ++ [obj])

variable {parseValue : Parse (Option (QObject δ))} {fuel : Nat} {e : Option ParseError}
  {token peek : JSONToken} {ts : List JSONToken} {c c' : JSONParserContext} {k : Halt}

theorem parsePairs_eq (dict : List (List UInt8 × QObject δ)) : parsePairs parseValue fuel dict =
      separated (pairItem parseValue) '\x7d' .separatorInDict fuel dict := by
  induction fuel generalizing dict with
  | zero => rfl
  | succ fuel ih =>
    funext c
    rw [parsePairs, separated, pairItem]
    dsimp only [bind]
    rcases parsePair parseValue dict c with ⟨(_ | dict) | _ | _, c'⟩ <;> simp only [ih] <;> rfl

theorem parseElements_eq (list : List (QObject δ)) : parseElements parseValue fuel list =
      separated (elementItem parseValue) ']' .separatorInList fuel list := by
  induction fuel generalizing list with
  | zero => rfl
  | succ fuel ih =>
    funext c
    rw [parseElements, separated, elementItem]
    dsimp only [bind]
    rcases parseValue c with ⟨(_ | obj) | _ | _, c'⟩ <;> simp only [ih] <;> rfl

theorem parseObject_eq : parseObject parseValue fuel = bracketed '\x7b' '\x7d'
      (separated (pairItem parseValue) '\x7d' .separatorInDict fuel []) .qdict := by
  rw [← parsePairs_eq]
  rfl

theorem parseArray_eq : parseArray parseValue fuel = bracketed '[' ']'
      (separated (elementItem parseValue) ']' .separatorInList fuel []) .qlist := by
  rw [← parseElements_eq]
  rfl

section Bracketed

variable {β : Type} {opening closing : Char} {items : Parse (List β)} {make : List β → QObject δ}

theorem bracketed_other (h : tokenIsOperator token opening = false) :
    bracketed opening closing items make ⟨e, token :: ts⟩ = (.ok none, ⟨e, token :: ts⟩) := by
  refine @orRestore_of_raised _ _ _ ⟨e, ts⟩ ((bind_of_ok rfl _).trans ?_)
  rw [if_neg (Bool.eq_false_iff.1 h)]
  rfl

section

variable (h : tokenIsOperator token opening = true)
include h

theorem bracketed_empty (hpeek : tokenIsOperator peek closing = true) :
    bracketed opening closing items make ⟨e, token :: peek :: ts⟩ =
    (.ok (some (make [])), ⟨e, ts⟩) := by
  refine orRestore_of_ok ((bind_of_ok rfl _).trans ?_)
  rw [if_pos h]
  refine (bind_of_ok rfl _).trans ?_
  rw [if_pos hpeek]
  rfl

theorem bracketed_of_items (hpeek : tokenIsOperator peek closing = false) {list : List β}
    (hitems : items ⟨e, peek :: ts⟩ = (.ok list, c)) :
    bracketed opening closing items make ⟨e, token :: peek :: ts⟩ =
    (.ok (some (make list)), c) := by
  refine orRestore_of_ok ((bind_of_ok rfl _).trans ?_)
  rw [if_pos h]
  refine (bind_of_ok rfl _).trans ?_
  rw [if_neg (Bool.eq_false_iff.1 hpeek)]
  exact bind_of_ok hitems _

theorem bracketed_halted :
    bracketed opening closing items make ⟨e, [token]⟩ = (.halted .assertion, ⟨e, []⟩) := by
  refine orRestore_of_halted ((bind_of_ok rfl _).trans ?_)
  rw [if_pos h]
  rfl

theorem bracketed_of_halted (hpeek : tokenIsOperator peek closing = false)
    (hitems : items ⟨e, peek :: ts⟩ = (.halted k, c)) :
    bracketed opening closing items make ⟨e, token :: peek :: ts⟩ = (.halted k, c) := by
  refine orRestore_of_halted ((bind_of_ok rfl _).trans ?_)
  rw [if_pos h]
  refine (bind_of_ok rfl _).trans ?_
  rw [if_neg (Bool.eq_false_iff.1 hpeek)]
  exact bind_of_halted hitems _

end

end Bracketed

end Rules

section Parse

variable {δ : Type} (libc : Libc δ)

/-- The next rule is tried when one returned `NULL`. -/
def orElse (rule next : Parse (Option (QObject δ))) : Parse (Option (QObject δ)) := do
  match ← rule with
  | some obj => pure (some obj)
  | none => next

def parseValue : Nat → Parse (Option (QObject δ))
  | 0 => Prog.halt .fuel
  | fuel + 1 =>
    orElse (parseObject (parseValue fuel) fuel)
      (orElse (parseArray (parseValue fuel) fuel) (orElse parseKeyword (parseLiteral libc)))

section Evaluation

variable {rule next : Parse (Option (QObject δ))} {c c' : JSONParserContext}

theorem orElse_of_some {obj : QObject δ} (h : rule c = (.ok (some obj), c')) :
    orElse rule next c = (.ok (some obj), c') := by
  rw [orElse, bind_of_ok h]
  rfl

theorem orElse_of_none (h : rule c = (.ok none, c')) : orElse rule next c = next c' := by
  rw [orElse, bind_of_ok h]

theorem orElse_of_halted {k : Halt} (h : rule c = (.halted k, c')) :
    orElse rule next c = (.halted k, c') := by
  rw [orElse, bind_of_halted h]

end Evaluation

/-- `json_parser_parse_err`: the object, or `NULL`, and the error. -/
def jsonParserParseErr : Emission → Except Halt (Option (QObject δ) × Option ParseError)
  | none => .ok (none, none)
  | some [] => .ok (none, none)
  | some tokens =>
    match parseValue libc (tokens.length + 1) ⟨none, tokens⟩ with
    | (.ok obj, ctxt) => .ok (obj, ctxt.err)
    | (.raised _, ctxt) => .ok (none, ctxt.err)
    | (.halted h, _) => .error h

/-- `json_parser_parse`, which drops the error. -/
def jsonParserParse (emission : Emission) : Except Halt (Option (QObject δ)) := do
  let (obj, _) ← jsonParserParseErr libc emission
  pure obj

end Parse

end QemuAndroid.Json
