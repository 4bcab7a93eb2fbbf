import QemuAndroid.Json.Lexer

/-!
# The JSON streamer

`qobject/json-streamer.c` collects the tokens of the lexer and counts braces and brackets.  A list
of tokens is handed on when both counts are back at zero, when one is negative, or when the message
passes a limit; an error token hands on no list at all.  The lexer calls
`json_message_process_token` with each of its tokens, in order, and the callback does not look at
the lexer.
-/

namespace QemuAndroid.Json

open Lib

def maxNesting : Nat := 2 ^ 10

/-- What the streamer hands on: a list of tokens, or `NULL`. -/
abbrev Emission := Option (List JSONToken)

structure JSONMessageParser where
  lexer : JSONLexer
  braceCount : Int
  bracketCount : Int
  tokens : List JSONToken
  tokenSize : Nat

def jsonMessageParserInit : JSONMessageParser := ⟨jsonLexerInit, 0, 0, [], 0⟩

/-- What an operator that begins with `up` or with `down` adds to a count. -/
def JSONToken.change (up down : Char) (token : JSONToken) : Int :=
  if token.type = jsonOperator then
    match token.token with
    | [] => 0
    | ch :: _ => if ch.toNat = up.toNat then 1 else if ch.toNat = down.toNat then -1 else 0
  else 0

def JSONToken.brace (token : JSONToken) : Int := token.change '\x7b' '\x7d'

def JSONToken.bracket (token : JSONToken) : Int := token.change '[' ']'

variable (parser : JSONMessageParser)

/-- The streamer with the token counted and appended. -/
def JSONMessageParser.collect (token : JSONToken) : JSONMessageParser :=
  { parser with
    braceCount := parser.braceCount + token.brace
    bracketCount := parser.bracketCount + token.bracket
    tokens := parser.tokens ++ [token]
    tokenSize := parser.tokenSize + token.token.length }

/-- The streamer after `out_emit`. -/
def JSONMessageParser.reset : JSONMessageParser :=
  { parser with braceCount := 0, bracketCount := 0, tokens := [], tokenSize := 0 }

/-- The message is complete, or a count says that it cannot be. -/
def JSONMessageParser.Closed : Prop :=
  parser.braceCount < 0 ∨ parser.bracketCount < 0 ∨ parser.braceCount = 0 ∧ parser.bracketCount = 0
deriving Decidable

def JSONMessageParser.Oversized : Prop :=
  maxTokenSize < parser.tokenSize ∨ (maxNesting : Int) < parser.bracketCount ∨
    (maxNesting : Int) < parser.braceCount
deriving Decidable

def jsonMessageProcessToken (token : JSONToken) : JSONMessageParser × List Emission :=
  if token.type = jsonError then ((parser.collect token).reset, [none])
  else if (parser.collect token).Closed ∨ (parser.collect token).Oversized then
    ((parser.collect token).reset, [some (parser.collect token).tokens])
  else (parser.collect token, [])

/-- The calls of the callback for the tokens of one character. -/
def processTokens : JSONMessageParser → List JSONToken → JSONMessageParser × List Emission
  | parser, [] => (parser, [])
  | parser, token :: tokens =>
    let (parser, emitted) := jsonMessageProcessToken parser token
    let (parser, more) := processTokens parser tokens
    (parser, emitted ++ more)

def JSONMessageParser.advance (moved : Except Halt (JSONLexer × List JSONToken)) :
    Except Halt (JSONMessageParser × List Emission) := do
  let (lexer, tokens) ← moved
  pure (processTokens { parser with lexer := lexer } tokens)

/-- One round of the loop of `json_lexer_feed`. -/
def jsonMessageParserFeedChar (ch : UInt8) : Except Halt (JSONMessageParser × List Emission) :=
  parser.advance (jsonLexerFeedChar parser.lexer ch false)

def jsonMessageParserFeed :
    JSONMessageParser → List UInt8 → Except Halt (JSONMessageParser × List Emission)
  | parser, [] => .ok (parser, [])
  | parser, ch :: buffer => do
      let (parser, emitted) ← jsonMessageParserFeedChar parser ch
      let (parser, more) ← jsonMessageParserFeed parser buffer
      pure (parser, emitted ++ more)

def jsonMessageParserFlush : Except Halt (JSONMessageParser × List Emission) :=
  parser.advance (jsonLexerFlush parser.lexer)

end QemuAndroid.Json
