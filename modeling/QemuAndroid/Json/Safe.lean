import QemuAndroid.Json.FrontEnd

/-!
# Input that the front end survives

The front end as a machine over calls of `json_message_parser_feed` and `json_message_parser_flush`.
Nothing in it fails on input that keeps each message within the limits of the streamer, and a
message of 1025 opening brackets ends it.
-/

namespace QemuAndroid.Json

open Lib List JSONToken

section Machine

variable {δ : Type} (libc : Libc δ)

/-- The parser is given one list after the other. -/
def parseAll : List Emission → Except Halt (List (Option (QObject δ)))
  | [] => .ok []
  | emission :: emissions => do
      let obj ← jsonParserParse libc emission
      let objs ← parseAll emissions
      pure (obj :: objs)

/-- The streamer and the results of the parser. -/
structure FrontEnd (δ : Type) where
  parser : JSONMessageParser
  results : List (Option (QObject δ))

inductive Input
  | feed (buffer : List UInt8)
  | flush

def Input.apply (parser : JSONMessageParser) :
    Input → Except Halt (JSONMessageParser × List Emission)
  | feed buffer => jsonMessageParserFeed parser buffer
  | flush => jsonMessageParserFlush parser

def FrontEnd.call (fe : FrontEnd δ) (input : Input) : Except Halt (FrontEnd δ) := do
  let (parser, emissions) ← input.apply fe.parser
  let objs ← parseAll libc emissions
  pure ⟨parser, fe.results ++ objs⟩

def FrontEnd.fresh : FrontEnd δ := ⟨jsonMessageParserInit, []⟩

/-- The front end: after a failure there are no more calls. -/
def frontEnd : Machine (Except Halt (FrontEnd δ)) Input where
  init s := s = .ok .fresh
  step s input :=
    match s with
    | .ok fe => some (fe.call libc input)
    | .error _ => none

/-- The call keeps the messages within the limits of the streamer. -/
def InputWithinLimits : Except Halt (FrontEnd δ) → Input → Prop
  | .ok fe, .feed buffer => WithinLimits fe.parser buffer
  | .ok fe, .flush => HasRoomAtEnd fe.parser
  | .error _, _ => True

instance : (s : Except Halt (FrontEnd δ)) → (input : Input) → Decidable (InputWithinLimits s input)
  | .ok fe, .feed buffer => decidableWithinLimits fe.parser buffer
  | .ok fe, .flush => inferInstanceAs (Decidable (HasRoomAtEnd fe.parser))
  | .error _, _ => instDecidableTrue

theorem parseAll_returns {emissions : List Emission}
    (h : ∀ emission ∈ emissions, Parsable emission) :
    ∃ objs, parseAll libc emissions = .ok objs := by
  induction emissions with
  | nil => exact ⟨[], rfl⟩
  | cons emission emissions ih =>
    obtain ⟨obj, hobj⟩ := (h emission mem_cons_self).returns libc
    obtain ⟨objs, hobjs⟩ := ih fun e he => h e (mem_cons_of_mem _ he)
    exact ⟨obj :: objs, by simp [parseAll, hobj, hobjs, bind, Except.bind, pure, Except.pure]⟩

/-- One call within the limits returns, and the front end can go on. -/
theorem FrontEnd.call_returns {fe : FrontEnd δ} {input : Input} (h : Listening fe.parser)
    (hin : InputWithinLimits (.ok fe) input) :
    ∃ fe', fe.call libc input = .ok fe' ∧ Listening fe'.parser := by
  have hparser : ∃ p out, input.apply fe.parser = .ok (p, out) ∧ Listening p ∧
      ∀ emission ∈ out, Parsable emission := by
    cases input with
    | feed buffer => exact h.feed hin
    | flush => exact h.flush hin
  obtain ⟨p, out, hcall, hp, hout⟩ := hparser
  obtain ⟨objs, hobjs⟩ := parseAll_returns libc hout
  refine ⟨⟨p, fe.results ++ objs⟩, ?_, hp⟩
  simp only [FrontEnd.call, hcall, bind, Except.bind, hobjs, pure, Except.pure]

/-- **No input within the limits makes the front end fail**: in every run whose calls keep the
messages within the limits of the streamer, no assertion fails, every index into the table of the
lexer is valid, and the parser returns on every list of tokens. -/
theorem frontEnd_returns {s : Except Halt (FrontEnd δ)}
    (h : (frontEnd libc).Reach InputWithinLimits s) : ∃ fe, s = .ok fe := by
  have hlistening : ∃ fe, s = .ok fe ∧ Listening fe.parser := by
    refine h.invariant ?_ ?_
    · rintro s rfl
      exact ⟨.fresh, rfl, listening_init⟩
    · rintro s input s' - ⟨fe, rfl, hfe⟩ hin hstep
      obtain ⟨fe', hcall, hfe'⟩ := FrontEnd.call_returns libc hfe hin
      exact ⟨fe', (Option.some.inj hstep).symm.trans hcall, hfe'⟩
  obtain ⟨fe, hs, -⟩ := hlistening
  exact ⟨fe, hs⟩

end Machine

/-- A C library without doubles. -/
def noDoubles : Libc Unit := ⟨fun _ => (), fun _ => []⟩

/-- Two chunks with an array that spans them, a stray bracket and a number, and the end of the
input. -/
theorem frontEnd_returns_chunks : ∃ s, (frontEnd noDoubles).run (.ok .fresh)
      [.feed (bytes "[1, tr"), .feed (bytes "ue] ] -2"), .flush] = some s ∧ ∃ fe, s = .ok fe := by
  have hmeets : (frontEnd noDoubles).Meets InputWithinLimits (.ok .fresh)
      [.feed (bytes "[1, tr"), .feed (bytes "ue] ] -2"), .flush] := by decide +kernel
  have hrun : ((frontEnd noDoubles).run (.ok .fresh)
      [.feed (bytes "[1, tr"), .feed (bytes "ue] ] -2"), .flush]).isSome = true := by decide +kernel
  obtain ⟨s, hs⟩ := Option.isSome_iff_exists.1 hrun
  exact ⟨s, hs, frontEnd_returns noDoubles (.of_run (.init rfl) hmeets hs)⟩

/-! ## Too many brackets -/

section Brackets

def IsBracket (token : JSONToken) : Prop := token.key = (jsonOperator, [0x5b])

theorem tokenIsOperator_eq {token : JSONToken} {ch : UInt8} (h : token.key = (jsonOperator, [ch]))
    (op : Char) : tokenIsOperator token op = ([ch] == [UInt8.ofNat op.toNat]) := by
  obtain ⟨htype, htext⟩ := key_eq h
  simp [tokenIsOperator, htype, htext]

variable {δ : Type} {n : Nat} {p : JSONMessageParser}

/-- Brackets that are never closed leave the parser without a token. -/
theorem parseValue_brackets (libc : Libc δ) (fuel : Nat) (e : Option ParseError)
    (ts : List JSONToken) (hts : ∀ t ∈ ts, IsBracket t) (hfuel : ts.length < fuel) :
    ∃ c, parseValue libc fuel ⟨e, ts⟩ = (.halted .assertion, c) := by
  induction fuel generalizing ts with
  | zero => exact absurd hfuel (Nat.not_lt_zero _)
  | succ fuel ih =>
    rw [parseValue, parseObject_eq, parseArray_eq]
    cases ts with
    | nil => exact ⟨_, orElse_of_halted rfl⟩
    | cons token rest =>
      have htoken := hts token mem_cons_self
      have hrest : ∀ t ∈ rest, IsBracket t := fun t ht => hts t (mem_cons_of_mem _ ht)
      have hbrace : tokenIsOperator token '\x7b' = false := by
        rw [tokenIsOperator_eq htoken]; decide
      have hopen : tokenIsOperator token '[' = true := by rw [tokenIsOperator_eq htoken]; decide
      rw [orElse_of_none (bracketed_other hbrace)]
      cases rest with
      | nil => exact ⟨_, orElse_of_halted (bracketed_halted hopen)⟩
      | cons peek rest =>
        have hpeek : tokenIsOperator peek ']' = false := by
          rw [tokenIsOperator_eq (hrest peek mem_cons_self)]
          decide
        have hlt : (peek :: rest).length < fuel := Nat.lt_of_succ_lt_succ hfuel
        obtain ⟨c, hc⟩ := ih (peek :: rest) hrest hlt
        obtain ⟨fuel, rfl⟩ : ∃ k, fuel = k + 1 :=
          Nat.exists_eq_succ_of_ne_zero (ne_of_gt (Nat.zero_lt_of_lt hlt))
        exact ⟨c, orElse_of_halted
          (bracketed_of_halted hopen hpeek (Prog.bind_of_halted (Prog.bind_of_halted hc _) _))⟩

/-- The streamer has collected the given number of opening brackets, and nothing else. -/
structure Brackets (n : Nat) (p : JSONMessageParser) : Prop where
  lexer : p.lexer.scanning = (inStart, [])
  tokens : ∀ t ∈ p.tokens, IsBracket t
  length : p.tokens.length = n
  braceCount : p.braceCount = 0
  bracketCount : p.bracketCount = n
  tokenSize : p.tokenSize = n

theorem Brackets.collect {token : JSONToken} (h : Brackets n p) (ht : IsBracket token) :
    Brackets (n + 1) (p.collect token) := by
  obtain ⟨htype, htext⟩ := key_eq ht
  refine ⟨h.lexer, fun t hm => ?_, ?_, ?_, ?_, ?_⟩
  · rcases mem_append.1 hm with hm | hm
    · exact h.tokens t hm
    · rwa [mem_singleton.1 hm]
  · simp [JSONMessageParser.collect, h.length]
  · simp [JSONMessageParser.collect, h.braceCount, brace, change, htype, htext]
  · simp [JSONMessageParser.collect, h.bracketCount, bracket, change, htype, htext]
  · simp [JSONMessageParser.collect, h.tokenSize, htext]

theorem Brackets.feedChar (h : Brackets n p) : ∃ p' token, Brackets n p' ∧ IsBracket token ∧
      jsonMessageParserFeedChar p 0x5b = .ok (jsonMessageProcessToken p' token) := by
  have hstate : p.lexer.state = inStart := (Prod.mk.inj h.lexer).1
  obtain ⟨lexer, tokens, hfeed, hscan, ht⟩ :=
    @jsonLexerFeedChar_scan p.lexer 0x5b (hstate ▸ isState_start)
  have hbracket : scan (inStart, []) 0x5b = ((inStart, []), [(jsonOperator, [0x5b])]) := by decide
  rw [h.lexer] at hscan ht
  obtain ⟨token, rfl, hkey⟩ := map_eq_singleton_iff.1 ht
  refine ⟨{ p with lexer := lexer }, token,
    ⟨hscan, h.tokens, h.length, h.braceCount, h.bracketCount, h.tokenSize⟩, hkey, ?_⟩
  simp [jsonMessageParserFeedChar, JSONMessageParser.advance, hfeed, bind, Except.bind, pure,
    Except.pure, processTokens]

/-- The streamer cuts a message off behind the bracket that passes the limit on the nesting. -/
theorem Brackets.cut (m : Nat) (h : Brackets n p) (hn : n + m = maxNesting) :
    ∃ p' ts, jsonMessageParserFeed p (List.replicate (m + 1) 0x5b) = .ok (p', [some ts]) ∧
      (∀ t ∈ ts, IsBracket t) ∧ ts ≠ [] := by
  induction m generalizing n p with
  | zero =>
    obtain ⟨p₁, token, hp₁, ht, hfeed⟩ := h.feedChar
    have hc := hp₁.collect ht
    have hover : (p₁.collect token).Oversized := by
      right
      left
      rw [hc.bracketCount]
      exact_mod_cast (hn ▸ Nat.lt_succ_self n : maxNesting < n + 1)
    refine ⟨(p₁.collect token).reset, (p₁.collect token).tokens, ?_, hc.tokens, ?_⟩
    · have htype : token.type ≠ jsonError := by rw [(Prod.mk.inj ht).1]; decide
      rw [jsonMessageProcessToken, if_neg htype, if_pos (Or.inr hover)] at hfeed
      exact jsonMessageParserFeed_cons hfeed rfl
    · simp [JSONMessageParser.collect]
  | succ m ih =>
    obtain ⟨p₁, token, hp₁, ht, hfeed⟩ := h.feedChar
    have hc := hp₁.collect ht
    obtain ⟨p₂, ts, hrest, hts⟩ := ih hc (by omega)
    have hopen : ¬((p₁.collect token).Closed ∨ (p₁.collect token).Oversized) := by
      have hle : n + 1 ≤ maxNesting := by omega
      unfold JSONMessageParser.Closed JSONMessageParser.Oversized
      rw [hc.braceCount, hc.bracketCount, hc.tokenSize]
      unfold maxTokenSize
      unfold maxNesting at hle ⊢
      omega
    have htype : token.type ≠ jsonError := by rw [(Prod.mk.inj ht).1]; decide
    rw [jsonMessageProcessToken, if_neg htype, if_neg hopen] at hfeed
    exact ⟨p₂, ts, jsonMessageParserFeed_cons hfeed hrest, hts⟩

theorem jsonParserParse_brackets (libc : Libc δ) {ts : List JSONToken} (hts : ∀ t ∈ ts, IsBracket t)
    (hne : ts ≠ []) : jsonParserParse libc (some ts) = .error .assertion := by
  obtain ⟨c, hc⟩ := parseValue_brackets libc (ts.length + 1) none ts hts (Nat.lt_succ_self _)
  cases ts with
  | nil => exact absurd rfl hne
  | cons token ts =>
    rw [jsonParserParse, jsonParserParseErr, hc]
    · rfl
    · exact fun h => absurd h (cons_ne_nil _ _)

theorem FrontEnd.call_of_error {libc : Libc δ} {fe : FrontEnd δ} {buffer : List UInt8}
    {emission : Emission} {k : Halt}
    (hfeed : jsonMessageParserFeed fe.parser buffer = .ok (p, [emission]))
    (hparse : jsonParserParse libc emission = .error k) :
    fe.call libc (.feed buffer) = .error k := by
  simp only [FrontEnd.call, Input.apply, hfeed, bind, Except.bind, parseAll, hparse]

end Brackets

/-- **One bracket too many ends the program**: the streamer hands on the list of the 1025 opening
brackets, which is not finished, and the parser reads beyond its end. -/
theorem frontEnd_aborts : (frontEnd noDoubles).run (.ok .fresh)
    [.feed (List.replicate (maxNesting + 1) 0x5b)] = some (.error .assertion) := by
  have hfresh : Brackets 0 (FrontEnd.fresh : FrontEnd Unit).parser :=
    ⟨rfl, fun _ h => absurd h not_mem_nil, rfl, rfl, rfl, rfl⟩
  obtain ⟨p, ts, hfeed, hts, hne⟩ := hfresh.cut maxNesting (zero_add _)
  have hcall := FrontEnd.call_of_error hfeed (jsonParserParse_brackets noDoubles hts hne)
  exact congrArg (fun s => (some s).bind some) hcall

end QemuAndroid.Json
