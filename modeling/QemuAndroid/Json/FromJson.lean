import QemuAndroid.Json.RoundTrip

/-!
# Reading back what was printed

`qobject_from_json` feeds a text to a front end of its own, flushes it and keeps the last result of
the parser.  For the text of an object there is one result, and it is the object.
-/

namespace QemuAndroid.Json

open Lib List JSONToken

section FromJson

variable {δ : Type} (libc : Libc δ)

/-- `qobject_from_json`: the text ends at its first zero, `parse_json` keeps what the last list of
tokens was parsed to, and there is no object before the first. -/
def qobjectFromJson (string : List UInt8) : Except Halt (Option (QObject δ)) := do
  let (parser, fed) ← jsonMessageParserFeed jsonMessageParserInit (string.takeWhile (· ≠ 0))
  let (_, flushed) ← jsonMessageParserFlush parser
  let objs ← parseAll libc (fed ++ flushed)
  pure objs.getLast?.join

end FromJson

/-! ## Zeros -/

theorem scan_zero (s : Nat × List UInt8) : ∃ tok ∈ (scan s 0).2, tok.1 = jsonError := by
  unfold scan
  by_cases he : entry s.1 0 = inError
  · rw [if_pos he]
    exact ⟨_, mem_singleton_self _, rfl⟩
  · rw [if_neg he, if_pos rfl]
    exact ⟨(jsonError, []), mem_append_right _ (mem_singleton_self _), rfl⟩

variable {text : List UInt8}

/-- A zero is an error in every state. -/
theorem scanAll_zero (h : 0 ∈ text) (s : Nat × List UInt8) :
    ∃ tok ∈ (scanAll s text).2, tok.1 = jsonError := by
  induction text generalizing s with
  | nil => exact absurd h not_mem_nil
  | cons ch text ih =>
    rcases mem_cons.1 h with rfl | h
    · obtain ⟨tok, htok, htype⟩ := scan_zero s
      exact ⟨tok, mem_append_left _ htok, htype⟩
    · obtain ⟨tok, htok, htype⟩ := ih h (scan s ch).1
      exact ⟨tok, mem_append_right _ htok, htype⟩

variable {tokens : List JSONToken}

theorem none_mem_processTokens {token : JSONToken} (h : token ∈ tokens)
    (htype : token.type = jsonError) (p : JSONMessageParser) :
    none ∈ (processTokens p tokens).2 := by
  induction tokens generalizing p with
  | nil => exact absurd h not_mem_nil
  | cons first tokens ih =>
    rw [processTokens_cons]
    rcases mem_cons.1 h with rfl | h
    · rw [jsonMessageProcessToken, if_pos htype]
      exact mem_cons_self
    · exact mem_append_right _ (ih h _)

/-! ## The text of an object -/

def tokensIn (text : List UInt8) : List Tok :=
  (scanAll start text).2 ++ scanEnd (scanAll start text).1

theorem tokensIn_of_prepend {toks : List Tok}
    (h : scanAll start (text ++ []) = prepend toks (scanAll start [])) : tokensIn text = toks := by
  rw [append_nil] at h
  rw [tokensIn, h]
  exact (append_nil _).trans (append_nil _)

theorem tokensIn_word (h : IsWord text) (hlen : text.length ≤ maxTokenSize) :
    tokensIn text = [wordToken text] := by
  obtain ⟨state, hwalk, herr, hskip, -⟩ := h
  have hstart : state ≠ inStart := by
    rintro rfl
    exact herr (by decide)
  rw [tokensIn, hwalk.scanAll [] hlen, scanEnd, if_neg hstart, if_neg herr, ended, if_neg hskip,
    wordToken, hwalk.foldl]
  rfl

section Objects

variable {δ : Type} {libc : Libc δ} {obj : QObject δ}

/-- A plain object within the limits of the streamer. -/
structure QObject.Transmissible (libc : Libc δ) (obj : QObject δ) : Prop where
  plain : obj.Plain
  dicts : obj.depth true ≤ maxNesting
  lists : obj.depth false ≤ maxNesting
  size : tokenLength (tokensOf libc obj) ≤ maxTokenSize

theorem lexable_of_limits (hdicts : obj.depth true ≤ maxNesting)
    (hlists : obj.depth false ≤ maxNesting)
    (hsize : tokenLength (tokensOf libc obj) ≤ maxTokenSize) : Lexable libc obj 0 := by
  refine ⟨hsize, ?_⟩
  unfold maxNesting at hdicts hlists
  unfold maxIndent
  omega

theorem tokensIn_toJson (h : obj.Transmissible libc) (pretty : Bool) :
    tokensIn (toJson libc pretty obj 0) = tokensOf libc obj := by
  have hlex : Lexable libc obj 0 := lexable_of_limits h.dicts h.lists h.size
  have hlen := h.size
  have hcontainer (hc : obj.IsContainer) :
      tokensIn (toJson libc pretty obj 0) = tokensOf libc obj :=
    tokensIn_of_prepend (scanAll_container (fun _ hd => hd.elim) pretty h.plain hc 0 hlex [])
  cases obj with
  | qnull => exact tokensIn_word isWord_null hlen
  | qbool value => exact tokensIn_word (isWord_bool value) hlen
  | qint value => exact tokensIn_word (isWord_int _) hlen
  | qfloat d => cases h.plain with | qfloat hd => exact hd.elim
  | qstring string => exact tokensIn_of_prepend (scanAll_string string hlen [])
  | qlist objs => exact hcontainer trivial
  | qdict entries => exact hcontainer trivial

theorem toJson_ne_zero (h : obj.Transmissible libc) (pretty : Bool) :
    (toJson libc pretty obj 0).takeWhile (· ≠ 0) = toJson libc pretty obj 0 := by
  refine takeWhile_eq_self_iff.2 fun byte hbyte => decide_eq_true ?_
  rintro rfl
  obtain ⟨tok, htok, htype⟩ := scanAll_zero hbyte start
  have hmem : tok ∈ tokensOf libc obj := tokensIn_toJson h pretty ▸ mem_append_left _ htok
  have hnone :=
    none_mem_processTokens (mem_map_of_mem (f := tokenOf) hmem) htype jsonMessageParserInit
  rw [emitted_tokensOf (fun _ hd => hd.elim) h.plain h.dicts h.lists h.size] at hnone
  exact absurd (mem_singleton.1 hnone) nofun

theorem feed_flush (text : List UInt8) :
    ∃ p p' fed flushed, jsonMessageParserFeed jsonMessageParserInit text = .ok (p, fed) ∧
      jsonMessageParserFlush p = .ok (p', flushed) ∧ (fed ++ flushed).map eraseEmission =
        (processTokens jsonMessageParserInit ((tokensIn text).map tokenOf)).2 := by
  obtain ⟨p, fed, hfeed, hp⟩ := feed_scan listening_init.scanning text
  have hs := hp.listening listening_init.scanning
  obtain ⟨p', flushed, hflush, hp'⟩ := @framed_advance p _ _ (jsonLexerFlush_scan hs.1 hs.2)
  refine ⟨p, p', fed, flushed, hfeed, hflush, ?_⟩
  rw [map_append, hp.emissions, hp'.emissions, hp.state, hp.scanning, tokensIn, map_append,
    processTokens_append]
  rfl

theorem map_key_of_erase {toks : List Tok}
    (h : tokens.map erase = toks.map tokenOf) : tokens.map key = toks := by
  have hkey : (tokens.map erase).map key = (toks.map tokenOf).map key :=
    congrArg _ h
  rw [map_map, map_map] at hkey
  exact hkey.trans (map_id toks)

/-- The tokens of an object, wherever they stood, are parsed to the object. -/
theorem jsonParserParse_tokensOf (h : obj.Plain)
    (hkeys : tokens.map key = tokensOf libc obj) :
    ∃ obj', jsonParserParse libc (some tokens) = .ok (some obj') ∧ obj.Same obj' := by
  obtain ⟨obj', hparse, hsame⟩ := @readAs_tokensOf δ libc obj h (tokens.length + 1) none tokens []
    hkeys (Nat.lt_succ_self _)
  rw [append_nil] at hparse
  refine ⟨obj', ?_, hsame⟩
  cases tokens with
  | nil =>
    obtain ⟨tok, toks, htok, -⟩ := @tokensOf_head δ libc obj h
    rw [htok] at hkeys
    exact absurd hkeys nofun
  | cons token tokens =>
    simp only [jsonParserParse, jsonParserParseErr, hparse, bind, Except.bind, pure, Except.pure]

theorem fromJson_toJson (h : obj.Transmissible libc) (pretty : Bool) :
    ∃ obj', qobjectFromJson libc (toJson libc pretty obj 0) = .ok (some obj') ∧ obj.Same obj' := by
  obtain ⟨p, p', fed, flushed, hfeed, hflush, hout⟩ := feed_flush (toJson libc pretty obj 0)
  rw [tokensIn_toJson h, emitted_tokensOf (fun _ hd => hd.elim) h.plain h.dicts h.lists
    h.size] at hout
  obtain ⟨emission, rest, hsplit, hem, hrest⟩ := map_eq_cons_iff.1 hout
  obtain rfl := map_eq_nil_iff.1 hrest
  obtain ⟨tokens, rfl, htokens⟩ := Option.map_eq_some_iff.1 hem
  obtain ⟨obj', hparse, hsame⟩ := jsonParserParse_tokensOf h.plain (map_key_of_erase htokens)
  refine ⟨obj', ?_, hsame⟩
  simp only [qobjectFromJson, toJson_ne_zero h, hfeed, hflush, hsplit, parseAll, hparse, bind,
    Except.bind, pure, Except.pure]
  rfl

/-- **Round trip**: an object without doubles, of strings whose characters are in the basic plane,
and within the limits of the streamer, is read back from its text, and from its pretty text; a
dictionary is read back as the same map. -/
theorem qobjectFromJson_toJson (h : obj.Transmissible libc) :
    (∃ obj', qobjectFromJson libc (qobjectToJson libc obj) = .ok (some obj') ∧ obj.Same obj') ∧
      ∃ obj', qobjectFromJson libc (qobjectToJsonPretty libc obj) = .ok (some obj') ∧
      obj.Same obj' :=
  ⟨fromJson_toJson h false, fromJson_toJson h true⟩

end Objects

/-- A dictionary with a list, whose string is one character of three bytes. -/
def euroDict : QObject Unit :=
  .qdict [(bytes "a", .qlist [.qint (-5), .qnull, .qbool true]),
    (bytes "b", .qstring (utf8 0x20ac))]

theorem transmissible_euroDict : euroDict.Transmissible noDoubles where
  plain := by
    have hchar (cp : Nat) (h : cp ∈ [0x61, 0x62, 0x20ac]) : BmpChar cp := by
      simp only [mem_cons, not_mem_nil, or_false] at h
      constructor <;> omega
    refine .qdict (by decide) ?_ ?_
    · simp only [forall_mem_cons]
      refine ⟨⟨[0x61], ?_, rfl⟩, ⟨[0x62], ?_, rfl⟩, nofun⟩
      · exact fun cp hcp => hchar cp (by simp_all)
      · exact fun cp hcp => hchar cp (by simp_all)
    simp only [forall_mem_cons]
    refine ⟨.qlist ?_, .qstring ⟨[0x20ac], fun cp hcp => hchar cp (by simp_all), rfl⟩, nofun⟩
    simp only [forall_mem_cons]
    exact ⟨.qint _, .qnull, .qbool _, nofun⟩
  dicts := by decide
  lists := by decide
  size := by decide

theorem qobjectFromJson_toJson_euroDict :
    (∃ obj', qobjectFromJson noDoubles (qobjectToJson noDoubles euroDict) = .ok (some obj') ∧
        euroDict.Same obj') ∧
      ∃ obj', qobjectFromJson noDoubles (qobjectToJsonPretty noDoubles euroDict) = .ok (some obj') ∧
        euroDict.Same obj' :=
  qobjectFromJson_toJson transmissible_euroDict

end QemuAndroid.Json
