import QemuAndroid.Json.Message
import QemuAndroid.Json.FrontEnd

/-!
# Framing

The streamer does not look at positions and does not act on the lexer, so what it hands on depends
on the tokens of the whole input alone (`feed_scan`).  The tokens of an object within the limits
make one list, whatever came before.
-/

namespace QemuAndroid.Json

open Lib List JSONMessageParser

/-! ## Positions -/

def JSONToken.erase (token : JSONToken) : JSONToken := { token with x := 0, y := 0 }

def tokenOf (tok : Tok) : JSONToken := ⟨tok.1, tok.2, 0, 0⟩

/-- The streamer without its lexer, and its tokens without positions. -/
def JSONMessageParser.erase (p : JSONMessageParser) : JSONMessageParser :=
  { p with lexer := jsonLexerInit, tokens := p.tokens.map JSONToken.erase }

def eraseEmission : Emission → Emission := Option.map (map JSONToken.erase)

variable {toks : List Tok}

theorem map_erase_eq {tokens : List JSONToken} (h : tokens.map JSONToken.key = toks) :
    tokens.map JSONToken.erase = toks.map tokenOf := by
  rw [← h, map_map]
  rfl

section

variable (p : JSONMessageParser)

theorem processToken_erase (token : JSONToken) :
    jsonMessageProcessToken p.erase token.erase = ((jsonMessageProcessToken p token).1.erase,
        (jsonMessageProcessToken p token).2.map eraseEmission) := by
  have hcollect : p.erase.collect token.erase = (p.collect token).erase := by
    simp [collect, erase, JSONToken.erase, JSONToken.brace,
      JSONToken.bracket, JSONToken.change]
  unfold jsonMessageProcessToken
  rw [hcollect]
  by_cases he : token.type = jsonError
  · have he' : token.erase.type = jsonError := he
    rw [if_pos he, if_pos he']
    rfl
  have he' : token.erase.type ≠ jsonError := he
  rw [if_neg he, if_neg he']
  by_cases hc : (p.collect token).Closed ∨ (p.collect token).Oversized
  · have hc' : (p.collect token).erase.Closed ∨ (p.collect token).erase.Oversized := hc
    rw [if_pos hc, if_pos hc']
    rfl
  · have hc' : ¬((p.collect token).erase.Closed ∨ (p.collect token).erase.Oversized) := hc
    rw [if_neg hc, if_neg hc']
    rfl

theorem processTokens_erase (tokens : List JSONToken) :
    processTokens p.erase (tokens.map JSONToken.erase) =
      ((processTokens p tokens).1.erase, (processTokens p tokens).2.map eraseEmission) := by
  induction tokens generalizing p with
  | nil => rfl
  | cons token tokens ih =>
    simp only [map_cons, processTokens, processToken_erase, ih, map_append]

theorem processTokens_append (ts us : List JSONToken) :
    processTokens p (ts ++ us) = ((processTokens (processTokens p ts).1 us).1,
        (processTokens p ts).2 ++ (processTokens (processTokens p ts).1 us).2) := by
  induction ts generalizing p with
  | nil => rfl
  | cons token ts ih => simp only [cons_append, processTokens, ih, append_assoc]

end

/-- What the streamer has done after some input: it is where the scanner is, and it has processed
the tokens that the scanner found. -/
structure Framed (p : JSONMessageParser) (scanned : (Nat × List UInt8) × List Tok)
    (p' : JSONMessageParser) (out : List Emission) : Prop where
  scanning : p'.lexer.scanning = scanned.1
  state : p'.erase = (processTokens p.erase (scanned.2.map tokenOf)).1
  emissions : out.map eraseEmission = (processTokens p.erase (scanned.2.map tokenOf)).2

theorem framed_advance {p : JSONMessageParser} {result : Except Halt (JSONLexer × List JSONToken)}
    {scanned : (Nat × List UInt8) × List Tok} (h : Reports result scanned) :
    ∃ p' out, p.advance result = .ok (p', out) ∧ Framed p scanned p' out := by
  obtain ⟨lexer, tokens, rfl, hs, ht⟩ := h
  have herase := processTokens_erase { p with lexer := lexer } tokens
  rw [map_erase_eq ht] at herase
  refine ⟨_, _, rfl, ?_, ?_, ?_⟩
  · rw [processTokens_lexer]
    exact hs
  · exact (congrArg Prod.fst herase).symm
  · exact (congrArg Prod.snd herase).symm

theorem scanning_scanAll {s : Nat × List UInt8} (h : Scanning s) (text : List UInt8) :
    Scanning (scanAll s text).1 := by
  induction text generalizing s with
  | nil => exact h
  | cons ch text ih => exact ih (scanning_scan s ch)

variable {text : List UInt8}

theorem Framed.listening {p p' : JSONMessageParser} {s : Nat × List UInt8}
    {out : List Emission} (h : Framed p (scanAll s text) p' out) (hs : Scanning s) :
    Scanning p'.lexer.scanning := h.scanning ▸ scanning_scanAll hs text

/-- The streamer after some input depends on the scanner alone. -/
theorem feed_scan {p : JSONMessageParser} (h : Scanning p.lexer.scanning) (buffer : List UInt8) :
    ∃ p' out, jsonMessageParserFeed p buffer = .ok (p', out) ∧
      Framed p (scanAll p.lexer.scanning buffer) p' out := by
  induction buffer generalizing p with
  | nil => exact ⟨p, [], rfl, rfl, rfl, rfl⟩
  | cons ch buffer ih =>
    obtain ⟨p₁, out₁, hfeed₁, hp₁⟩ :=
      framed_advance (p := p) (@jsonLexerFeedChar_scan p.lexer ch h.1)
    have hs₁ : Scanning p₁.lexer.scanning := hp₁.scanning ▸ scanning_scan _ _
    obtain ⟨p₂, out₂, hfeed₂, hp₂⟩ := ih hs₁
    refine ⟨p₂, out₁ ++ out₂, jsonMessageParserFeed_cons hfeed₁ hfeed₂, ?_, ?_, ?_⟩
    · rw [hp₂.scanning, hp₁.scanning]
      rfl
    · rw [hp₂.state, hp₁.state, hp₁.scanning, scanAll, map_append, processTokens_append]
    · rw [map_append, hp₁.emissions, hp₂.emissions, hp₁.state, hp₁.scanning, scanAll,
        map_append, processTokens_append]

/-! ## Messages -/

/-- Tokens are collected that close as much as they open. -/
def JSONMessageParser.push (p : JSONMessageParser) (toks : List Tok) : JSONMessageParser :=
  { p with tokens := p.tokens ++ toks.map tokenOf, tokenSize := p.tokenSize + tokenLength toks }

@[simp]
theorem push_nil (p : JSONMessageParser) : p.push [] = p := by simp [push]

theorem push_push (p : JSONMessageParser) (ts us : List Tok) :
    (p.push ts).push us = p.push (ts ++ us) := by
  simp [push, add_assoc]

/-- A message is open, and there is room for tokens of the given nesting and size. -/
structure RoomFor (p : JSONMessageParser) (dicts lists size : Nat) : Prop where
  braces : 0 ≤ p.braceCount
  brackets : 0 ≤ p.bracketCount
  isOpen : 0 < p.braceCount + p.bracketCount
  dicts : p.braceCount + dicts ≤ maxNesting
  lists : p.bracketCount + lists ≤ maxNesting
  size : p.tokenSize + size ≤ maxTokenSize

section Process

variable {p : JSONMessageParser} {dicts lists size : Nat}

theorem RoomFor.mono {dicts' lists' size' : Nat} (h : RoomFor p dicts lists size)
    (hd : dicts' ≤ dicts) (hl : lists' ≤ lists) (hs : size' ≤ size) :
    RoomFor p dicts' lists' size' :=
  ⟨h.braces, h.brackets, h.isOpen, by have := h.dicts; omega, by have := h.lists; omega,
    by have := h.size; omega⟩

theorem RoomFor.push {rest : Nat} (h : RoomFor p dicts lists (tokenLength toks + rest)) :
    RoomFor (p.push toks) dicts lists rest :=
  ⟨h.braces, h.brackets, h.isOpen, h.dicts, h.lists, by
    have := h.size
    change p.tokenSize + tokenLength toks + rest ≤ _
    omega⟩

/-- A streamer with room for what it has goes on collecting. -/
theorem RoomFor.collects (h : RoomFor p dicts lists size) : ¬(p.Closed ∨ p.Oversized) := by
  have h₁ := h.braces
  have h₂ := h.brackets
  have h₃ := h.isOpen
  have h₄ := h.dicts
  have h₅ := h.lists
  have h₆ := h.size
  unfold JSONMessageParser.Closed JSONMessageParser.Oversized
  omega

theorem processToken_collect {token : JSONToken} (htype : token.type ≠ jsonError)
    (h : RoomFor (p.collect token) dicts lists size) :
    jsonMessageProcessToken p token = (p.collect token, []) :=
  (if_neg htype).trans (if_neg h.collects)

/-- A token that opens and closes nothing. -/
def Neutral (tok : Tok) : Prop :=
  tok.1 ≠ jsonError ∧ (tokenOf tok).brace = 0 ∧ (tokenOf tok).bracket = 0

variable {tok : Tok}

theorem neutral_of_type (herror : tok.1 ≠ jsonError) (hop : tok.1 ≠ jsonOperator) :
    Neutral tok := ⟨herror, counts_of_type hop⟩

theorem collect_neutral (h : Neutral tok) : p.collect (tokenOf tok) = p.push [tok] := by
  simp only [collect, push, h.2.1, h.2.2, add_zero, map_cons,
    map_nil]
  rfl

theorem processTokens_cons (p : JSONMessageParser) (token : JSONToken) (tokens : List JSONToken) :
    processTokens p (token :: tokens) =
      ((processTokens (jsonMessageProcessToken p token).1 tokens).1,
        (jsonMessageProcessToken p token).2 ++
          (processTokens (jsonMessageProcessToken p token).1 tokens).2) := rfl

/-- The tokens are collected whenever there is room for them. -/
def Collected (toks : List Tok) (dicts lists : Nat) : Prop :=
  ∀ p, RoomFor p dicts lists (tokenLength toks) →
    processTokens p (toks.map tokenOf) = (p.push toks, [])

theorem collected_nil : Collected [] dicts lists := fun p _ => by rw [push_nil]; rfl

theorem Collected.append {ts us : List Tok} (ht : Collected ts dicts lists)
    (hu : Collected us dicts lists) : Collected (ts ++ us) dicts lists := by
  intro p h
  rw [tokenLength_append] at h
  rw [map_append, processTokens_append, ht p (h.mono le_rfl le_rfl (Nat.le_add_right _ _)),
    hu _ h.push, push_push]
  rfl

theorem collected_neutral (hn : Neutral tok) : Collected [tok] dicts lists := by
  intro p h
  have hroom : RoomFor (p.collect (tokenOf tok)) dicts lists 0 := by
    rw [collect_neutral hn]
    exact h.push
  rw [map_singleton, processTokens_cons, processToken_collect hn.1 hroom, collect_neutral hn]
  rfl

theorem Collected.mono {dicts' lists' : Nat} (h : Collected toks dicts lists)
    (hd : dicts ≤ dicts') (hl : lists ≤ lists') : Collected toks dicts' lists' :=
  fun p hp => h p (hp.mono hd hl le_rfl)

theorem collected_items {items : List (List Tok)} (h : ∀ toks ∈ items, Collected toks dicts lists)
    (count : Nat) : Collected (itemsTokens items count) dicts lists := by
  induction items generalizing count with
  | nil => exact collected_nil
  | cons toks items ih =>
    have hcomma : Collected (commaToken count) dicts lists := by
      unfold commaToken
      split
      · exact collected_nil
      · exact collected_neutral (by unfold Neutral; decide)
    exact (hcomma.append (h toks mem_cons_self)).append
      (ih (fun t ht => h t (mem_cons_of_mem _ ht)) (count + 1))

theorem opToken_type (ch : UInt8) : (tokenOf (opToken ch)).type ≠ jsonError :=
  (by decide : jsonOperator ≠ jsonError)

/-- The operators that enclose a dictionary, with one brace, or a list, with one bracket. -/
structure Encloses (opening close : UInt8) (braces brackets : Nat) : Prop where
  one : braces + brackets = 1
  openBrace : (tokenOf (opToken opening)).brace = braces
  openBracket : (tokenOf (opToken opening)).bracket = brackets
  closeBrace : (tokenOf (opToken close)).brace = -braces
  closeBracket : (tokenOf (opToken close)).bracket = -brackets

theorem encloses_list : Encloses 0x5b 0x5d 0 1 := ⟨rfl, rfl, rfl, rfl, rfl⟩

theorem encloses_dict : Encloses 0x7b 0x7d 1 0 := ⟨rfl, rfl, rfl, rfl, rfl⟩

section Encloses

variable {opening close : UInt8} {braces brackets : Nat} {toks : List Tok}

section

variable (h : Encloses opening close braces brackets)
include h

theorem Encloses.collect (p : JSONMessageParser) (toks : List Tok) :
    ((p.collect (tokenOf (opToken opening))).push toks).collect (tokenOf (opToken close)) =
      p.push (opToken opening :: (toks ++ [opToken close])) := by
  simp only [JSONMessageParser.collect, JSONMessageParser.push, h.openBrace, h.openBracket,
    h.closeBrace, h.closeBracket, add_neg_cancel_right, map_cons, map_append, map_nil, append_assoc,
    singleton_append, tokenLength_cons, tokenLength_append, tokenLength_nil, Nat.add_assoc]
  rfl

section

variable (hin : Collected toks dicts lists)
include hin

/-- Up to the operator that closes them, the tokens between two operators are collected. -/
theorem Encloses.process (hb : 0 ≤ p.braceCount) (hk : 0 ≤ p.bracketCount)
    (hdicts : p.braceCount + (braces + dicts) ≤ maxNesting)
    (hlists : p.bracketCount + (brackets + lists) ≤ maxNesting)
    (hsize : p.tokenSize + (tokenLength toks + 2) ≤ maxTokenSize) :
    processTokens p ((opToken opening :: (toks ++ [opToken close])).map tokenOf) =
      jsonMessageProcessToken ((p.collect (tokenOf (opToken opening))).push toks)
        (tokenOf (opToken close)) := by
  have hroom : RoomFor (p.collect (tokenOf (opToken opening))) dicts lists (tokenLength toks) := by
    have hone := h.one
    have hB : (p.collect (tokenOf (opToken opening))).braceCount = p.braceCount + braces :=
      congrArg (p.braceCount + ·) h.openBrace
    have hK : (p.collect (tokenOf (opToken opening))).bracketCount = p.bracketCount + brackets :=
      congrArg (p.bracketCount + ·) h.openBracket
    have hS : (p.collect (tokenOf (opToken opening))).tokenSize = p.tokenSize + 1 := rfl
    exact ⟨by omega, by omega, by omega, by omega, by omega, by omega⟩
  have hopen := processToken_collect (opToken_type opening) hroom
  rw [map_cons, processTokens_cons, hopen, map_append, processTokens_append, hin _ hroom]
  simp [processTokens]

theorem Encloses.collected :
    Collected (opToken opening :: (toks ++ [opToken close])) (braces + dicts)
    (brackets + lists) := by
  intro p hp
  have hlen : tokenLength (opToken opening :: (toks ++ [opToken close])) = tokenLength toks +
      2 := by
    simp [opToken]
    omega
  have hsize := hp.size
  rw [hlen] at hsize
  rw [h.process hin hp.braces hp.brackets (by exact_mod_cast hp.dicts) (by exact_mod_cast hp.lists)
    hsize]
  have hroom : RoomFor (p.push (opToken opening :: (toks ++ [opToken close]))) 0 0 0 :=
    (hp.mono (Nat.zero_le _) (Nat.zero_le _) le_rfl).push
  rw [← h.collect p toks] at hroom ⊢
  exact processToken_collect (opToken_type close) hroom

/-- A message that is not enclosed in another one is handed on with its last token. -/
theorem Encloses.emitted (hb : p.braceCount = 0) (hk : p.bracketCount = 0) (ht : p.tokens = [])
    (hs : p.tokenSize = 0) (hdicts : braces + dicts ≤ maxNesting)
    (hlists : brackets + lists ≤ maxNesting) (hsize : tokenLength toks + 2 ≤ maxTokenSize) :
    processTokens p ((opToken opening :: (toks ++ [opToken close])).map tokenOf) =
      (p.reset, [some ((opToken opening :: (toks ++ [opToken close])).map tokenOf)]) := by
  rw [h.process hin (by omega) (by omega) (by omega) (by omega) (by omega)]
  have hclosed : (p.push (opToken opening :: (toks ++ [opToken close]))).Closed :=
    Or.inr (Or.inr ⟨hb, hk⟩)
  rw [← h.collect p toks] at hclosed
  refine (if_neg (opToken_type close)).trans ((if_pos (Or.inl hclosed)).trans ?_)
  rw [h.collect p toks, push, ht]
  rfl

end

end

end Encloses

theorem Walk.isState {s t : Nat} (h : Walk s text t) (hs : IsState s) : IsState t := by
  induction h with
  | nil => exact hs
  | cons _ _ hpos hlt _ ih => exact ih ⟨hpos, Nat.le_of_lt hlt⟩

theorem neutral_wordToken (h : IsWord text) : Neutral (wordToken text) := by
  obtain ⟨state, hwalk, -⟩ := h
  have hstate : IsState state := hwalk.isState isState_start
  have hall : ∀ state ≤ inStart, entry state 0 ≠ jsonError := by decide
  refine neutral_of_type ?_ ?_
  · rw [wordToken, hwalk.foldl]
    exact hall state hstate.2
  · rw [wordToken, hwalk.foldl]
    exact (entry_first hstate).1

theorem neutral_string (text : List UInt8) : Neutral (jsonString, text) :=
  neutral_of_type (by decide : jsonString ≠ jsonError) (by decide : jsonString ≠ jsonOperator)

/-- A token that opens and closes nothing is a message of its own, when none is open. -/
theorem emitted_neutral (h : Neutral tok) :
    processTokens jsonMessageParserInit [tokenOf tok] =
      (jsonMessageParserInit, [some [tokenOf tok]]) := by
  have hclosed : (jsonMessageParserInit.collect (tokenOf tok)).Closed := by
    rw [collect_neutral h]
    exact Or.inr (Or.inr ⟨rfl, rfl⟩)
  have hprocess : jsonMessageProcessToken jsonMessageParserInit (tokenOf tok) =
      (jsonMessageParserInit, [some [tokenOf tok]]) :=
    (if_neg h.1).trans (if_pos (Or.inl hclosed))
  rw [processTokens_cons, hprocess]
  rfl

section Objects

variable {δ : Type} {libc : Libc δ} {pd : δ → Prop} {ps : List UInt8 → Prop}
  {pk : List (List UInt8) → Prop}

/-- The tokens of the elements are collected when those of each element are. -/
theorem collected_list {objs : List (QObject δ)}
    (h : ∀ obj ∈ objs, Collected (tokensOf libc obj) (obj.depth true) (obj.depth false)) :
    Collected (listTokens libc objs 0) (listDepth true objs) (listDepth false objs) := by
  rw [listTokens_eq]
  refine collected_items (fun toks htoks => ?_) 0
  obtain ⟨obj, hobj, rfl⟩ := mem_map.1 htoks
  exact (h obj hobj).mono (depth_le_listDepth true hobj) (depth_le_listDepth false hobj)

theorem collected_dict {entries : List (List UInt8 × QObject δ)} (h : ∀ entry ∈ entries,
      Collected (tokensOf libc entry.2) (entry.2.depth true) (entry.2.depth false)) :
    Collected (dictTokens libc entries 0) (dictDepth true entries) (dictDepth false entries) := by
  rw [dictTokens_eq]
  refine collected_items (fun toks htoks => ?_) 0
  obtain ⟨entry, hentry, rfl⟩ := mem_map.1 htoks
  have hkey : Collected [(jsonString, stringToJson entry.1)] (dictDepth true entries)
      (dictDepth false entries) := collected_neutral (neutral_string _)
  have hcolon : Collected [opToken 0x3a] (dictDepth true entries) (dictDepth false entries) :=
    collected_neutral (by unfold Neutral; decide)
  exact hkey.append (hcolon.append
    ((h entry hentry).mono (depth_le_dictDepth true hentry) (depth_le_dictDepth false hentry)))

section

variable (hpd : ∀ d, pd d → IsWord (floatToJson (libc.format d)))
include hpd

theorem collected_tokensOf {obj : QObject δ} (h : obj.All pd ps pk) :
    Collected (tokensOf libc obj) (obj.depth true) (obj.depth false) := by
  induction h with
  | qnull => exact collected_neutral (neutral_wordToken isWord_null)
  | qbool value => exact collected_neutral (neutral_wordToken (isWord_bool value))
  | qint value => exact collected_neutral (neutral_wordToken (isWord_int _))
  | qfloat hd => exact collected_neutral (neutral_wordToken (hpd _ hd))
  | qstring _ => exact collected_neutral (neutral_string _)
  | qlist _ ih =>
    exact encloses_list.collected (collected_list ih)
  | qdict _ _ _ ih =>
    exact encloses_dict.collected (collected_dict ih)

/-- **One list for an object**: the tokens of an object within the limits of the streamer are handed
on as one list, when no message is open. -/
theorem emitted_tokensOf {obj : QObject δ} (h : obj.All pd ps pk)
    (hdicts : obj.depth true ≤ maxNesting) (hlists : obj.depth false ≤ maxNesting)
    (hsize : tokenLength (tokensOf libc obj) ≤ maxTokenSize) :
    processTokens jsonMessageParserInit ((tokensOf libc obj).map tokenOf) =
      (jsonMessageParserInit, [some ((tokensOf libc obj).map tokenOf)]) := by
  cases h with
  | qnull => exact emitted_neutral (neutral_wordToken isWord_null)
  | qbool value => exact emitted_neutral (neutral_wordToken (isWord_bool value))
  | qint value => exact emitted_neutral (neutral_wordToken (isWord_int _))
  | qfloat hd => exact emitted_neutral (neutral_wordToken (hpd _ hd))
  | qstring _ => exact emitted_neutral (neutral_string _)
  | qlist hall =>
    rw [tokensOf, tokenLength_cons, tokenLength_append] at hsize
    have hin := collected_list fun obj hobj => collected_tokensOf hpd (hall obj hobj)
    refine encloses_list.emitted hin rfl rfl rfl rfl hdicts hlists (Nat.le_trans ?_ hsize)
    simp only [opToken, length_singleton, tokenLength_cons, tokenLength_nil]
    omega
  | qdict _ _ hall =>
    rw [tokensOf, tokenLength_cons, tokenLength_append] at hsize
    have hin := collected_dict fun entry hentry => collected_tokensOf hpd (hall entry hentry)
    refine encloses_dict.emitted hin rfl rfl rfl rfl hdicts hlists (Nat.le_trans ?_ hsize)
    simp only [opToken, length_singleton, tokenLength_cons, tokenLength_nil]
    omega

end

end Objects

end Process

end QemuAndroid.Json
