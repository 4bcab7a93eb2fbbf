import QemuAndroid.Json.Scan
import QemuAndroid.Json.Unfinished
import QemuAndroid.Lib.Machine

/-!
# The JSON front end

The streamer with a parser behind it: each list of tokens that the streamer hands on goes to
`json_parser_parse`.  Bytes come in chunks of any size, and the input may be flushed at any time.

The streamer cuts a message short when it passes a limit on its nesting or its size, and the parser
then runs out of tokens, which it answers with a failed assertion (`frontEnd_aborts`).  Every other
list that the streamer hands on closes as much as it opens, or more, and the parser returns on it.
-/

namespace QemuAndroid.Json

open Lib List JSONMessageParser Or JSONToken

/-! ## The streamer -/

/-- The streamer between two tokens: its counts are those of the tokens that it holds, which are
none or an open message within the limits. -/
structure Collecting (p : JSONMessageParser) : Prop where
  braces : p.braceCount = braces p.tokens
  brackets : p.bracketCount = brackets p.tokens
  quoted : ∀ t ∈ p.tokens, Quoted t
  isOpen : p.tokens = [] ∧ p.tokenSize = 0 ∨ ¬p.Closed
  fits : ¬p.Oversized

/-- A list that the parser can be given. -/
def Parsable : Emission → Prop
  | none => True
  | some ts => (∀ t ∈ ts, Quoted t) ∧ ¬Unfinished ts

theorem Parsable.returns {δ : Type} (libc : Libc δ) {emission : Emission} (h : Parsable emission) :
    ∃ obj, jsonParserParse libc emission = .ok obj := by
  cases emission with
  | none => exact ⟨_, rfl⟩
  | some ts => exact jsonParserParse_returns libc h.1 h.2

section Process

variable {p : JSONMessageParser} {token : JSONToken}

theorem maxNesting_pos : (0 : Int) < maxNesting := by decide

theorem collecting_reset (p : JSONMessageParser) : Collecting p.reset where
  braces := rfl
  brackets := rfl
  quoted := fun _ h => absurd h not_mem_nil
  isOpen := inl ⟨rfl, rfl⟩
  fits := by
    rintro (h | h | h)
    · exact absurd h (Nat.not_lt_zero _)
    · exact absurd h maxNesting_pos.asymm
    · exact absurd h maxNesting_pos.asymm

theorem Collecting.collect_braces (hp : Collecting p) (token : JSONToken) :
    (p.collect token).braceCount = Json.braces (p.collect token).tokens := by
  simp [collect, hp.braces, Json.braces]

theorem Collecting.collect_brackets (hp : Collecting p) (token : JSONToken) :
    (p.collect token).bracketCount = Json.brackets (p.collect token).tokens := by
  simp [collect, hp.brackets, Json.brackets]

theorem Collecting.collect_quoted (hp : Collecting p) (hq : Quoted token) :
    ∀ t ∈ (p.collect token).tokens, Quoted t := by
  intro t ht
  rcases mem_append.1 ht with ht | ht
  · exact hp.quoted t ht
  · rwa [mem_singleton.1 ht]

/-- The token does not make the streamer cut an open message short. -/
def Fits (p : JSONMessageParser) (token : JSONToken) : Prop :=
  token.type = jsonError ∨ (p.collect token).Closed ∨ ¬(p.collect token).Oversized

/-- A closed list is not unfinished. -/
theorem Collecting.parsable (hp : Collecting p) (hq : Quoted token)
    (hc : (p.collect token).Closed) : Parsable (some (p.collect token).tokens) := by
  refine ⟨hp.collect_quoted hq, ?_⟩
  rintro ⟨⟨hb, hk⟩, hpos⟩
  have hne : (p.collect token).tokens ≠ [] := by simp [collect]
  have hpos := hpos hne
  rw [← hp.collect_braces token] at hb hpos
  rw [← hp.collect_brackets token] at hk hpos
  rcases hc with h | h | h
  · exact absurd hb (not_le.2 h)
  · exact absurd hk (not_le.2 h)
  · rw [h.1, h.2] at hpos
    exact absurd hpos (lt_irrefl _)

theorem collecting_processToken (hp : Collecting p) (hq : Quoted token) (hf : Fits p token) :
    Collecting (jsonMessageProcessToken p token).1 ∧
      ∀ emission ∈ (jsonMessageProcessToken p token).2, Parsable emission := by
  unfold jsonMessageProcessToken
  split
  · refine ⟨collecting_reset _, fun emission hm => ?_⟩
    rw [mem_singleton.1 hm]
    trivial
  rename_i he
  split
  · rename_i hc
    have hclosed : (p.collect token).Closed := by
      rcases hf with h | h | h
      · exact absurd h he
      · exact h
      · exact hc.resolve_right h
    refine ⟨collecting_reset _, fun emission hm => ?_⟩
    rw [mem_singleton.1 hm]
    exact hp.parsable hq hclosed
  · rename_i hc
    refine ⟨⟨hp.collect_braces token, hp.collect_brackets token, hp.collect_quoted hq,
      inr fun h => hc (inl h), fun h => hc (inr h)⟩, fun emission hm => ?_⟩
    exact absurd hm not_mem_nil

end Process

/-! ## Room for a character -/

/-- A token can end in the state, so that an operator is seen as one. -/
def EndsToken (state : Nat) : Prop := state = inStart ∨ entry state 0 ≠ inError
deriving Decidable

/-- A message that is open has space for tokens of the given size. -/
def Space (p : JSONMessageParser) (size : Nat) : Prop :=
  p.braceCount = 0 ∧ p.bracketCount = 0 ∨ p.tokenSize + size ≤ maxTokenSize
deriving Decidable

/-- There is room for tokens of the given size and then for an operator: a message that is open
stays within the limits. -/
structure Room (p : JSONMessageParser) (size : Nat) (ch : UInt8) : Prop where
  size : Space p size
  bracket : ch = 0x5b → p.bracketCount < maxNesting
  brace : ch = 0x7b → p.braceCount < maxNesting

section Room

variable {p : JSONMessageParser} {token : JSONToken} {size state : Nat} {ch : UInt8}

theorem Space.mono {n : Nat} (h : Space p size) (hle : n ≤ size) : Space p n :=
  Or.imp_right (le_trans (Nat.add_le_add_left hle _)) h

theorem counts_of_type (h : token.type ≠ jsonOperator) : token.brace = 0 ∧ token.bracket = 0 :=
  ⟨if_neg h, if_neg h⟩

theorem Collecting.fits_of_type (hp : Collecting p) (ht : token.type ≠ jsonOperator)
    (hroom : Space p token.token.length) : Fits p token := by
  obtain ⟨hb, hk⟩ := counts_of_type ht
  rcases hroom with hroom | hroom
  · refine inr (inl (inr (inr ?_)))
    simpa [collect, hb, hk] using hroom
  refine inr (inr ?_)
  rintro (h | h | h)
  · exact absurd h (not_lt.2 hroom)
  · exact hp.fits (inr (inl (by simpa [collect, hk] using h)))
  · exact hp.fits (inr (inr (by simpa [collect, hb] using h)))

/-- After such a token there is room for the rest. -/
theorem Room.process (hroom : Room p (token.token.length + size) ch)
    (ht : token.type ≠ jsonOperator) : Room (jsonMessageProcessToken p token).1 size ch := by
  obtain ⟨hb, hk⟩ := counts_of_type ht
  have hreset : Room (p.collect token).reset size ch :=
    ⟨inl ⟨rfl, rfl⟩, fun _ => maxNesting_pos, fun _ => maxNesting_pos⟩
  unfold jsonMessageProcessToken
  split
  · exact hreset
  split
  · exact hreset
  refine ⟨?_, fun h => ?_, fun h => ?_⟩
  · rcases hroom.size with h | h
    · left
      simpa [collect, hb, hk] using h
    · right
      simpa [collect, add_assoc] using h
  · simpa [collect, hk] using hroom.bracket h
  · simpa [collect, hb] using hroom.brace h

theorem change_le (up down : Char) (hkey : token.key = (jsonOperator, [ch])) :
    token.change up down ≤ 0 ∨ token.change up down = 1 ∧ ch.toNat = up.toNat := by
  obtain ⟨htype, htext⟩ := Prod.mk.injEq .. ▸ hkey
  simp only [change, htype, htext, if_true]
  split
  · exact inr ⟨rfl, ‹_›⟩
  left
  split
  · decide
  · exact le_rfl

theorem Collecting.fits_operator (hp : Collecting p) (hkey : token.key = (jsonOperator, [ch]))
    (hroom : Room p 1 ch) : Fits p token := by
  have hlen : token.token.length = 1 := by rw [(Prod.mk.inj hkey).2]; rfl
  have hsize : p.tokenSize + 1 ≤ maxTokenSize := by
    rcases hroom.size with h | h
    · rcases hp.isOpen with ⟨-, h₀⟩ | ho
      · rw [h₀]
        decide
      · exact absurd (inr (inr h)) ho
    · exact h
  refine inr (inr ?_)
  rintro (h | h | h)
  · change maxTokenSize < p.tokenSize + token.token.length at h
    rw [hlen] at h
    exact absurd hsize (not_le.2 h)
  · have hle : ¬(maxNesting : Int) < p.bracketCount := fun hl => hp.fits (inr (inl hl))
    change (maxNesting : Int) < p.bracketCount + token.bracket at h
    rcases change_le '[' ']' hkey with hb | ⟨hb, hch⟩
    · change token.bracket ≤ 0 at hb
      omega
    · have := hroom.bracket (UInt8.toNat_inj.1 hch)
      change token.bracket = 1 at hb
      omega
  have hle : ¬(maxNesting : Int) < p.braceCount := fun hl => hp.fits (inr (inr hl))
  change (maxNesting : Int) < p.braceCount + token.brace at h
  rcases change_le '\x7b' '\x7d' hkey with hb | ⟨hb, hch⟩
  · change token.brace ≤ 0 at hb
    omega
  · have := hroom.brace (UInt8.toNat_inj.1 hch)
    change token.brace = 1 at hb
    omega

/-- The streamer goes on, and the parser returns on what it hands on. -/
def Safe (r : JSONMessageParser × List Emission) : Prop :=
  Collecting r.1 ∧ ∀ emission ∈ r.2, Parsable emission

theorem Collecting.safe_nil (hp : Collecting p) : Safe (processTokens p []) :=
  ⟨hp, fun _ h => absurd h not_mem_nil⟩

theorem Collecting.safe_cons {tokens : List JSONToken} (hp : Collecting p) (hq : Quoted token)
    (hf : Fits p token) (h : Collecting (jsonMessageProcessToken p token).1 →
      Safe (processTokens (jsonMessageProcessToken p token).1 tokens)) :
    Safe (processTokens p (token :: tokens)) := by
  obtain ⟨hp', hem⟩ := collecting_processToken hp hq hf
  obtain ⟨hp'', hem'⟩ := h hp'
  refine ⟨hp'', fun emission hm => ?_⟩
  rcases mem_append.1 hm with hm | hm
  · exact hem emission hm
  · exact hem' emission hm

theorem quoted_of_type (h : token.type ≠ jsonString) : Quoted token := fun ht => absurd ht h

theorem Collecting.safe_error (hp : Collecting p) (h : token.type = jsonError) :
    Safe (processTokens p [token]) :=
  hp.safe_cons (quoted_of_type (by rw [h]; decide)) (inl h) fun hp' => hp'.safe_nil

theorem scanNew_tokens (ch : UInt8) : (scanNew ch).2 = [] ∨ (scanNew ch).2 = [(jsonError, [])] ∨
      (scanNew ch).2 = [(jsonOperator, [ch])] := by
  unfold scanNew
  split
  · exact inr (inl rfl)
  have hall : ∀ next ∈ entries inStart, next < inStart ∨ next = jsonOperator := by decide
  have hkind := hall _ (entry_mem inStart ch)
  unfold settle
  split
  · exact inl rfl
  rename_i hlong
  have hlen : [ch].length ≤ maxTokenSize := by simp [maxTokenSize]
  rw [hkind.resolve_left fun h => hlong ⟨h, hlen⟩]
  exact inr (inr rfl)

theorem Collecting.safe_new {tokens : List JSONToken} (hp : Collecting p)
    (ht : tokens.map key = (scanNew ch).2) (hroom : Room p 1 ch) :
    Safe (processTokens p tokens) := by
  rcases scanNew_tokens ch with h | h | h
  · rw [h, map_eq_nil_iff] at ht
    subst ht
    exact hp.safe_nil
  · rw [h] at ht
    obtain ⟨token, rfl, hkey⟩ := map_eq_singleton_iff.1 ht
    exact hp.safe_error (Prod.mk.inj hkey).1
  rw [h] at ht
  obtain ⟨token, rfl, hkey⟩ := map_eq_singleton_iff.1 ht
  have htype : token.type = jsonOperator := (Prod.mk.inj hkey).1
  exact hp.safe_cons (quoted_of_type (by rw [htype]; decide)) (hp.fits_operator hkey hroom)
    fun hp' => hp'.safe_nil

/-- Operators start where no token is under way, and no row has one of them, or a string, for the
byte 0. -/
theorem entry_operator (h : IsState state) (hop : entry state ch = jsonOperator) :
    state = inStart := by
  have hall : ∀ state ≤ inStart, ∀ next ∈ entries state, next = jsonOperator → state = inStart := by
    decide
  exact hall state h.2 _ (entry_mem state ch) hop

theorem entry_first (h : IsState state) :
    entry state 0 ≠ jsonOperator ∧ entry state 0 ≠ jsonString := by
  have hall : ∀ state ≤ inStart, entry state 0 ≠ jsonOperator ∧ entry state 0 ≠ jsonString := by
    decide +kernel
  exact hall state h.2

theorem entry_skip (h : IsState state) (hskip : entry state 0 = jsonSkip)
    (he : entry state ch ≠ inError) (hne : entry state ch ≠ entry state 0) :
    entry state ch < inStart := by
  have hall : ∀ state ≤ inStart, entry state 0 = jsonSkip → ∀ next ∈ entries state,
      next ≠ inError → next ≠ jsonSkip → next < inStart := by
    decide +kernel
  exact hall state h.2 hskip _ (entry_mem state ch) he (hskip ▸ hne)

theorem Collecting.safe_scan {s : Nat × List UInt8} {tokens : List JSONToken} (hp : Collecting p)
    (hs : Scanning s) (ht : tokens.map key = (scan s ch).2) (hsize : Space p (s.2.length + 1) ∨
      entry s.1 0 = jsonSkip ∧ Space p 1 ∧ s.2.length < maxTokenSize)
    (hbracket : EndsToken s.1 → ch = 0x5b → p.bracketCount < maxNesting)
    (hbrace : EndsToken s.1 → ch = 0x7b → p.braceCount < maxNesting) :
    Safe (processTokens p tokens) := by
  obtain ⟨state, text⟩ := s
  by_cases he : entry state ch = inError
  · rw [scan_error he] at ht
    obtain ⟨token, rfl, hkey⟩ := map_eq_singleton_iff.1 ht
    exact hp.safe_error (Prod.mk.inj hkey).1
  by_cases heq : entry state ch = entry state 0
  · rw [scan_next he heq] at ht
    have hends : EndsToken state := inr (heq ▸ he)
    obtain ⟨hop, hstr⟩ := entry_first hs.1
    unfold ended at ht
    split at ht
    · refine hp.safe_new ht ⟨?_, hbracket hends, hbrace hends⟩
      exact hsize.elim (·.mono (Nat.le_add_left 1 _)) (·.2.1)
    rename_i hskip
    have hsize := hsize.resolve_right fun h => hskip (heq.trans h.1)
    obtain ⟨token, rest, rfl, hkey, hrest⟩ := map_eq_cons_iff.1 ht
    obtain ⟨htype, htext⟩ := key_eq hkey
    subst htext
    have hneop : token.type ≠ jsonOperator := by rw [htype, heq]; exact hop
    refine hp.safe_cons (quoted_of_type (by rw [htype, heq]; exact hstr))
      (hp.fits_of_type hneop (hsize.mono (Nat.le_succ _))) fun hp' => ?_
    exact hp'.safe_new hrest (Room.process ⟨hsize, hbracket hends, hbrace hends⟩ hneop)
  · rw [scan_settle he heq] at ht
    unfold settle at ht
    split at ht
    · obtain rfl := map_eq_nil_iff.1 ht
      exact hp.safe_nil
    rename_i hlong
    -- white space that is not too long goes on
    have hsize := hsize.resolve_right fun h => hlong ⟨entry_skip hs.1 h.1 he heq, by
      rw [length_append]
      exact h.2.2⟩
    obtain ⟨token, rfl, hkey⟩ := map_eq_singleton_iff.1 ht
    obtain ⟨htype, htext⟩ := key_eq hkey
    have hq : Quoted token := fun _ => by rw [htext]; simp
    refine hp.safe_cons hq ?_ fun hp' => hp'.safe_nil
    by_cases hop : entry state ch = jsonOperator
    · obtain rfl := entry_operator hs.1 hop
      obtain rfl : text = [] := hs.2 rfl
      exact hp.fits_operator (Prod.ext (htype.trans hop) htext)
        ⟨hsize, hbracket (inl rfl), hbrace (inl rfl)⟩
    · refine hp.fits_of_type (by rw [htype]; exact hop) ?_
      rw [htext, length_append]
      exact hsize

end Room

/-! ## Characters and chunks -/

/-- There is room for a character: the open message stays within the limits.  White space is not
part of it, unless it is too long for a token. -/
def HasRoom (p : JSONMessageParser) (ch : UInt8) : Prop :=
  (Space p (p.lexer.token.length + 1) ∨
      entry p.lexer.state 0 = jsonSkip ∧ Space p 1 ∧ p.lexer.token.length < maxTokenSize) ∧
    (EndsToken p.lexer.state → ch = 0x5b → p.bracketCount < maxNesting) ∧
    (EndsToken p.lexer.state → ch = 0x7b → p.braceCount < maxNesting)
deriving Decidable

/-- There is room for each character of a chunk when its turn comes. -/
def WithinLimits : JSONMessageParser → List UInt8 → Prop
  | _, [] => True
  | p, ch :: buffer =>
    HasRoom p ch ∧
      match jsonMessageParserFeedChar p ch with
      | .ok (p', _) => WithinLimits p' buffer
      | .error _ => True

instance decidableWithinLimits : (p : JSONMessageParser) → (buffer : List UInt8) →
    Decidable (WithinLimits p buffer)
  | _, [] => instDecidableTrue
  | p, ch :: buffer =>
    have : ∀ r : Except Halt (JSONMessageParser × List Emission), Decidable (match r with
          | .ok (p', _) => WithinLimits p' buffer
          | .error _ => True) := fun r =>
      match r with
      | .ok (p', _) => decidableWithinLimits p' buffer
      | .error _ => instDecidableTrue
    inferInstanceAs (Decidable (HasRoom p ch ∧ _))

/-- The front end between two calls. -/
structure Listening (p : JSONMessageParser) : Prop where
  scanning : Scanning p.lexer.scanning
  collecting : Collecting p

section Feed

variable {p : JSONMessageParser} {ch : UInt8}

theorem listening_init : Listening jsonMessageParserInit :=
  ⟨scanning_start, collecting_reset jsonMessageParserInit⟩

theorem Collecting.withLexer (hp : Collecting p) (lexer : JSONLexer) :
    Collecting { p with lexer := lexer } := ⟨hp.braces, hp.brackets, hp.quoted, hp.isOpen, hp.fits⟩

theorem processToken_lexer (p : JSONMessageParser) (token : JSONToken) :
    (jsonMessageProcessToken p token).1.lexer = p.lexer := by
  unfold jsonMessageProcessToken
  split
  · rfl
  · split
    · rfl
    · rfl

theorem processTokens_lexer (p : JSONMessageParser) (tokens : List JSONToken) :
    (processTokens p tokens).1.lexer = p.lexer := by
  induction tokens generalizing p with
  | nil => rfl
  | cons token tokens ih => exact (ih _).trans (processToken_lexer p token)

theorem jsonMessageParserFeed_cons {p₁ p₂ : JSONMessageParser} {out₁ out₂ : List Emission}
    {buffer : List UInt8} (h₁ : jsonMessageParserFeedChar p ch = .ok (p₁, out₁))
    (h₂ : jsonMessageParserFeed p₁ buffer = .ok (p₂, out₂)) :
    jsonMessageParserFeed p (ch :: buffer) = .ok (p₂, out₁ ++ out₂) := by
  simp [jsonMessageParserFeed, h₁, h₂, bind, Except.bind, pure, Except.pure]

/-- The lexer has moved on as the scan says, and its tokens are safe. -/
theorem Listening.advance {result : Except Halt (JSONLexer × List JSONToken)}
    {scanned : (Nat × List UInt8) × List Tok} (hr : Reports result scanned)
    (hs : Scanning scanned.1) (h : ∀ lexer tokens, tokens.map key = scanned.2 →
      Safe (processTokens { p with lexer := lexer } tokens)) :
    ∃ p' out, p.advance result = .ok (p', out) ∧ Listening p' ∧
    ∀ emission ∈ out, Parsable emission := by
  obtain ⟨lexer, tokens, rfl, hscan, ht⟩ := hr
  obtain ⟨hc, hem⟩ := h lexer tokens ht
  refine ⟨_, _, rfl, ⟨?_, hc⟩, hem⟩
  rw [processTokens_lexer]
  exact hscan ▸ hs

theorem Listening.feedChar (h : Listening p) (hroom : HasRoom p ch) :
    ∃ p' out, jsonMessageParserFeedChar p ch = .ok (p', out) ∧ Listening p' ∧
      ∀ emission ∈ out, Parsable emission := by
  obtain ⟨hsize, hbracket, hbrace⟩ := hroom
  refine Listening.advance (jsonLexerFeedChar_scan h.scanning.1) (scanning_scan _ _)
    fun lexer tokens ht => ?_
  exact (h.collecting.withLexer lexer).safe_scan h.scanning ht hsize hbracket hbrace

theorem Listening.feed {buffer : List UInt8} (h : Listening p) (hroom : WithinLimits p buffer) :
    ∃ p' out, jsonMessageParserFeed p buffer = .ok (p', out) ∧ Listening p' ∧
      ∀ emission ∈ out, Parsable emission := by
  induction buffer generalizing p with
  | nil => exact ⟨p, [], rfl, h, fun _ hm => absurd hm not_mem_nil⟩
  | cons ch buffer ih =>
    obtain ⟨hch, hrest⟩ := hroom
    obtain ⟨p₁, out₁, hfeed₁, hp₁, hem₁⟩ := h.feedChar hch
    rw [hfeed₁] at hrest
    obtain ⟨p₂, out₂, hfeed₂, hp₂, hem₂⟩ := ih hp₁ hrest
    refine ⟨p₂, out₁ ++ out₂, jsonMessageParserFeed_cons hfeed₁ hfeed₂, hp₂, fun emission hm => ?_⟩
    rcases mem_append.1 hm with hm | hm
    · exact hem₁ emission hm
    · exact hem₂ emission hm

/-- There is room for the token under way. -/
def HasRoomAtEnd (p : JSONMessageParser) : Prop :=
  Space p p.lexer.token.length ∨ entry p.lexer.state 0 = jsonSkip
deriving Decidable

theorem Collecting.safe_end {s : Nat × List UInt8} {tokens : List JSONToken} (hp : Collecting p)
    (hs : Scanning s) (ht : tokens.map key = scanEnd s)
    (hsize : Space p s.2.length ∨ entry s.1 0 = jsonSkip) : Safe (processTokens p tokens) := by
  obtain ⟨hop, hstr⟩ := entry_first hs.1
  unfold scanEnd ended at ht
  split_ifs at ht with h₁ h₂ h₃
  · obtain rfl := map_eq_nil_iff.1 ht
    exact hp.safe_nil
  · obtain ⟨token, rfl, hkey⟩ := map_eq_singleton_iff.1 ht
    exact hp.safe_error (Prod.mk.inj hkey).1
  · obtain rfl := map_eq_nil_iff.1 ht
    exact hp.safe_nil
  obtain ⟨token, rfl, hkey⟩ := map_eq_singleton_iff.1 ht
  obtain ⟨htype, htext⟩ := key_eq hkey
  refine hp.safe_cons (quoted_of_type (by rw [htype]; exact hstr))
    (hp.fits_of_type (by rw [htype]; exact hop) ?_) fun hp' => hp'.safe_nil
  rw [htext]
  exact hsize.resolve_right h₃

theorem Listening.flush (h : Listening p) (hroom : HasRoomAtEnd p) :
    ∃ p' out, jsonMessageParserFlush p = .ok (p', out) ∧ Listening p' ∧
      ∀ emission ∈ out, Parsable emission :=
  Listening.advance (jsonLexerFlush_scan h.scanning.1 h.scanning.2) scanning_start
    fun lexer _ ht => (h.collecting.withLexer lexer).safe_end h.scanning ht hroom

end Feed

end QemuAndroid.Json
