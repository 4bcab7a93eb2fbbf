import QemuAndroid.Json.Lexer

/-!
# What the lexer does with a character

The entries of the table are of four kinds, which decide what a character does to the token under
way: it is an error, it is part of the token, it ends the token, or it comes after the end of the
token and starts the next one.  `scan` says so without a loop and without the positions, and
`jsonLexerFeedChar_scan` and `jsonLexerFlush_scan` connect it to the lexer.
-/

namespace QemuAndroid.Json

open Lib List JSONLexer

/-! ## The entries of the table -/

/-- `json_lexer[state][ch]`, for a state of the lexer. -/
def entry (state : Nat) (ch : UInt8) : Nat := (jsonLexer state ch).getD inError

def entries (state : Nat) : List Nat := inError :: ((jsonLexerRow state).getD []).map Init.next

/-- A row has no entries but those of its initialisers. -/
theorem entry_mem (state : Nat) (ch : UInt8) : entry state ch ∈ entries state := by
  have hfold (row : List Init) (acc : Nat) :
      row.foldl (fun entry i => if i.lo ≤ ch.toNat ∧ ch.toNat ≤ i.hi then i.next else entry) acc ∈
        acc :: row.map Init.next := by
    induction row generalizing acc with
    | nil => exact mem_cons_self
    | cons i row ih =>
      rw [foldl_cons]
      split
      · exact mem_cons_of_mem _ (ih i.next)
      rcases mem_cons.1 (ih acc) with h | h
      · rw [h]
        exact mem_cons_self
      · exact mem_cons_of_mem _ (mem_cons_of_mem _ h)
  unfold entry jsonLexer entries
  cases jsonLexerRow state with
  | none => exact mem_cons_self
  | some row => exact hfold row inError

/-- A state in which the lexer waits for a character. -/
def IsState (state : Nat) : Prop := inError < state ∧ state ≤ inStart

/-- The kinds of entries, `first` being the entry for the byte 0. -/
def EntryKind (first next : Nat) : Prop :=
  next = inError ∨ (inError < next ∧ next < inStart ∧ next ≠ first) ∨
    (isReported next = true ∧ inStart < next ∧ next ≠ first) ∨
    ((isReported next = true ∨ next = jsonSkip) ∧ inStart < next ∧ next = first)
deriving Decidable

variable {state : Nat} {token : List UInt8} {ch : UInt8}

theorem entryKind (h : IsState state) (ch : UInt8) :
    EntryKind (entry state 0) (entry state ch) := by
  have hall : ∀ state ≤ inStart, ∀ next ∈ entries state, EntryKind (entry state 0) next := by
    decide +kernel
  exact hall state h.2 _ (entry_mem state ch)

theorem isReported_of_lt : ∀ state < inStart, isReported state = false := by decide

theorem lookupEntry_eq (h : IsState state) (ch : UInt8) :
    lookupEntry state ch = .ok (entry state ch) := by
  have hrow : ∀ state ≤ inStart, (jsonLexerRow state).isSome = true := by decide
  obtain ⟨row, hrow⟩ := Option.isSome_iff_exists.1 (hrow state h.2)
  simp [lookupEntry, entry, jsonLexer, hrow]

theorem entry_start_zero : entry inStart 0 = inError := by decide

theorem isState_start : IsState inStart := by unfold IsState; decide

/-! ## Characters -/

/-- A token without its position. -/
abbrev Tok := Nat × List UInt8

def JSONToken.key (token : JSONToken) : Tok := (token.type, token.token)

theorem JSONToken.key_eq {token : JSONToken} {type : Nat} {text : List UInt8}
    (h : token.key = (type, text)) : token.type = type ∧ token.token = text := Prod.mk.inj h

def JSONLexer.scanning (lexer : JSONLexer) : Nat × List UInt8 := (lexer.state, lexer.token)

/-- The character was part of the token, which is then at the given entry. -/
def settle (next : Nat) (token : List UInt8) : (Nat × List UInt8) × List Tok :=
  if next < inStart ∧ token.length ≤ maxTokenSize then ((next, token), [])
  else ((inStart, []), [(next, token)])

/-- A character that starts a token. -/
def scanNew (ch : UInt8) : (Nat × List UInt8) × List Tok :=
  if entry inStart ch = inError then ((inStart, []), [(jsonError, [])])
  else settle (entry inStart ch) [ch]

def ended (next : Nat) (token : List UInt8) : List Tok :=
  if next = jsonSkip then [] else [(next, token)]

/-- A character, in a state and with a token under way. -/
def scan (s : Nat × List UInt8) (ch : UInt8) : (Nat × List UInt8) × List Tok :=
  if entry s.1 ch = inError then
    ((inStart, []), [(jsonError, if entry s.1 0 = inError then s.2 else s.2 ++ [ch])])
  else if entry s.1 ch = entry s.1 0 then
    ((scanNew ch).1, ended (entry s.1 ch) s.2 ++ (scanNew ch).2)
  else settle (entry s.1 ch) (s.2 ++ [ch])

theorem scan_error (h : entry state ch = inError) : scan (state, token) ch = ((inStart, []),
      [(jsonError, if entry state 0 = inError then token else token ++ [ch])]) :=
  if_pos h

theorem scan_next (h : entry state ch ≠ inError) (heq : entry state ch = entry state 0) :
    scan (state, token) ch = ((scanNew ch).1, ended (entry state ch) token ++ (scanNew ch).2) :=
  (if_neg h).trans (if_pos heq)

theorem scan_settle (h : entry state ch ≠ inError) (hne : entry state ch ≠ entry state 0) :
    scan (state, token) ch = settle (entry state ch) (token ++ [ch]) :=
  (if_neg h).trans (if_neg hne)

def scanEnd (s : Nat × List UInt8) : List Tok :=
  if s.1 = inStart then []
  else if entry s.1 0 = inError then [(jsonError, s.2)]
  else ended (entry s.1 0) s.2

section Turn

variable {lexer : JSONLexer} {ch : UInt8}

/-- The lexer after a turn that ends a token. -/
def JSONLexer.restart (lexer : JSONLexer) : JSONLexer :=
  { lexer with state := inStart, token := [] }

/-- The lexer reports what a scan of the character says. -/
def Reports (result : Except Halt (JSONLexer × List JSONToken))
    (scanned : (Nat × List UInt8) × List Tok) : Prop :=
  ∃ lexer tokens, result = .ok (lexer, tokens) ∧ lexer.scanning = scanned.1 ∧
    tokens.map JSONToken.key = scanned.2

theorem limitToken_restart : limitToken lexer.restart = (lexer.restart, []) :=
  if_neg (Nat.not_lt_zero _)

/-- The check after the loop, for a token that goes on. -/
theorem limitToken_settle (h : lexer.state < inStart) :
    (limitToken lexer).1.scanning = (settle lexer.state lexer.token).1 ∧
      ([] ++ (limitToken lexer).2).map JSONToken.key = (settle lexer.state lexer.token).2 := by
  unfold limitToken settle
  by_cases hlen : lexer.token.length ≤ maxTokenSize
  · rw [if_neg (Nat.not_lt.2 hlen), if_pos ⟨h, hlen⟩]
    exact ⟨rfl, rfl⟩
  · rw [if_pos (Nat.lt_of_not_le hlen), if_neg fun hc => hlen hc.2]
    exact ⟨rfl, rfl⟩

variable (h : IsState lexer.state)

include h

theorem lexerTurn_error (he : entry lexer.state ch = inError) :
    lexerTurn lexer ch = .ok (lexer.restart,
      [⟨jsonError, if entry lexer.state 0 = inError then lexer.token else lexer.token ++ [ch],
        lexer.x, lexer.y⟩], .returned) := by
  simp only [lexerTurn, lookupEntry_eq h, he, bind, Except.bind, pure, Except.pure]
  by_cases hf : entry lexer.state 0 = inError
  · simp [hf, isReported, restart]
  · simp [hf, isReported, restart]

theorem lexerTurn_state (hpos : inError < entry lexer.state ch)
    (hlt : entry lexer.state ch < inStart) (hne : entry lexer.state ch ≠ entry lexer.state 0) :
    lexerTurn lexer ch = .ok ({ lexer with
      state := entry lexer.state ch, token := lexer.token ++ [ch] }, [], .done true) := by
  have hrep : isReported (entry lexer.state ch) = false := isReported_of_lt _ hlt
  have hskip : (entry lexer.state ch == jsonSkip) = false :=
    beq_false_of_ne (ne_of_lt (Nat.lt_trans hlt (by decide)))
  have herr : (entry lexer.state ch == inError) = false := beq_false_of_ne (ne_of_gt hpos)
  simp [lexerTurn, lookupEntry_eq h, bind, Except.bind, pure, Except.pure, hrep, hskip, herr,
    hne.symm]

/-- The turn reports the token and starts the next one. -/
theorem lexerTurn_end
    (hend : isReported (entry lexer.state ch) = true ∨ entry lexer.state ch = jsonSkip) :
    lexerTurn lexer ch = .ok (lexer.restart, (ended (entry lexer.state ch)
        (if entry lexer.state 0 = entry lexer.state ch then lexer.token
        else lexer.token ++ [ch])).map (fun tok => ⟨tok.1, tok.2, lexer.x, lexer.y⟩),
      .done (entry lexer.state 0 != entry lexer.state ch)) := by
  simp only [lexerTurn, lookupEntry_eq h, bind, Except.bind, pure, Except.pure]
  rcases hend with hend | hend
  · have hne : entry lexer.state ch ≠ jsonSkip := by
      intro hs
      rw [hs] at hend
      exact absurd hend (by decide)
    simp only [hend, if_true, ended, hne, if_false, map_cons, map_nil]
    by_cases hf : entry lexer.state 0 = entry lexer.state ch
    · simp [hf, restart]
    · simp [hf, restart]
  · have hrep : isReported jsonSkip = false := by decide
    simp [hend, hrep, ended, restart]

theorem lexerLoop_error (flush : Bool) (fuel : Nat) (he : entry lexer.state ch = inError) :
    Reports (lexerLoop ch flush (fuel + 1) lexer) ((inStart, []),
      [(jsonError, if entry lexer.state 0 = inError then lexer.token else lexer.token ++
      [ch])]) := by
  rw [lexerLoop, lexerTurn_error h he]
  exact ⟨lexer.restart, [⟨jsonError, _, lexer.x, lexer.y⟩], rfl, rfl, rfl⟩

theorem lexerLoop_settle (flush : Bool) (fuel : Nat) (he : entry lexer.state ch ≠ inError)
    (hne : entry lexer.state ch ≠ entry lexer.state 0) :
    Reports (lexerLoop ch flush (fuel + 1) lexer)
      (settle (entry lexer.state ch) (lexer.token ++ [ch])) := by
  obtain herr | ⟨hpos, hlt, -⟩ | ⟨hrep, hgt, -⟩ | ⟨-, -, heq⟩ := entryKind h ch
  · exact absurd herr he
  · rw [lexerLoop, lexerTurn_state h hpos hlt hne]
    exact ⟨_, _, rfl, limitToken_settle hlt⟩
  · rw [lexerLoop, lexerTurn_end h (Or.inl hrep)]
    have hskip : entry lexer.state ch ≠ jsonSkip := by
      intro hs
      rw [hs] at hrep
      exact absurd hrep (by decide)
    have hsettle : settle (entry lexer.state ch) (lexer.token ++ [ch]) =
        ((inStart, []), [(entry lexer.state ch, lexer.token ++ [ch])]) :=
      if_neg fun hc => Nat.lt_asymm hc.1 hgt
    rw [hsettle, ended, if_neg hskip]
    refine ⟨lexer.restart, [⟨entry lexer.state ch, lexer.token ++ [ch], lexer.x, lexer.y⟩], ?_,
      rfl, rfl⟩
    simp [bind, Except.bind, pure, Except.pure, limitToken_restart, Ne.symm hne]
  · exact absurd heq hne

/-- A character after the end of a token starts the next one in a second turn. -/
theorem lexerLoop_scan :
    Reports (lexerLoop ch false 2 lexer) (scan lexer.scanning ch) := by
  by_cases he : entry lexer.state ch = inError
  · rw [scanning, scan_error he]
    exact lexerLoop_error h false 1 he
  by_cases heq : entry lexer.state ch = entry lexer.state 0
  · rw [scanning, scan_next he heq]
    obtain ⟨lexer', tokens, hrun, hs, ht⟩ :
        Reports (lexerLoop ch false 1 lexer.restart) (scanNew ch) := by
      unfold scanNew
      by_cases hs : entry inStart ch = inError
      · rw [if_pos hs]
        exact (if_pos entry_start_zero :
          (if entry inStart 0 = inError then [] else [] ++ [ch]) = []) ▸ @lexerLoop_error
          lexer.restart ch isState_start false 0 hs
      · rw [if_neg hs]
        exact lexerLoop_settle isState_start false 0 hs (entry_start_zero ▸ hs)
    obtain herr | ⟨-, -, hne⟩ | ⟨-, -, hne⟩ | ⟨hend, -, -⟩ := entryKind h ch
    · exact absurd herr he
    · exact absurd heq hne
    · exact absurd heq hne
    rw [lexerLoop, lexerTurn_end h hend]
    have hfalse : (entry lexer.state 0 != entry lexer.state ch) = false := by
      simpa using heq.symm
    simp only [bind, Except.bind, pure, Except.pure, hfalse, hrun]
    refine ⟨lexer', _, rfl, hs, ?_⟩
    rw [if_pos heq.symm, map_append, ht, map_map]
    exact congrArg (· ++ (scanNew ch).2) (map_id _)
  · rw [scanning, scan_settle he heq]
    exact lexerLoop_settle h false 1 he heq

/-- `json_lexer_feed_char` does what a scan of the character says. -/
theorem jsonLexerFeedChar_scan :
    Reports (jsonLexerFeedChar lexer ch false) (scan lexer.scanning ch) := by
  unfold jsonLexerFeedChar
  split
  · exact @lexerLoop_scan { lexer with x := 0, y := lexer.y + 1 } ch h
  · exact @lexerLoop_scan { lexer with x := lexer.x + 1 } ch h

/-- `json_lexer_flush` ends the token under way. -/
theorem jsonLexerFlush_scan (hstart : lexer.state = inStart → lexer.token = []) :
    Reports (jsonLexerFlush lexer) ((inStart, []), scanEnd lexer.scanning) := by
  unfold jsonLexerFlush scanEnd scanning
  by_cases hs : lexer.state = inStart
  · rw [if_pos hs, if_pos hs]
    exact ⟨lexer, [], rfl, by rw [scanning, hs, hstart hs], rfl⟩
  rw [if_neg hs, if_neg hs]
  have hch : jsonLexerFeedChar lexer 0 true = lexerLoop 0 true 2 { lexer with x := lexer.x + 1 } :=
    congrArg (lexerLoop 0 true 2) (if_neg (by decide))
  rw [hch]
  by_cases he : entry lexer.state 0 = inError
  · rw [if_pos he]
    have hr := @lexerLoop_error { lexer with x := lexer.x + 1 } 0 h true 1 he
    rwa [if_pos he] at hr
  rw [if_neg he]
  obtain herr | ⟨-, -, hne⟩ | ⟨-, -, hne⟩ | ⟨hend, -, -⟩ := entryKind h 0
  · exact absurd herr he
  · exact absurd rfl hne
  · exact absurd rfl hne
  rw [lexerLoop, @lexerTurn_end { lexer with x := lexer.x + 1 } 0 h hend]
  have hlimit := @limitToken_restart { lexer with x := lexer.x + 1 }
  simp only [bind, Except.bind, pure, Except.pure, Bool.not_true, Bool.and_false,
    Bool.false_eq_true, if_false, hlimit, append_nil, if_true]
  refine ⟨_, _, rfl, rfl, ?_⟩
  rw [map_map]
  exact map_id _

end Turn

/-! ## States -/

/-- The states of a lexer that has seen some input. -/
def Scanning (s : Nat × List UInt8) : Prop := IsState s.1 ∧ (s.1 = inStart → s.2 = [])

theorem scanning_start : Scanning (inStart, []) := ⟨isState_start, fun _ => rfl⟩

theorem scanning_settle {next : Nat} (h : next ≠ inError) (token : List UInt8) :
    Scanning (settle next token).1 := by
  unfold settle
  split
  · rename_i hc
    exact ⟨⟨Nat.pos_of_ne_zero h, Nat.le_of_lt hc.1⟩, fun hs => absurd hs (Nat.ne_of_lt hc.1)⟩
  · exact scanning_start

theorem scanning_scanNew (ch : UInt8) : Scanning (scanNew ch).1 := by
  unfold scanNew
  split
  · exact scanning_start
  · rename_i h
    exact scanning_settle h _

theorem scanning_scan (s : Nat × List UInt8) (ch : UInt8) : Scanning (scan s ch).1 := by
  by_cases he : entry s.1 ch = inError
  · rw [scan_error he]
    exact scanning_start
  by_cases heq : entry s.1 ch = entry s.1 0
  · rw [scan_next he heq]
    exact scanning_scanNew ch
  · rw [scan_settle he heq]
    exact scanning_settle he _

end QemuAndroid.Json
