import QemuAndroid.Json.Scan
import QemuAndroid.Json.Print

/-!
# Lexing printed text

`scanAll` scans a text.  A `Walk` is a path through the table along which the lexer only collects
the characters of a token; the texts of `to_json` are such paths, ended by a quote or by the
character behind the token.
-/

namespace QemuAndroid.Json

/-! ## Texts -/

/-- The state of the lexer between two tokens. -/
abbrev start : Nat × List UInt8 := (inStart, [])

def scanAll : Nat × List UInt8 → List UInt8 → (Nat × List UInt8) × List Tok
  | s, [] => (s, [])
  | s, ch :: text =>
    ((scanAll (scan s ch).1 text).1, (scan s ch).2 ++ (scanAll (scan s ch).1 text).2)

/-- Some tokens come first. -/
def prepend (toks : List Tok) (r : (Nat × List UInt8) × List Tok) : (Nat × List UInt8) × List Tok :=
  (r.1, toks ++ r.2)

@[simp]
theorem prepend_nil (r : (Nat × List UInt8) × List Tok) : prepend [] r = r := rfl

@[simp]
theorem prepend_prepend (ts us : List Tok) (r : (Nat × List UInt8) × List Tok) :
    prepend ts (prepend us r) = prepend (ts ++ us) r :=
  Prod.ext rfl (List.append_assoc ..).symm

theorem scanAll_cons (s : Nat × List UInt8) (ch : UInt8) (text : List UInt8) :
    scanAll s (ch :: text) = prepend (scan s ch).2 (scanAll (scan s ch).1 text) := rfl

theorem scanAll_append (s : Nat × List UInt8) (text more : List UInt8) :
    scanAll s (text ++ more) = prepend (scanAll s text).2 (scanAll (scanAll s text).1 more) := by
  induction text generalizing s with
  | nil => rfl
  | cons ch text ih =>
    rw [List.cons_append, scanAll_cons, ih, prepend_prepend]
    rfl

/-! ## Walks -/

/-- The lexer gets from one state to the other by collecting the characters. -/
inductive Walk : Nat → List UInt8 → Nat → Prop
  | nil (state : Nat) : Walk state [] state
  | cons {state next last : Nat} {ch : UInt8} {text : List UInt8} :
      IsState state → entry state ch = next → inError < next → next < inStart →
      Walk next text last → Walk state (ch :: text) last

theorem Walk.append {s t u : Nat} {text more : List UInt8} (h : Walk s text t)
    (h' : Walk t more u) : Walk s (text ++ more) u := by
  induction h with
  | nil => exact h'
  | cons hs he hpos hlt _ ih => exact .cons hs he hpos hlt (ih h')

variable {token : List UInt8}

variable {ch : UInt8}

theorem scan_collect {state next : Nat} (hs : IsState state)
    (he : entry state ch = next) (hpos : inError < next) (hlt : next < inStart)
    (hlen : (token ++ [ch]).length ≤ maxTokenSize) :
    scan (state, token) ch = ((next, token ++ [ch]), []) := by
  subst he
  have hne : entry state ch ≠ entry state 0 := by
    obtain h | ⟨-, -, h⟩ | ⟨-, h, -⟩ | ⟨-, h, -⟩ := entryKind hs ch
    · exact absurd h (ne_of_gt hpos)
    · exact h
    · exact absurd h (lt_asymm hlt)
    · exact absurd h (lt_asymm hlt)
  rw [scan_settle (ne_of_gt hpos) hne, settle, if_pos ⟨hlt, hlen⟩]

theorem Walk.scanAll {s t : Nat} {text : List UInt8} (h : Walk s text t) (token : List UInt8)
    (hlen : (token ++ text).length ≤ maxTokenSize) :
    scanAll (s, token) text = ((t, token ++ text), []) := by
  induction h generalizing token with
  | nil => rw [List.append_nil]; rfl
  | @cons state next last ch text hs he hpos hlt _ ih =>
    have hsplit : token ++ ch :: text = (token ++ [ch]) ++ text := by simp
    rw [hsplit] at hlen ⊢
    have hch : (token ++ [ch]).length ≤ maxTokenSize := by
      rw [List.length_append] at hlen
      exact Nat.le_trans (Nat.le_add_right _ _) hlen
    rw [scanAll_cons, scan_collect hs he hpos hlt hch]
    exact ih (token ++ [ch]) hlen

/-! ## The ends of tokens -/

/-- At the start of a token, a character is scanned as after another token. -/
theorem scan_start (ch : UInt8) : scan start ch = scanNew ch := by
  unfold scanNew
  by_cases he : entry inStart ch = inError
  · rw [scan_error he, if_pos he, if_pos entry_start_zero]
  · rw [scan_settle he (entry_start_zero ▸ he), if_neg he]
    rfl

/-- The character after a token that its row ends. -/
theorem scanAll_ended {state type : Nat} (he : entry state ch = type)
    (h0 : entry state 0 = type) (htype : type ≠ inError) (text : List UInt8) :
    scanAll (state, token) (ch :: text) = prepend (ended type token)
    (scanAll start (ch :: text)) := by
  rw [scanAll_cons, scanAll_cons, scan_start, scan_next (he ▸ htype) (he.trans h0.symm), he,
    prepend_prepend]

/-- A token that the next character ends: it is reported, unless it is white space. -/
theorem Walk.word {state type : Nat} (h : Walk inStart token state)
    (hlen : token.length ≤ maxTokenSize) (he : entry state ch = type) (h0 : entry state 0 = type)
    (htype : type ≠ inError) (text : List UInt8) : Json.scanAll start (token ++ ch :: text) =
      prepend (ended type token) (Json.scanAll start (ch :: text)) := by
  rw [scanAll_append, h.scanAll [] hlen, prepend_nil, List.nil_append, scanAll_ended he h0 htype]

/-- A token whose last character ends it. -/
theorem Walk.closed {state type : Nat} {token : List UInt8} {ch : UInt8}
    (h : Walk inStart token state) (hlen : token.length ≤ maxTokenSize) (he : entry state ch = type)
    (hne : entry state 0 ≠ type) (htype : inStart < type) (text : List UInt8) :
    Json.scanAll start (token ++ ch :: text) =
      prepend [(type, token ++ [ch])] (Json.scanAll start text) := by
  have hscan : scan (state, token) ch = (start, [(type, token ++ [ch])]) := by
    subst he
    rw [scan_settle (ne_of_gt (Nat.zero_lt_of_lt htype)) (Ne.symm hne), settle,
      if_neg fun hc => lt_asymm hc.1 htype]
  rw [scanAll_append, h.scanAll [] hlen, prepend_nil, List.nil_append, scanAll_cons, hscan]

end QemuAndroid.Json
