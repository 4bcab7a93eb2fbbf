import QemuAndroid.Json.Texts

/-!
# The tokens of an object

The tokens that the lexer finds in the text of an object, compact or pretty, followed by anything
that may follow it.
-/

namespace QemuAndroid.Json

open List

variable {δ : Type}

/-! ## Objects -/

/-- The doubles, the strings and the sets of keys of an object have the given properties. -/
inductive QObject.All (pd : δ → Prop) (ps : List UInt8 → Prop) (pk : List (List UInt8) → Prop) :
    QObject δ → Prop
  | qnull : All pd ps pk .qnull
  | qbool (value : Bool) : All pd ps pk (.qbool value)
  | qint (value : BitVec 64) : All pd ps pk (.qint value)
  | qfloat {value : δ} : pd value → All pd ps pk (.qfloat value)
  | qstring {string : List UInt8} : ps string → All pd ps pk (.qstring string)
  | qlist {objs : List (QObject δ)} : (∀ obj ∈ objs, All pd ps pk obj) → All pd ps pk (.qlist objs)
  | qdict {entries : List (List UInt8 × QObject δ)} : pk (entries.map Prod.fst) →
      (∀ entry ∈ entries, ps entry.1) → (∀ entry ∈ entries, All pd ps pk entry.2) →
      All pd ps pk (.qdict entries)

mutual

/-- How deep dictionaries, or lists, are nested in an object. -/
def QObject.depth (dicts : Bool) : QObject δ → Nat
  | .qlist objs => (if dicts then 0 else 1) + listDepth dicts objs
  | .qdict entries => (if dicts then 1 else 0) + dictDepth dicts entries
  | _ => 0

def listDepth (dicts : Bool) : List (QObject δ) → Nat
  | [] => 0
  | obj :: objs => max (obj.depth dicts) (listDepth dicts objs)

def dictDepth (dicts : Bool) : List (List UInt8 × QObject δ) → Nat
  | [] => 0
  | (_, obj) :: entries => max (obj.depth dicts) (dictDepth dicts entries)

end

def opToken (ch : UInt8) : Tok := (jsonOperator, [ch])

/-- The comma before an item, when it is not the first. -/
def commaToken (count : Nat) : List Tok := if count = 0 then [] else [opToken 0x2c]

section Tokens

variable (libc : Libc δ)

mutual

def tokensOf : QObject δ → List Tok
  | .qnull => [wordToken (bytes "null")]
  | .qbool value => [wordToken (if value then bytes "true" else bytes "false")]
  | .qint value => [wordToken (intToJson value.toInt)]
  | .qfloat value => [wordToken (floatToJson (libc.format value))]
  | .qstring string => [(jsonString, stringToJson string)]
  | .qlist objs => opToken 0x5b :: (listTokens objs 0 ++ [opToken 0x5d])
  | .qdict entries => opToken 0x7b :: (dictTokens entries 0 ++ [opToken 0x7d])

def listTokens : List (QObject δ) → Nat → List Tok
  | [], _ => []
  | obj :: objs, count => commaToken count ++ tokensOf obj ++ listTokens objs (count + 1)

def dictTokens : List (List UInt8 × QObject δ) → Nat → List Tok
  | [], _ => []
  | (key, obj) :: entries, count =>
    commaToken count ++ [(jsonString, stringToJson key), opToken 0x3a] ++ tokensOf obj ++
      dictTokens entries (count + 1)

end

end Tokens

/-- The size of some tokens, as the streamer counts it. -/
def tokenLength (toks : List Tok) : Nat := (toks.map fun tok => tok.2.length).sum

@[simp]
theorem tokenLength_nil : tokenLength [] = 0 := rfl

@[simp]
theorem tokenLength_cons (tok : Tok) (toks : List Tok) :
    tokenLength (tok :: toks) = tok.2.length + tokenLength toks := sum_cons

@[simp]
theorem tokenLength_append (ts us : List Tok) :
    tokenLength (ts ++ us) = tokenLength ts + tokenLength us := by
  simp [tokenLength]

/-! ## White space -/

/-- A character that is none of the white space. -/
def EndsSpace (ch : UInt8) : Prop := entry inWhitespace ch = jsonSkip
deriving Decidable

/-- The white space of JSON. -/
def spaces : List UInt8 := [0x20, 0x09, 0x0d, 0x0a]

theorem walk_spaces {state : Nat} (hstate : state = inStart ∨ state = inWhitespace)
    (ws : List UInt8) (h : ∀ c ∈ ws, c ∈ spaces) (hne : ws ≠ []) : Walk state ws inWhitespace := by
  have hall : ∀ c ∈ spaces, entry inStart c = inWhitespace ∧
      entry inWhitespace c = inWhitespace := by
    decide +kernel
  induction ws generalizing state with
  | nil => exact absurd rfl hne
  | cons c ws ih =>
    have hc := hall c (h c mem_cons_self)
    have hs : inError < state ∧ state ≤ inStart := by rcases hstate with rfl | rfl <;> decide
    have he : entry state c = inWhitespace := by
      rcases hstate with rfl | rfl
      · exact hc.1
      · exact hc.2
    cases ws with
    | nil => exact .step inWhitespace hs he (by decide) (.nil _)
    | cons c' ws =>
      exact .step inWhitespace hs he (by decide)
        (ih (Or.inr rfl) (fun x hx => h x (mem_cons_of_mem _ hx)) (cons_ne_nil _ _))

/-- White space before a token is skipped. -/
theorem scanAll_spaces {ws : List UInt8} {ch : UInt8} (h : ∀ c ∈ ws, c ∈ spaces)
    (hlen : ws.length ≤ maxTokenSize) (hch : EndsSpace ch) (rest : List UInt8) :
    scanAll start (ws ++ ch :: rest) = scanAll start (ch :: rest) := by
  by_cases hne : ws = []
  · rw [hne]
    rfl
  · rw [(walk_spaces (Or.inl rfl) ws h hne).word hlen hch (by decide) (by decide), ended,
      if_pos rfl, prepend_nil]

variable {ch : UInt8} {indent : Nat} {text : List UInt8}

theorem scanAll_operator (h : entry inStart ch = jsonOperator) (rest : List UInt8) :
    scanAll start (ch :: rest) = prepend [opToken ch] (scanAll start rest) :=
  (Walk.nil inStart).closed (Nat.zero_le _) h (by decide) (by decide) rest

theorem newLine_spaces (pretty : Bool) (indent : Nat) :
    ∀ c ∈ newLine pretty indent, c ∈ spaces := by
  intro c hc
  unfold newLine at hc
  split at hc
  · rcases mem_cons.1 hc with rfl | hc
    · decide
    · rw [eq_of_mem_replicate hc]
      decide
  · exact absurd hc not_mem_nil

/-- The deepest indentation for which the line breaks are shorter than the longest token. -/
def maxIndent : Nat := 2 ^ 20

theorem newLine_length {pretty : Bool} (h : indent ≤ maxIndent) :
    (newLine pretty indent).length + 1 ≤ maxTokenSize := by
  unfold newLine
  split
  · simp only [length_cons, length_replicate]
    unfold maxIndent at h
    unfold maxTokenSize
    omega
  · decide

theorem scanAll_newLine (pretty : Bool) (h : indent ≤ maxIndent) (hch : EndsSpace ch)
    (rest : List UInt8) :
    scanAll start (newLine pretty indent ++ ch :: rest) = scanAll start (ch :: rest) :=
  scanAll_spaces (newLine_spaces pretty indent) (Nat.le_of_succ_le (newLine_length h)) hch rest

theorem scanAll_separator (pretty : Bool) (h : indent ≤ maxIndent) (count : Nat)
    (hch : EndsSpace ch) (rest : List UInt8) :
    scanAll start (separator pretty indent count ++ ch :: rest) =
      prepend (commaToken count) (scanAll start (ch :: rest)) := by
  unfold separator commaToken
  by_cases hcount : count = 0
  · rw [if_pos hcount, if_pos hcount]
    exact scanAll_newLine pretty h hch rest
  rw [if_neg hcount, if_neg hcount]
  cases pretty with
  | true =>
    refine (scanAll_operator (by decide) _).trans (congrArg (prepend [opToken 0x2c]) ?_)
    exact scanAll_newLine true h hch rest
  | false =>
    refine (scanAll_operator (by decide) _).trans (congrArg (prepend [opToken 0x2c]) ?_)
    exact @scanAll_spaces [0x20] ch (by decide +kernel) (by decide) hch rest

/-! ## The first character of a value -/

theorem Walk.of_space {state last : Nat} (h : Walk state text last) (hs : state = inWhitespace) :
    last = inWhitespace := by
  induction h with
  | nil => exact hs
  | @cons state next last ch text _ he hpos hlt _ ih =>
    have hall : ∀ next ∈ entries inWhitespace, inError < next → next < inStart →
        next = inWhitespace := by
      decide
    refine ih ?_
    subst hs
    exact hall next (he ▸ entry_mem inWhitespace ch) hpos hlt

theorem endsSpace_of_entry (hpos : inError < entry inStart ch) (hlt : entry inStart ch < inStart)
    (hne : entry inStart ch ≠ inWhitespace) : EndsSpace ch := by
  have hall : ∀ code < 256, inError < entry inStart (UInt8.ofNat code) →
      entry inStart (UInt8.ofNat code) < inStart → entry inStart (UInt8.ofNat code) ≠ inWhitespace →
      entry inWhitespace (UInt8.ofNat code) = jsonSkip := by
    decide +kernel
  have h := hall ch.toNat ch.toNat_lt
  rw [UInt8.ofNat_toNat] at h
  exact h hpos hlt hne

theorem IsWord.head (h : IsWord text) : ∃ c t, text = c :: t ∧ EndsSpace c := by
  obtain ⟨state, hwalk, hends⟩ := h
  cases hwalk with
  | nil => exact absurd entry_start_zero hends.1
  | @cons _ next _ ch text _ he hpos hlt hrest =>
    refine ⟨ch, text, rfl, endsSpace_of_entry (he ▸ hpos) (he ▸ hlt) fun hspace => ?_⟩
    obtain rfl := hrest.of_space (he.symm.trans hspace)
    exact hends.2.1 (by decide)

section Lex

variable {libc : Libc δ} {pd : δ → Prop} {ps : List UInt8 → Prop} {pk : List (List UInt8) → Prop}

variable {obj : QObject δ} {close : UInt8} {objs : List (QObject δ)}
  {entries : List (List UInt8 × QObject δ)}

/-- The text of a scalar that is not a string is a word. -/
theorem toJson_head (hpd : ∀ d, pd d → IsWord (floatToJson (libc.format d))) (h : obj.All pd ps pk)
    (pretty : Bool) (indent : Nat) :
    ∃ c t, toJson libc pretty obj indent = c :: t ∧ EndsSpace c := by
  cases h with
  | qnull => exact ⟨_, _, rfl, by decide⟩
  | qbool value => cases value <;> exact ⟨_, _, rfl, by decide⟩
  | qint value => exact (isWord_int value.toInt).head
  | qfloat hd => exact (hpd _ hd).head
  | qstring _ => exact ⟨_, _, rfl, by decide⟩
  | qlist _ => exact ⟨_, _, rfl, by decide⟩
  | qdict _ _ _ => exact ⟨_, _, rfl, by decide⟩

/-- The text, with anything that may follow it, has the tokens. -/
def Lexes (text : List UInt8) (toks : List Tok) : Prop :=
  ∀ d ∈ delimiters, ∀ rest,
    scanAll start (text ++ d :: rest) = prepend toks (scanAll start (d :: rest))

theorem lexes_word (h : IsWord text) (hlen : tokenLength [wordToken text] ≤ maxTokenSize) :
    Lexes text [wordToken text] := by
  intro d hd rest
  exact scanAll_word h hlen hd rest

/-! ## Items -/

/-- The text of some items, `count` items having been printed before. -/
def itemsText (pretty : Bool) (indent : Nat) : List (List UInt8) → Nat → List UInt8
  | [], _ => []
  | text :: texts, count =>
    separator pretty indent count ++ text ++ itemsText pretty indent texts (count + 1)

def itemsTokens : List (List Tok) → Nat → List Tok
  | [], _ => []
  | toks :: items, count => commaToken count ++ toks ++ itemsTokens items (count + 1)

def pairText (libc : Libc δ) (pretty : Bool) (indent : Nat) (entry : List UInt8 × QObject δ) :
    List UInt8 :=
  stringToJson entry.1 ++ 0x3a :: 0x20 :: toJson libc pretty entry.2 indent

def pairTokens (libc : Libc δ) (entry : List UInt8 × QObject δ) : List Tok :=
  (jsonString, stringToJson entry.1) :: opToken 0x3a :: tokensOf libc entry.2

theorem toJsonListIter_eq (pretty : Bool) (objs : List (QObject δ)) (indent count : Nat) :
    toJsonListIter libc pretty objs indent count =
      itemsText pretty indent (objs.map fun obj => toJson libc pretty obj indent) count := by
  induction objs generalizing count with
  | nil => rfl
  | cons obj objs ih => rw [toJsonListIter, ih, map_cons, itemsText]

theorem toJsonDictIter_eq (pretty : Bool) (entries : List (List UInt8 × QObject δ))
    (indent count : Nat) : toJsonDictIter libc pretty entries indent count =
      itemsText pretty indent (entries.map (pairText libc pretty indent)) count := by
  induction entries generalizing count with
  | nil => rfl
  | cons entry entries ih =>
    rw [toJsonDictIter, ih, map_cons, itemsText, pairText]
    simp

theorem listTokens_eq (objs : List (QObject δ)) (count : Nat) :
    listTokens libc objs count = itemsTokens (objs.map (tokensOf libc)) count := by
  induction objs generalizing count with
  | nil => rfl
  | cons obj objs ih => rw [listTokens, ih, map_cons, itemsTokens]

theorem dictTokens_eq (entries : List (List UInt8 × QObject δ)) (count : Nat) :
    dictTokens libc entries count = itemsTokens (entries.map (pairTokens libc)) count := by
  induction entries generalizing count with
  | nil => rfl
  | cons entry entries ih =>
    rw [dictTokens, ih, map_cons, itemsTokens, pairTokens]
    simp

/-- What comes after an item begins with a delimiter. -/
theorem delimiter_of_items (hclose : close ∈ delimiters) (pretty : Bool) (indent outer count : Nat)
    (texts : List (List UInt8)) (rest : List UInt8) : ∃ d ∈ delimiters, ∃ more,
      itemsText pretty indent texts (count + 1) ++ (newLine pretty outer ++ close :: rest) =
      d :: more := by
  cases texts with
  | nil =>
    cases pretty with
    | true => exact ⟨0x0a, by decide, _, rfl⟩
    | false => exact ⟨close, hclose, _, rfl⟩
  | cons text texts =>
    cases pretty with
    | true => exact ⟨0x2c, by decide, _, rfl⟩
    | false => exact ⟨0x2c, by decide, _, rfl⟩

def IsItem (text : List UInt8) (toks : List Tok) : Prop :=
  Lexes text toks ∧ ∃ c t, text = c :: t ∧ EndsSpace c

theorem scanAll_items (pretty : Bool) {outer : Nat} (hindent : indent ≤ maxIndent)
    (houter : outer ≤ maxIndent) (hclose : close ∈ delimiters) (hspace : EndsSpace close)
    (items : List (List UInt8 × List Tok)) (hitems : ∀ item ∈ items, IsItem item.1 item.2)
    (count : Nat) (rest : List UInt8) :
    scanAll start (itemsText pretty indent (items.map Prod.fst) count ++
        (newLine pretty outer ++ close :: rest)) =
      prepend (itemsTokens (items.map Prod.snd) count) (scanAll start (close :: rest)) := by
  induction items generalizing count with
  | nil => exact scanAll_newLine pretty houter hspace rest
  | cons item items ih =>
    obtain ⟨hlex, c, t, htext, hc⟩ := hitems item mem_cons_self
    obtain ⟨d, hd, more, hmore⟩ :=
      delimiter_of_items hclose pretty indent outer count (items.map Prod.fst) rest
    have hsplit : itemsText pretty indent ((item :: items).map Prod.fst) count ++
        (newLine pretty outer ++ close :: rest) =
        separator pretty indent count ++ (item.1 ++ d :: more) := by
      rw [← hmore, map_cons, itemsText]
      simp only [append_assoc]
    have hsep := scanAll_separator pretty hindent count hc (t ++ d :: more)
    rw [← cons_append, ← htext] at hsep
    have ih := ih (fun i hi => hitems i (mem_cons_of_mem _ hi)) (count + 1)
    rw [hsplit, hsep, hlex d hd more, ← hmore, ih, map_cons, itemsTokens, prepend_prepend,
      prepend_prepend]

theorem lexes_string (string : List UInt8) (hlen : (stringToJson string).length ≤ maxTokenSize) :
    Lexes (stringToJson string) [(jsonString, stringToJson string)] := by
  intro d _ rest
  exact scanAll_string string hlen (d :: rest)

/-- A key, a colon, a space and a value. -/
theorem isItem_pair {pretty : Bool} {entry : List UInt8 × QObject δ}
    (hkey : (stringToJson entry.1).length ≤ maxTokenSize)
    (hvalue : IsItem (toJson libc pretty entry.2 indent) (tokensOf libc entry.2)) :
    IsItem (pairText libc pretty indent entry) (pairTokens libc entry) := by
  obtain ⟨hlex, c, t, htext, hc⟩ := hvalue
  refine ⟨fun d hd rest => ?_, _, _, rfl, by decide⟩
  have hspace : scanAll start (0x20 :: (toJson libc pretty entry.2 indent ++ d :: rest)) =
      scanAll start (toJson libc pretty entry.2 indent ++ d :: rest) := by
    rw [htext]
    exact @scanAll_spaces [0x20] c (by decide +kernel) (by decide) hc (t ++ d :: rest)
  rw [pairText, append_assoc, scanAll_string entry.1 hkey, cons_append,
    scanAll_operator (by decide), cons_append, hspace, hlex d hd rest]
  rfl

/-! ## Objects -/

theorem tokenLength_le_items {toks : List Tok} {items : List (List Tok)} (h : toks ∈ items)
    (count : Nat) : tokenLength toks ≤ tokenLength (itemsTokens items count) := by
  induction items generalizing count with
  | nil => exact absurd h not_mem_nil
  | cons item items ih =>
    rw [itemsTokens, tokenLength_append, tokenLength_append]
    rcases mem_cons.1 h with rfl | h
    · exact Nat.le_trans (Nat.le_add_left _ _) (Nat.le_add_right _ _)
    · exact Nat.le_trans (ih h (count + 1)) (Nat.le_add_left _ _)

theorem depth_le_listDepth (dicts : Bool) (h : obj ∈ objs) :
    obj.depth dicts ≤ listDepth dicts objs := by
  induction objs with
  | nil => exact absurd h not_mem_nil
  | cons obj' objs ih =>
    rcases mem_cons.1 h with rfl | h
    · exact le_max_left _ _
    · exact Nat.le_trans (ih h) (le_max_right _ _)

theorem depth_le_dictDepth (dicts : Bool) {entry : List UInt8 × QObject δ} (h : entry ∈ entries) :
    entry.2.depth dicts ≤ dictDepth dicts entries := by
  induction entries with
  | nil => exact absurd h not_mem_nil
  | cons entry' entries ih =>
    rcases mem_cons.1 h with rfl | h
    · exact le_max_left _ _
    · exact Nat.le_trans (ih h) (le_max_right _ _)

section

variable (pretty : Bool) (hindent : indent + 1 ≤ maxIndent)

include hindent

/-- Items between two brackets or braces, with anything behind them. -/
theorem scanAll_bracketed {opening : UInt8}
    (hopen : entry inStart opening = jsonOperator)
    (hclose : close ∈ delimiters ∧ EndsSpace close ∧ entry inStart close = jsonOperator)
    (items : List (List UInt8 × List Tok)) (hitems : ∀ item ∈ items, IsItem item.1 item.2)
    (rest : List UInt8) :
    scanAll start (opening :: (itemsText pretty (indent + 1) (items.map Prod.fst) 0 ++
        newLine pretty indent ++ [close]) ++ rest) =
      prepend (opToken opening :: (itemsTokens (items.map Prod.snd) 0 ++ [opToken close]))
        (scanAll start rest) := by
  have hbody :=
    scanAll_items pretty hindent (Nat.le_of_succ_le hindent) hclose.1 hclose.2.1 items hitems 0 rest
  have hsplit : itemsText pretty (indent + 1) (items.map Prod.fst) 0 ++ newLine pretty indent ++
      [close] ++ rest = itemsText pretty (indent + 1) (items.map Prod.fst) 0 ++
        (newLine pretty indent ++ close :: rest) := by simp
  rw [cons_append, scanAll_operator hopen, hsplit, hbody, scanAll_operator hclose.2.2,
    prepend_prepend, prepend_prepend]
  rfl

theorem scanAll_qlist
    (hitems : ∀ obj ∈ objs, IsItem (toJson libc pretty obj (indent + 1)) (tokensOf libc obj))
    (rest : List UInt8) : scanAll start (toJson libc pretty (.qlist objs) indent ++ rest) =
      prepend (tokensOf libc (.qlist objs)) (scanAll start rest) := by
  have hlex := scanAll_bracketed pretty hindent (by decide : entry inStart 0x5b = jsonOperator)
    (by decide : (0x5d : UInt8) ∈ delimiters ∧ EndsSpace 0x5d ∧ entry inStart 0x5d = jsonOperator)
    (objs.map fun obj => (toJson libc pretty obj (indent + 1), tokensOf libc obj))
    (forall_mem_map.2 hitems) rest
  rw [map_map, map_map] at hlex
  rw [toJson, tokensOf, toJsonListIter_eq, listTokens_eq]
  exact hlex

theorem scanAll_qdict (hkeys : ∀ entry ∈ entries, (stringToJson entry.1).length ≤ maxTokenSize)
    (hitems : ∀ entry ∈ entries,
      IsItem (toJson libc pretty entry.2 (indent + 1)) (tokensOf libc entry.2))
      (rest : List UInt8) :
    scanAll start (toJson libc pretty (.qdict entries) indent ++ rest) =
      prepend (tokensOf libc (.qdict entries)) (scanAll start rest) := by
  have hlex := scanAll_bracketed pretty hindent (by decide : entry inStart 0x7b = jsonOperator)
    (by decide : (0x7d : UInt8) ∈ delimiters ∧ EndsSpace 0x7d ∧ entry inStart 0x7d = jsonOperator)
    (entries.map fun entry => (pairText libc pretty (indent + 1) entry, pairTokens libc entry))
    (forall_mem_map.2 fun entry he => isItem_pair (hkeys entry he) (hitems entry he)) rest
  rw [map_map, map_map] at hlex
  rw [toJson, tokensOf, toJsonDictIter_eq, dictTokens_eq]
  exact hlex

end

/-- The tokens of an object are short enough for the lexer, and so are its line breaks. -/
structure Lexable (libc : Libc δ) (obj : QObject δ) (indent : Nat) : Prop where
  size : tokenLength (tokensOf libc obj) ≤ maxTokenSize
  indent : indent + (obj.depth true + obj.depth false) ≤ maxIndent

theorem Lexable.qlist (h : Lexable libc (.qlist objs) indent) :
    indent + 1 ≤ maxIndent ∧ ∀ obj ∈ objs, Lexable libc obj (indent + 1) := by
  obtain ⟨hsize, hindent⟩ := h
  rw [tokensOf, listTokens_eq, tokenLength_cons, tokenLength_append] at hsize
  rw [QObject.depth, QObject.depth] at hindent
  simp only [if_true, if_false, Bool.false_eq_true] at hindent
  refine ⟨by omega, fun obj hobj => ?_⟩
  have hle := tokenLength_le_items (mem_map_of_mem (f := tokensOf libc) hobj) 0
  have htrue := depth_le_listDepth true hobj
  have hfalse := depth_le_listDepth false hobj
  exact ⟨by omega, by omega⟩

theorem Lexable.qdict (h : Lexable libc (.qdict entries) indent) :
    indent + 1 ≤ maxIndent ∧ (∀ entry ∈ entries, (stringToJson entry.1).length ≤ maxTokenSize) ∧
      ∀ entry ∈ entries, Lexable libc entry.2 (indent + 1) := by
  obtain ⟨hsize, hindent⟩ := h
  rw [tokensOf, dictTokens_eq, tokenLength_cons, tokenLength_append] at hsize
  rw [QObject.depth, QObject.depth] at hindent
  simp only [if_true, if_false, Bool.false_eq_true] at hindent
  have hle (entry : List UInt8 × QObject δ) (hentry : entry ∈ entries) :
      (stringToJson entry.1).length + tokenLength (tokensOf libc entry.2) ≤
        tokenLength (itemsTokens (entries.map (pairTokens libc)) 0) := by
    refine Nat.le_trans ?_ (tokenLength_le_items (mem_map_of_mem (f := pairTokens libc) hentry) 0)
    exact Nat.add_le_add_left (Nat.le_add_left _ _) _
  refine ⟨by omega, fun entry hentry => ?_, fun entry hentry => ?_⟩
  · have := hle entry hentry
    omega
  have := hle entry hentry
  have htrue := depth_le_dictDepth true hentry
  have hfalse := depth_le_dictDepth false hentry
  exact ⟨by omega, by omega⟩

/-- The text of an object has its tokens. -/
theorem isItem_toJson (hpd : ∀ d, pd d → IsWord (floatToJson (libc.format d))) (pretty : Bool)
    (h : obj.All pd ps pk) (indent : Nat) (hlex : Lexable libc obj indent) :
    IsItem (toJson libc pretty obj indent) (tokensOf libc obj) := by
  refine ⟨?_, toJson_head hpd h pretty indent⟩
  induction h generalizing indent with
  | qnull => exact lexes_word isWord_null hlex.size
  | qbool value => exact lexes_word (isWord_bool value) hlex.size
  | qint value => exact lexes_word (isWord_int _) hlex.size
  | qfloat hd => exact lexes_word (hpd _ hd) hlex.size
  | qstring _ => exact lexes_string _ hlex.size
  | qlist hall ih =>
    obtain ⟨hindent, hobjs⟩ := hlex.qlist
    intro d _ rest
    exact scanAll_qlist pretty hindent (fun obj hobj =>
      ⟨ih obj hobj _ (hobjs obj hobj), toJson_head hpd (hall obj hobj) pretty _⟩) (d :: rest)
  | qdict _ _ hall ih =>
    obtain ⟨hindent, hkeys, hvalues⟩ := hlex.qdict
    intro d _ rest
    exact scanAll_qdict pretty hindent hkeys (fun entry hentry =>
      ⟨ih entry hentry _ (hvalues entry hentry), toJson_head hpd (hall entry hentry) pretty _⟩)
        (d :: rest)

def QObject.IsContainer : QObject δ → Prop
  | .qlist _ => True
  | .qdict _ => True
  | _ => False

/-- The text of a list or a dictionary has its tokens, whatever follows. -/
theorem scanAll_container (hpd : ∀ d, pd d → IsWord (floatToJson (libc.format d))) (pretty : Bool)
    (h : obj.All pd ps pk) (hc : obj.IsContainer) (indent : Nat) (hlex : Lexable libc obj indent)
    (rest : List UInt8) : scanAll start (toJson libc pretty obj indent ++ rest) =
      prepend (tokensOf libc obj) (scanAll start rest) := by
  cases h with
  | qlist hall =>
    obtain ⟨hindent, hobjs⟩ := hlex.qlist
    exact scanAll_qlist pretty hindent
      (fun obj hobj => isItem_toJson hpd pretty (hall obj hobj) _ (hobjs obj hobj)) rest
  | qdict _ _ hall =>
    obtain ⟨hindent, hkeys, hvalues⟩ := hlex.qdict
    exact scanAll_qdict pretty hindent hkeys
      (fun entry hentry => isItem_toJson hpd pretty (hall entry hentry) _ (hvalues entry hentry))
      rest
  | _ => exact hc.elim

end Lex

end QemuAndroid.Json
