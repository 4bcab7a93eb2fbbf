import QemuAndroid.Json.Parser

/-!
# When the parser runs out of tokens

The parser reads beyond the end of its tokens only when they open at least as many braces and
brackets as they close, and more in all: each rule that is under way has read the operator that
opened it, and each rule that is done has read as many of both kinds.
-/

namespace QemuAndroid.Json

open Lib Prog Nat

/-! ## Counting tokens -/

/-- The braces that the tokens open, less those that they close. -/
def braces (tokens : List JSONToken) : Int := (tokens.map JSONToken.brace).sum

/-- The brackets that the tokens open, less those that they close. -/
def brackets (tokens : List JSONToken) : Int := (tokens.map JSONToken.bracket).sum

@[simp]
theorem braces_cons (token : JSONToken) (tokens : List JSONToken) :
    braces (token :: tokens) = token.brace + braces tokens := List.sum_cons

@[simp]
theorem brackets_cons (token : JSONToken) (tokens : List JSONToken) :
    brackets (token :: tokens) = token.bracket + brackets tokens := List.sum_cons

variable {token : JSONToken} {op closing : Char} {b k : Int} {ts rest : List JSONToken}

theorem tokenIsOperator_iff : tokenIsOperator token op = true ↔
      token.type = jsonOperator ∧ token.token = [UInt8.ofNat op.toNat] := by
  simp [tokenIsOperator]

/-- What an operator of the grammar adds to the counts. -/
def Counts (op : Char) (b k : Int) : Prop :=
  ∀ token : JSONToken, tokenIsOperator token op = true → token.brace = b ∧ token.bracket = k

theorem counts_operator (op : Char) :
    Counts op (if (UInt8.ofNat op.toNat).toNat = 123 then 1
        else if (UInt8.ofNat op.toNat).toNat = 125 then -1 else 0)
      (if (UInt8.ofNat op.toNat).toNat = 91 then 1
        else if (UInt8.ofNat op.toNat).toNat = 93 then -1 else 0) := by
  intro token h
  obtain ⟨ht, hv⟩ := tokenIsOperator_iff.1 h
  simp only [JSONToken.brace, JSONToken.bracket, JSONToken.change, ht, hv, if_true]
  exact ⟨rfl, rfl⟩

/-- The tokens from `ts` down to `rest` have been read, with the given counts. -/
structure Reads (b k : Int) (ts rest : List JSONToken) : Prop where
  suffix : rest <:+ ts
  shorter : rest.length < ts.length
  braces : braces ts = b + braces rest
  brackets : brackets ts = k + brackets rest

theorem Reads.cons (token : JSONToken) (ts : List JSONToken) :
    Reads token.brace token.bracket (token :: ts) ts :=
  ⟨List.suffix_cons token ts, lt_succ_self _, braces_cons .., brackets_cons ..⟩

theorem Reads.trans {b' k' : Int} {us : List JSONToken} (h : Reads b k ts us)
    (h' : Reads b' k' us rest) : Reads (b + b') (k + k') ts rest where
  suffix := h'.suffix.trans h.suffix
  shorter := h'.shorter.trans h.shorter
  braces := by rw [h.braces, h'.braces, add_assoc]
  brackets := by rw [h.brackets, h'.brackets, add_assoc]

theorem Reads.operator {b' k' : Int} (h : Reads b k ts (token :: rest))
    (hop : tokenIsOperator token op = true) (hcounts : Counts op b' k') :
    Reads (b + b') (k + k') ts rest := by
  obtain ⟨rfl, rfl⟩ := hcounts token hop
  exact h.trans (Reads.cons token rest)

/-- The tokens open at least as much as they close. -/
def Pending (ts : List JSONToken) : Prop := 0 ≤ braces ts ∧ 0 ≤ brackets ts

/-- The tokens open more than they close, or there is none. -/
def Unfinished (ts : List JSONToken) : Prop := Pending ts ∧ (ts ≠ [] → 0 < braces ts + brackets ts)

theorem unfinished_nil : Unfinished [] := ⟨⟨le_rfl, le_rfl⟩, fun h => absurd rfl h⟩

/-- A rule that waits behind a finished one waits with the same counts. -/
theorem Pending.of_reads (h : Reads 0 0 ts rest) (hp : Pending rest) : Pending ts := by
  refine ⟨?_, ?_⟩
  · rw [h.braces, zero_add]
    exact hp.1
  · rw [h.brackets, zero_add]
    exact hp.2

def Quoted (token : JSONToken) : Prop := token.type = jsonString → token.token ≠ []

/-! ## Reading tokens -/

section Wp

variable {α : Type} {e : Option ParseError} {ts : List JSONToken}

variable {R : Unit → JSONParserContext → Prop} {H : JSONParserContext → Prop}

variable {Q : JSONToken → JSONParserContext → Prop}

theorem wp_pop (hnil : ts = [] → H ⟨e, ts⟩)
    (hcons : ∀ token rest, ts = token :: rest → Q token ⟨e, rest⟩) :
    wp parserContextPopToken Q R H ⟨e, ts⟩ := by
  cases ts with
  | nil => exact hnil rfl
  | cons token rest => exact hcons token rest rfl

theorem wp_peek (hnil : ts = [] → H ⟨e, ts⟩)
    (hcons : ∀ token rest, ts = token :: rest → Q token ⟨e, ts⟩) :
    wp parserContextPeekToken Q R H ⟨e, ts⟩ := by
  cases ts with
  | nil => exact hnil rfl
  | cons token rest => exact hcons token rest rfl

theorem wp_orRestore {Q : Option α → JSONParserContext → Prop} (rule : Parse α)
    (c : JSONParserContext) : wp (orRestore rule) Q R H c ↔
      wp rule (fun a c' => Q (some a) c') (fun _ c' => Q none { c' with tokens := c.tokens })
      H c := by
  simp only [orRestore, wp_bind, wp_get, wp_attempt]
  rfl

end Wp

/-! ## Strings -/

section Strings

variable {c : JSONParserContext}

/-- The context keeps its tokens, and the program does not halt. -/
theorem wp_hexDigits (i : Nat) (unicodeChar : BitVec 16) (ptr : List UInt8) :
    wp (hexDigits i unicodeChar ptr)
      (fun r c' => r.2.length ≤ ptr.length ∧ c'.tokens = c.tokens)
      (fun _ c' => c'.tokens = c.tokens) (fun _ => False) c := by
  induction i generalizing unicodeChar ptr with
  | zero => exact ⟨le_rfl, rfl⟩
  | succ i ih =>
    cases ptr with
    | nil => exact rfl
    | cons ch ptr =>
      rw [hexDigits]
      split
      · exact rfl
      · refine wp_mono (ih _ ptr) ?_ (fun _ _ h => h) (fun _ h => h)
        rintro r c' ⟨hlen, htokens⟩
        exact ⟨hlen.trans (le_succ _), htokens⟩

theorem wp_wcharToUtf8 (wchar : BitVec 16) :
    wp (wcharToUtf8 wchar 4) (fun _ c' => c'.tokens = c.tokens) (fun _ _ => False)
      (fun _ => False) c := by
  unfold wcharToUtf8
  split
  · exact (wp_bind ..).2 (wp_assert (fun _ => rfl) fun h => h (by decide))
  · split
    · exact (wp_bind ..).2 (wp_assert (fun _ => rfl) fun h => h (by decide))
    · exact (wp_bind ..).2 (wp_assert (fun _ => rfl) fun h => h (by decide))

theorem wp_unescapeLoop (quote : UInt8) (fuel : Nat) (ptr str : List UInt8)
    (h : ptr.length < fuel) :
    wp (unescapeLoop quote fuel ptr str) (fun _ c' => c'.tokens = c.tokens)
      (fun _ c' => c'.tokens = c.tokens) (fun _ => False) c := by
  induction fuel generalizing ptr str c with
  | zero => exact absurd h (not_lt_zero _)
  | succ fuel ih =>
    cases ptr with
    | nil => exact rfl
    | cons ch ptr =>
      have hlt : ptr.length < fuel := lt_of_succ_lt_succ h
      refine wp_ite (fun _ => rfl) fun _ => wp_ite (fun _ => ?_) fun _ => ih _ _ hlt
      cases ptr with
      | nil => exact rfl
      | cons ch' ptr =>
        have hlt' : ptr.length < fuel := (lt_succ_self _).trans hlt
        dsimp only
        split
        · exact ih _ _ hlt'
        refine wp_ite (fun _ => ?_) fun _ => rfl
        refine wp_seq (wp_hexDigits 4 0 ptr) ?_ (fun _ _ h => h) (fun _ h => h)
        rintro ⟨unicodeChar, rest⟩ c₁ ⟨hrest, hc₁⟩
        refine wp_seq (wp_wcharToUtf8 unicodeChar) ?_ (fun _ _ h => h.elim) (fun _ h => h)
        intro utf8Char c₂ hc₂
        rw [← hc₁, ← hc₂]
        exact ih _ _ (hrest.trans_lt hlt')

end Strings

/-! ## Rules -/

section Rules

variable {α δ : Type} {e : Option ParseError} {ts : List JSONToken}

/-- The rule reads as many opening as closing operators or restores the position; when it runs out
of tokens they are unfinished. -/
def Balanced (rule : Parse (Option α)) (ts : List JSONToken) : Prop :=
  ∀ e, wp rule
    (fun r c => match r with
      | some _ => Reads 0 0 ts c.tokens
      | none => c.tokens = ts)
    (fun _ _ => False) (fun _ => Unfinished ts) ⟨e, ts⟩

/-- The same of a rule that need not restore the position. -/
def WeaklyBalanced (rule : Parse (Option α)) (ts : List JSONToken) : Prop :=
  ∀ e, wp rule (fun r c => r.isSome → Reads 0 0 ts c.tokens) (fun _ _ => False)
    (fun _ => Unfinished ts) ⟨e, ts⟩

/-- A rule that looks at one token which opens and closes nothing. -/
theorem reads_of_type (h : token.type ≠ jsonOperator) (ts : List JSONToken) :
    Reads 0 0 (token :: ts) ts := by
  have hb : token.brace = 0 := if_neg h
  have hk : token.bracket = 0 := if_neg h
  have hcons := Reads.cons token ts
  rwa [hb, hk] at hcons

theorem balanced_parseKeyword : Balanced (parseKeyword : Parse (Option (QObject δ))) ts := by
  intro e
  rw [parseKeyword, wp_orRestore, wp_bind]
  refine wp_pop (fun h => h ▸ unfinished_nil) ?_
  rintro token rest rfl
  refine wp_ite (fun _ => rfl) fun htype => ?_
  have hreads : Reads 0 0 (token :: rest) rest := reads_of_type (by simp_all) rest
  exact wp_ite (fun _ => hreads) fun _ => wp_ite (fun _ => hreads) fun _ =>
    wp_ite (fun _ => hreads) fun _ => rfl

theorem weaklyBalanced_parseLiteral (libc : Libc δ) (hquoted : ∀ t ∈ ts, Quoted t) :
    WeaklyBalanced (parseLiteral libc) ts := by
  intro e
  rw [parseLiteral, wp_bind, wp_orRestore, wp_bind]
  refine wp_pop (fun h => h ▸ unfinished_nil) ?_
  rintro token rest rfl
  have hreads (h : token.type ≠ jsonOperator) : Reads 0 0 (token :: rest) rest :=
    reads_of_type h rest
  refine wp_ite (fun hs => ?_) fun _ => wp_ite (fun hi => ?_) fun _ => wp_ite (fun hf => ?_)
    fun _ => ?_
  · rw [wp_bind, wp_attempt]
    have hloop : wp (qstringFromEscapedStr token) (fun _ c' => c'.tokens = rest)
        (fun _ c' => c'.tokens = rest) (fun _ => False) (⟨e, rest⟩ : JSONParserContext) := by
      unfold qstringFromEscapedStr
      split
      · rename_i hnil
        exact hquoted token List.mem_cons_self hs hnil
      · exact wp_unescapeLoop _ _ _ _ (lt_succ_self _)
    refine wp_mono hloop ?_ ?_ fun _ h => h.elim
    · rintro string c' rfl _
      exact hreads (by simp [hs])
    · rintro _ c' - h
      exact absurd h (by simp)
  · split
    · exact fun _ => hreads (by simp [hi])
    · exact fun _ => hreads (by simp [hi])
  · exact fun _ => hreads (by simp [hf])
  · exact fun h => absurd h (by simp)

variable {pv : Parse (Option (QObject δ))} {n : Nat}

theorem wp_parsePair (dict : List (List UInt8 × QObject δ)) (hn : ts.length < n)
    (hpv : ∀ us : List JSONToken, us <:+ ts → us.length < n → WeaklyBalanced pv us) :
    wp (parsePair pv dict) (fun r c => r.isSome → Reads 0 0 ts c.tokens) (fun _ _ => False)
      (fun _ => Pending ts) ⟨e, ts⟩ := by
  rw [parsePair, wp_orRestore, wp_bind]
  refine wp_peek (fun h => h ▸ unfinished_nil.1) ?_
  intro _ _ _
  refine wp_seq (hpv ts List.suffix_rfl hn e) ?_ (fun _ _ h => h.elim) (fun _ h => h.1)
  rintro key ⟨e₁, us⟩ hkey
  split
  · have hkey : Reads 0 0 ts us := hkey rfl
    rw [wp_bind]
    refine wp_pop (fun h => Pending.of_reads hkey (h ▸ unfinished_nil.1)) ?_
    rintro token rest rfl
    refine wp_ite (fun hop => ?_) fun _ h => absurd h (by simp)
    have hcolon : Reads 0 0 ts rest := hkey.operator hop (counts_operator ':')
    refine wp_seq (hpv rest hcolon.suffix (hcolon.shorter.trans hn) e₁) ?_ (fun _ _ h => h.elim)
      (fun _ h => Pending.of_reads hcolon h.1)
    rintro value ⟨e₂, vs⟩ hvalue
    split
    · exact fun _ => hcolon.trans (hvalue rfl)
    · exact fun h => absurd h (by simp)
  · exact fun h => absurd h (by simp)

/-- The item of a list: it reads as much as it opens and closes. -/
def BalancedItem (item : α → Parse α) (ts : List JSONToken) : Prop :=
  ∀ a e, wp (item a) (fun _ c => Reads 0 0 ts c.tokens) (fun _ _ => True) (fun _ => Pending ts)
    ⟨e, ts⟩

theorem balancedItem_pairItem (hn : ts.length < n)
    (hpv : ∀ us : List JSONToken, us <:+ ts → us.length < n → WeaklyBalanced pv us) :
    BalancedItem (pairItem pv) ts := by
  intro dict e
  refine wp_seq (wp_parsePair dict hn hpv) ?_ (fun _ _ h => h.elim) (fun _ h => h)
  rintro (_ | dict') c hpair
  · trivial
  · exact hpair rfl

theorem balancedItem_elementItem (h : WeaklyBalanced pv ts) : BalancedItem (elementItem pv) ts := by
  intro list e
  refine wp_seq (h e) ?_ (fun _ _ h => h.elim) (fun _ h => h.1)
  rintro (_ | obj) c hobj
  · trivial
  · exact hobj rfl

/-- Behind each item comes the operator that ends the items, or a comma and more items. -/
theorem wp_separated {item : α → Parse α} {err : ParseError}
    (hcounts : Counts closing b k) (hitem : ∀ us, us <:+ ts → BalancedItem item us) (fuel : Nat)
    (a : α) (hfuel : ts.length < fuel) :
    wp (separated item closing err fuel a) (fun _ c => Reads b k ts c.tokens) (fun _ _ => True)
      (fun _ => Pending ts) ⟨e, ts⟩ := by
  induction fuel generalizing ts a e with
  | zero => exact absurd hfuel (not_lt_zero _)
  | succ fuel ih =>
    refine wp_seq (hitem ts List.suffix_rfl a e) ?_ (fun _ _ h => h) (fun _ h => h)
    rintro a' ⟨e₁, us⟩ (hreads : Reads 0 0 ts us)
    rw [wp_bind]
    refine wp_pop (fun h => Pending.of_reads hreads (h ▸ unfinished_nil.1)) ?_
    rintro token rest rfl
    refine wp_ite (fun hop => ?_) fun _ => wp_ite (fun hop => ?_) fun _ => trivial
    · simpa using hreads.operator hop hcounts
    have hcomma : Reads 0 0 ts rest := hreads.operator hop (counts_operator ',')
    refine wp_mono (ih (fun us hus => hitem us (hus.trans hcomma.suffix)) a'
      (hcomma.shorter.trans_le (le_of_lt_succ hfuel))) ?_ (fun _ _ h => h)
      (fun _ h => Pending.of_reads hcomma h)
    intro _ c h
    simpa using hcomma.trans h

/-- Behind an operator that opens something, the tokens are unfinished while a rule waits. -/
theorem Unfinished.of_open (h : Reads b k ts rest) (hb : 0 ≤ b) (hk : 0 ≤ k) (hpos : 0 < b + k)
    (hp : Pending rest) : Unfinished ts := by
  have hbraces := h.braces
  have hbrackets := h.brackets
  obtain ⟨hp₁, hp₂⟩ := hp
  exact ⟨⟨by omega, by omega⟩, fun _ => by omega⟩

theorem balanced_bracketed {item : List α → Parse (List α)} {opening : Char} {err : ParseError}
    {make : List α → QObject δ} (hopening : Counts opening b k)
    (hclosing : Counts closing (-b) (-k)) (hb : 0 ≤ b) (hk : 0 ≤ k) (hpos : 0 < b + k)
    (hn : ts.length < n + 1) (hitem : ∀ us, us <:+ ts → us.length < n → BalancedItem item us) :
    Balanced (bracketed opening closing (separated item closing err n []) make) ts := by
  intro e
  rw [bracketed, wp_orRestore, wp_bind]
  refine wp_pop (fun h => h ▸ unfinished_nil) ?_
  rintro token rest rfl
  refine wp_ite (fun hop => ?_) fun _ => rfl
  have hopen : Reads b k (token :: rest) rest := by
    obtain ⟨rfl, rfl⟩ := hopening token hop
    exact Reads.cons token rest
  have hwait : Pending rest → Unfinished (token :: rest) := Unfinished.of_open hopen hb hk hpos
  have hlt : rest.length < n := lt_of_succ_lt_succ hn
  rw [wp_bind]
  refine wp_peek (fun h => hwait (h ▸ unfinished_nil.1)) ?_
  rintro peek rest' rfl
  refine wp_ite (fun hpeek => ?_) fun _ => ?_
  · have hclose : Reads 0 0 (token :: peek :: rest') rest' := by
      simpa using hopen.operator hpeek hclosing
    exact hclose
  refine wp_seq (wp_separated hclosing (fun us hus =>
    hitem us (hus.trans hopen.suffix) (hus.length_le.trans_lt hlt)) n [] hlt) ?_
    (fun _ _ _ => rfl) (fun _ h => hwait h)
  intro _ c h
  simpa using hopen.trans h

theorem balanced_parseObject (hn : ts.length < n + 1)
    (hpv : ∀ us : List JSONToken, us <:+ ts → us.length < n → WeaklyBalanced pv us) :
    Balanced (parseObject pv n) ts := by
  rw [parseObject_eq]
  exact balanced_bracketed (counts_operator _) (counts_operator _) zero_le_one le_rfl one_pos hn
    fun us hus hlt => balancedItem_pairItem hlt fun vs hvs => hpv vs (hvs.trans hus)

theorem balanced_parseArray (hn : ts.length < n + 1)
    (hpv : ∀ us : List JSONToken, us <:+ ts → us.length < n → WeaklyBalanced pv us) :
    Balanced (parseArray pv n) ts := by
  rw [parseArray_eq]
  exact balanced_bracketed (counts_operator _) (counts_operator _) le_rfl zero_le_one one_pos hn
    fun us hus hlt => balancedItem_elementItem (hpv us hus hlt)

/-- A rule that restores the position gives way to the next one. -/
theorem Balanced.orElse {rule next : Parse (Option (QObject δ))} (h : Balanced rule ts)
    (hnext : WeaklyBalanced next ts) : WeaklyBalanced (orElse rule next) ts := by
  intro e
  refine wp_seq (h e) ?_ (fun _ _ h => h) (fun _ h => h)
  rintro (_ | obj) ⟨e₁, us⟩ hr
  · obtain rfl : us = ts := hr
    exact hnext e₁
  · exact fun _ => hr

/-- With enough fuel, `parse_value` returns, or its tokens are unfinished. -/
theorem weaklyBalanced_parseValue (libc : Libc δ) (fuel : Nat) (hfuel : ts.length < fuel)
    (hquoted : ∀ t ∈ ts, Quoted t) : WeaklyBalanced (parseValue libc fuel) ts := by
  induction fuel generalizing ts with
  | zero => exact absurd hfuel (not_lt_zero _)
  | succ fuel ih =>
    have hpv (us : List JSONToken) (hus : us <:+ ts) (hlt : us.length < fuel) :
        WeaklyBalanced (parseValue libc fuel) us :=
      ih hlt fun t ht => hquoted t (hus.subset ht)
    exact (balanced_parseObject hfuel hpv).orElse ((balanced_parseArray hfuel hpv).orElse
      (balanced_parseKeyword.orElse (weaklyBalanced_parseLiteral libc hquoted)))

/-- The parser returns on a list of tokens that is not unfinished. -/
theorem jsonParserParse_returns (libc : Libc δ) (hquoted : ∀ t ∈ ts, Quoted t)
    (h : ¬Unfinished ts) : ∃ obj, jsonParserParse libc (some ts) = .ok obj := by
  have hv := weaklyBalanced_parseValue libc (ts.length + 1) (lt_succ_self _) hquoted none
  cases ts with
  | nil => exact ⟨_, rfl⟩
  | cons token ts =>
    simp only [jsonParserParse, jsonParserParseErr]
    unfold wp at hv
    split at hv
    · rename_i heq
      rw [heq]
      exact ⟨_, rfl⟩
    · exact hv.elim
    · exact absurd hv h

end Rules

end QemuAndroid.Json
