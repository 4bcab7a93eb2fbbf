import QemuAndroid.Json.Strings
import QemuAndroid.Json.Framing
import QemuAndroid.Json.Safe

/-!
# The round trip

The text of an object of null, booleans, integers, strings, lists and dictionaries is parsed as an
equal object.  The parser puts the pairs of a dictionary into a new one in the order in which they
were printed, so the two have the same pairs, but the order of the pairs in a bucket may differ:
dictionaries are compared as maps.
-/

namespace QemuAndroid.Json

open Lib List Nat Prog JSONToken

variable {δ : Type}

/-! ## Dictionaries as maps -/

/-- Equality of objects, dictionaries being compared as maps. -/
inductive QObject.Same : QObject δ → QObject δ → Prop
  | qnull : Same .qnull .qnull
  | qbool (value : Bool) : Same (.qbool value) (.qbool value)
  | qint (value : BitVec 64) : Same (.qint value) (.qint value)
  | qfloat (value : δ) : Same (.qfloat value) (.qfloat value)
  | qstring (string : List UInt8) : Same (.qstring string) (.qstring string)
  | qlist {objs objs' : List (QObject δ)} : List.Forall₂ Same objs objs' →
    Same (.qlist objs) (.qlist objs')
  | qdict {entries entries' : List (List UInt8 × QObject δ)} :
      (∀ key, Option.Rel Same (qdictGet entries key) (qdictGet entries' key)) →
      Same (.qdict entries) (.qdict entries')

section Put

variable {α : Type}

section

variable (entries : List (List UInt8 × α))

theorem lookup_map_put (key : List UInt8) (value : α) (k : List UInt8) :
    (entries.map fun entry => if entry.1 = key then (key, value) else entry).lookup k =
      if k = key then (entries.lookup key).map fun _ => value else entries.lookup k := by
  induction entries with
  | nil => split <;> rfl
  | cons entry entries ih =>
    obtain ⟨k', v'⟩ := entry
    rw [map_cons]
    by_cases hk : k = key
    · subst hk
      by_cases hk' : k' = k
      · subst hk'
        simp
      · have hne : (k == k') = false := beq_false_of_ne (Ne.symm hk')
        rw [if_neg hk', lookup_cons, lookup_cons, hne]
        exact ih
    rw [if_neg hk] at ih ⊢
    by_cases hk' : k' = key
    · subst hk'
      have hne : (k == k') = false := beq_false_of_ne hk
      rw [if_pos rfl, lookup_cons, lookup_cons, hne]
      exact ih
    · rw [if_neg hk', lookup_cons, lookup_cons, ih]

theorem lookup_insertHead (key : List UInt8) (value : α) (h : entries.lookup key = none)
    (k : List UInt8) :
    (insertHead key value entries).lookup k = if k = key then some value else entries.lookup k := by
  induction entries with
  | nil =>
    rw [insertHead, lookup_cons]
    by_cases hk : k = key
    · simp [hk]
    · simp [hk, beq_false_of_ne hk]
  | cons entry entries ih =>
    obtain ⟨k', v'⟩ := entry
    rw [lookup_cons] at h
    cases hkk : key == k' with
    | true => simp [hkk] at h
    | false =>
      rw [hkk] at h
      rw [insertHead]
      split
      · rw [lookup_cons, lookup_cons, ih h]
        by_cases hk : k = key
        · subst hk
          simp [hkk]
        · simp [hk]
      · rw [lookup_cons]
        by_cases hk : k = key
        · simp [hk]
        · simp [hk, beq_false_of_ne hk]

theorem qdictGet_putObj (key : List UInt8) (value : α) (k : List UInt8) :
    qdictGet (qdictPutObj entries key value) k = if k = key then some value
    else qdictGet entries k := by
  unfold qdictPutObj qdictGet
  split
  · rename_i hsome
    obtain ⟨v, hv⟩ := Option.isSome_iff_exists.1 hsome
    rw [lookup_map_put, hv]
    rfl
  · rename_i hnone
    exact lookup_insertHead entries key value (Option.not_isSome_iff_eq_none.1 hnone) k

end

/-- Pairs with different keys that are put one after the other. -/
theorem qdictGet_foldl (pairs : List (List UInt8 × α)) (hnodup : (pairs.map Prod.fst).Nodup)
    (dict : List (List UInt8 × α)) (k : List UInt8) :
    qdictGet (pairs.foldl (fun d pair => qdictPutObj d pair.1 pair.2) dict) k =
      (pairs.lookup k).or (qdictGet dict k) := by
  induction pairs generalizing dict with
  | nil => rfl
  | cons pair pairs ih =>
    obtain ⟨key, value⟩ := pair
    rw [map_cons, nodup_cons] at hnodup
    rw [foldl_cons, ih hnodup.2, qdictGet_putObj, lookup_cons]
    by_cases hk : k = key
    · subst hk
      have hnone : pairs.lookup k = none := by
        rw [lookup_eq_none_iff]
        intro p hp
        rw [bne_iff_ne]
        rintro rfl
        exact hnodup.1 (mem_map.2 ⟨p, hp, rfl⟩)
      simp [hnone]
    · rw [if_neg hk, beq_false_of_ne hk]

end Put

/-! ## Scalars -/

section Scalars

variable {libc : Libc δ} {fuel : Nat} {e : Option ParseError} {token : JSONToken}
    {ts : List JSONToken}

theorem isOperator_of_type (h : token.type ≠ jsonOperator) (op : Char) :
    tokenIsOperator token op = false := by
  unfold tokenIsOperator
  rw [beq_false_of_ne h]
  rfl

/-- A token that is no operator is a keyword or a literal. -/
theorem parseValue_scalar (h : token.type ≠ jsonOperator) :
    parseValue libc (fuel + 1) ⟨e, token :: ts⟩ = orElse parseKeyword (parseLiteral libc)
    ⟨e, token :: ts⟩ := by
  rw [parseValue, parseObject_eq, orElse_of_none (bracketed_other (isOperator_of_type h _)),
    parseArray_eq, orElse_of_none (bracketed_other (isOperator_of_type h _))]

theorem parseKeyword_other (h : token.type ≠ jsonKeyword) :
    (parseKeyword : Parse (Option (QObject δ))) ⟨e, token :: ts⟩ =
    (.ok none, ⟨e, token :: ts⟩) := by
  refine @orRestore_of_raised _ _ _ ⟨e, ts⟩ ((bind_of_ok rfl _).trans ?_)
  rw [if_pos h]
  rfl

variable {obj : QObject δ}

theorem parseValue_literal (hop : token.type ≠ jsonOperator) (hkey : token.type ≠ jsonKeyword)
    (h : literal libc token ⟨e, ts⟩ = (.ok (some obj), ⟨e, ts⟩)) :
    parseValue libc (fuel + 1) ⟨e, token :: ts⟩ = (.ok (some obj), ⟨e, ts⟩) := by
  rw [parseValue_scalar hop, orElse_of_none (parseKeyword_other hkey)]
  have hpop : parserContextPopToken ⟨e, token :: ts⟩ = (.ok token, ⟨e, ts⟩) := rfl
  refine (bind_of_ok (orRestore_of_ok ((bind_of_ok hpop _).trans h)) _).trans ?_
  rfl

theorem tokenIsKeyword_eq {text : List UInt8} (h : token.key = (jsonKeyword, text))
    (word : String) : tokenIsKeyword token word = (text == bytes word) := by
  obtain ⟨htype, htext⟩ := key_eq h
  simp [tokenIsKeyword, htype, htext]

/-- A keyword is looked up among the three that there are. -/
theorem parseValue_keyword {text : List UInt8} (h : token.key = (jsonKeyword, text))
    (hobj : (if (text == bytes "true") = true then pure (.qbool true)
      else if (text == bytes "false") = true then pure (.qbool false)
      else if (text == bytes "null") = true then pure .qnull
      else parseError (.invalidKeyword token.token) : Parse (QObject δ)) ⟨e, ts⟩ =
      (.ok obj, ⟨e, ts⟩)) :
    parseValue libc (fuel + 1) ⟨e, token :: ts⟩ = (.ok (some obj), ⟨e, ts⟩) := by
  have htype : token.type = jsonKeyword := (Prod.mk.inj h).1
  rw [parseValue_scalar (by rw [htype]; decide)]
  refine orElse_of_some (orRestore_of_ok ((bind_of_ok rfl _).trans ?_))
  rw [if_neg (not_not.2 htype), tokenIsKeyword_eq h, tokenIsKeyword_eq h, tokenIsKeyword_eq h]
  exact hobj

theorem parseValue_null (h : token.key = wordToken (bytes "null")) :
    parseValue libc (fuel + 1) ⟨e, token :: ts⟩ = (.ok (some .qnull), ⟨e, ts⟩) :=
  parseValue_keyword (h.trans (by decide : _ = (jsonKeyword, bytes "null"))) rfl

theorem parseValue_bool (value : Bool)
    (h : token.key = wordToken (if value then bytes "true" else bytes "false")) :
    parseValue libc (fuel + 1) ⟨e, token :: ts⟩ = (.ok (some (.qbool value)), ⟨e, ts⟩) := by
  cases value with
  | false => exact parseValue_keyword (h.trans (by decide : _ = (jsonKeyword, bytes "false"))) rfl
  | true => exact parseValue_keyword (h.trans (by decide : _ = (jsonKeyword, bytes "true"))) rfl

theorem parseValue_int (value : BitVec 64) (h : token.key = wordToken (intToJson value.toInt)) :
    parseValue libc (fuel + 1) ⟨e, token :: ts⟩ = (.ok (some (.qint value)), ⟨e, ts⟩) := by
  have hword : wordToken (intToJson value.toInt) = (jsonInteger, intToJson value.toInt) := by
    rw [wordToken, intToJson_eq, (walk_signed _ _).foldl]
    unfold numberState
    split <;> rfl
  obtain ⟨htype, htext⟩ := key_eq (h.trans hword)
  refine parseValue_literal (by rw [htype]; decide) (by rw [htype]; decide) ?_
  unfold literal
  rw [if_neg (by rw [htype]; decide), if_pos htype, htext, strtoll_intToJson]
  rfl

theorem parseValue_string {string : List UInt8} (hs : IsText string)
    (h : token.key = (jsonString, stringToJson string)) :
    parseValue libc (fuel + 1) ⟨e, token :: ts⟩ = (.ok (some (.qstring string)), ⟨e, ts⟩) := by
  obtain ⟨htype, htext⟩ := key_eq h
  refine parseValue_literal (by rw [htype]; decide) (by rw [htype]; decide) ?_
  unfold literal
  rw [if_pos htype, qstringFromEscapedStr_text hs htext]
  rfl

end Scalars

/-! ## Containers -/

section Containers

variable {pv : Parse (Option (QObject δ))} {fuel : Nat} {e : Option ParseError} {token : JSONToken}
  {ts : List JSONToken} {c : JSONParserContext}

theorem parsePair_eq {dict : List (List UInt8 × QObject δ)} {first : JSONToken}
    {us : List JSONToken} {key : List UInt8} {value : QObject δ}
    (hkey : pv ⟨e, first :: us⟩ = (.ok (some (.qstring key)), ⟨e, token :: ts⟩))
    (hcolon : token.key = opToken 0x3a) (hvalue : pv ⟨e, ts⟩ = (.ok (some value), c)) :
    parsePair pv dict ⟨e, first :: us⟩ = (.ok (some (qdictPutObj dict key value)), c) := by
  refine orRestore_of_ok ((bind_of_ok rfl _).trans ?_)
  rw [bind_of_ok hkey]
  refine (bind_of_ok rfl _).trans ?_
  rw [if_pos (by rw [tokenIsOperator_eq hcolon]; decide), bind_of_ok hvalue]
  rfl

/-- Tokens with these types and texts are read as the object, up to the order of pairs. -/
def ReadAs (pv : Parse (Option (QObject δ))) (size : Nat) (toks : List Tok) (obj : QObject δ) :
    Prop :=
  ∀ e (ts rest : List JSONToken), ts.map key = toks → ts.length < size →
    ∃ obj', pv ⟨e, ts ++ rest⟩ = (.ok (some obj'), ⟨e, rest⟩) ∧ obj.Same obj'

variable {libc : Libc δ} {size : Nat}

/-- The items of a list, the first of which has no comma before it, are read as the items that they
were printed from. -/
theorem separated_items {ι β A : Type} {item : A → Parse A} {put : A → β → A} {toks : ι → List Tok}
    {Same : ι → β → Prop} {ch : UInt8} (err : ParseError) (closing : Char)
    (hclosing : UInt8.ofNat closing.toNat = ch) (hch : ch ≠ 0x2c) (first : ι) (items : List ι)
    (h : ∀ i ∈ first :: items, ∀ a ts rest, ts.map key = toks i → ts.length < size →
      ∃ b, item a ⟨e, ts ++ rest⟩ = (.ok (put a b), ⟨e, rest⟩) ∧ Same i b)
    (count : Nat) (ts rest : List JSONToken) (hts : ts.map key =
      toks first ++ (itemsTokens (items.map toks) (count + 1) ++ [opToken ch]))
    (hsize : ts.length < size) (hfuel : ts.length < fuel) (a : A) :
    ∃ bs : List β, separated item closing err fuel a ⟨e, ts ++ rest⟩ =
    (.ok (bs.foldl put a), ⟨e, rest⟩) ∧
      List.Forall₂ Same (first :: items) bs := by
  obtain ⟨fuel, rfl⟩ := exists_eq_succ_of_ne_zero (ne_of_gt (zero_lt_of_lt hfuel))
  induction items generalizing first ts fuel a count with
  | nil =>
    obtain ⟨us, vs, rfl, hus, hvs⟩ := map_eq_append_iff.1 hts
    obtain ⟨close, rfl, hclose⟩ := map_eq_singleton_iff.1 hvs
    rw [length_append] at hsize
    obtain ⟨b, hb, hsame⟩ := h first mem_cons_self a us (close :: rest) hus (by omega)
    refine ⟨[b], ?_, .cons hsame .nil⟩
    rw [append_assoc, singleton_append, separated, bind_of_ok hb]
    refine (bind_of_ok rfl _).trans ?_
    rw [if_pos (by rw [tokenIsOperator_eq hclose, hclosing, beq_self_eq_true])]
    rfl
  | cons next items ih =>
    obtain ⟨us, vs, rfl, hus, hvs⟩ := map_eq_append_iff.1 hts
    rw [map_cons, itemsTokens, append_assoc] at hvs
    obtain ⟨comma, ws, rfl, hcomma, hws⟩ := map_eq_cons_iff.1 hvs
    rw [length_append, length_cons] at hsize hfuel
    obtain ⟨b, hb, hsame⟩ := h first mem_cons_self a us (comma :: (ws ++ rest)) hus (by omega)
    obtain ⟨fuel, rfl⟩ : ∃ k, fuel = k + 1 := exists_eq_succ_of_ne_zero (by omega)
    obtain ⟨bs, hrest, hsames⟩ :=
      ih next (fun i hi => h i (mem_cons_of_mem _ hi)) (count + 1) ws hws (by omega) (put a b)
        fuel (by omega)
    refine ⟨b :: bs, ?_, .cons hsame hsames⟩
    rw [append_assoc, cons_append, separated, bind_of_ok hb]
    refine (bind_of_ok rfl _).trans ?_
    rw [if_neg, if_pos (by rw [tokenIsOperator_eq hcomma]; decide), hrest]
    · rfl
    · rw [tokenIsOperator_eq hcomma, hclosing]
      simpa using hch.symm

theorem elementItem_eq {toks : List Tok} {obj : QObject δ} (h : ReadAs pv size toks obj)
    (list : List (QObject δ)) (ts rest : List JSONToken) (hts : ts.map key = toks)
    (hsize : ts.length < size) :
    ∃ obj', elementItem pv list ⟨e, ts ++ rest⟩ = (.ok (list ++ [obj']), ⟨e, rest⟩) ∧
    obj.Same obj' := by
  obtain ⟨obj', hobj, hsame⟩ := h e ts rest hts hsize
  exact ⟨obj', bind_of_ok hobj _, hsame⟩

/-- A pair whose key and value are read back. -/
def PairReadAs (pv : Parse (Option (QObject δ))) (size : Nat) (libc : Libc δ)
    (entry : List UInt8 × QObject δ) : Prop :=
  ReadAs pv size [(jsonString, stringToJson entry.1)] (.qstring entry.1) ∧
    ReadAs pv size (tokensOf libc entry.2) entry.2

/-- Two pairs have the same key, and equal values. -/
def SamePair (entry pair : List UInt8 × QObject δ) : Prop := entry.1 = pair.1 ∧ entry.2.Same pair.2

theorem pairItem_eq {entry : List UInt8 × QObject δ} (h : PairReadAs pv size libc entry)
    (dict : List (List UInt8 × QObject δ)) (ts rest : List JSONToken)
    (hts : ts.map key = pairTokens libc entry) (hsize : ts.length < size) :
    ∃ pair, pairItem pv dict ⟨e, ts ++ rest⟩ = (.ok (qdictPutObj dict pair.1 pair.2), ⟨e, rest⟩) ∧
      SamePair entry pair := by
  obtain ⟨key, us, rfl, hkey, hus⟩ := map_eq_cons_iff.1 hts
  obtain ⟨colon, vs, rfl, hcolon, hvs⟩ := map_eq_cons_iff.1 hus
  rw [length_cons, length_cons] at hsize
  obtain ⟨obj, hobj, hsame⟩ := h.1 e [key] (colon :: (vs ++ rest)) (congrArg (fun k => [k]) hkey)
    (by rw [length_singleton]; omega)
  cases hsame
  obtain ⟨value, hvalue, hvsame⟩ := h.2 e vs rest hvs (by omega)
  exact ⟨(entry.1, value), bind_of_ok (parsePair_eq hobj hcolon hvalue) _, rfl, hvsame⟩

/-- The new dictionary is the same map. -/
theorem same_dict {entries pairs : List (List UInt8 × QObject δ)}
    (hnodup : (entries.map Prod.fst).Nodup) (h : List.Forall₂ SamePair entries pairs) :
    QObject.Same (.qdict entries)
      (.qdict (pairs.foldl (fun d pair => qdictPutObj d pair.1 pair.2) [])) := by
  have hkeys : entries.map Prod.fst = pairs.map Prod.fst := by
    clear hnodup
    induction h with
    | nil => rfl
    | cons hpair _ ih => rw [map_cons, map_cons, hpair.1, ih]
  refine .qdict fun key => ?_
  rw [qdictGet_foldl pairs (hkeys ▸ hnodup)]
  have hlookup : Option.Rel QObject.Same (entries.lookup key) (pairs.lookup key) := by
    clear hnodup hkeys
    induction h with
    | nil => exact .none
    | @cons entry pair entries pairs hpair _ ih =>
      rw [lookup_cons, lookup_cons, hpair.1]
      cases key == pair.1 with
      | true => exact .some hpair.2
      | false => exact ih
  have hor : (pairs.lookup key).or (qdictGet [] key) = pairs.lookup key := by
    unfold qdictGet
    rw [lookup_nil, Option.or_none]
  rw [hor]
  exact hlookup

end Containers

/-! ## Objects -/

section Objects

variable {libc : Libc δ}

/-- An object without doubles, whose strings are text, and whose dictionaries have each key once. -/
abbrev QObject.Plain (obj : QObject δ) : Prop := obj.All (fun _ => False) IsText Nodup

/-- The first token of an object is not the end of a list. -/
theorem tokensOf_head {obj : QObject δ} (h : obj.Plain) :
    ∃ tok toks, tokensOf libc obj = tok :: toks ∧
      ∀ token : JSONToken, token.key = tok → tokenIsOperator token ']' = false := by
  have htype {tok : Tok} (ht : tok.1 ≠ jsonOperator) (token : JSONToken) (hkey : token.key = tok) :
      tokenIsOperator token ']' = false := by
    apply isOperator_of_type
    rw [show token.type = tok.1 from congrArg Prod.fst hkey]
    exact ht
  have hop {ch : UInt8} (hch : ([ch] == [UInt8.ofNat ']'.toNat]) = false) (token : JSONToken)
      (hkey : token.key = opToken ch) : tokenIsOperator token ']' = false :=
    (tokenIsOperator_eq hkey _).trans hch
  have hword {text : List UInt8} (hw : IsWord text) : (wordToken text).1 ≠ jsonOperator := by
    obtain ⟨state, hwalk, -⟩ := hw
    rw [wordToken, hwalk.foldl]
    exact (entry_first (hwalk.isState isState_start)).1
  cases h with
  | qnull => exact ⟨_, _, rfl, htype (hword isWord_null)⟩
  | qbool value => exact ⟨_, _, rfl, htype (hword (isWord_bool value))⟩
  | qint value => exact ⟨_, _, rfl, htype (hword (isWord_int _))⟩
  | qfloat hd => exact hd.elim
  | qstring _ => exact ⟨_, _, rfl, htype (by decide : jsonString ≠ jsonOperator)⟩
  | qlist _ => exact ⟨_, _, rfl, hop (by decide)⟩
  | qdict _ _ _ => exact ⟨_, _, rfl, hop (by decide)⟩

theorem readAs_scalar {toks : Tok} {obj : QObject δ} (hsame : obj.Same obj)
    (h : ∀ (fuel : Nat) (e : Option ParseError) (token : JSONToken) (rest : List JSONToken),
      token.key = toks →
      parseValue libc (fuel + 1) ⟨e, token :: rest⟩ = (.ok (some obj), ⟨e, rest⟩))
    (fuel : Nat) : ReadAs (parseValue libc fuel) fuel [toks] obj := by
  intro e ts rest hts hsize
  obtain ⟨token, rfl, hkey⟩ := map_eq_singleton_iff.1 hts
  obtain ⟨fuel, rfl⟩ := exists_eq_succ_of_ne_zero (ne_of_gt (zero_lt_of_lt hsize))
  exact ⟨obj, h fuel e token rest hkey, hsame⟩

theorem readAs_list {objs : List (QObject δ)} (hall : ∀ obj ∈ objs, obj.Plain)
    (h : ∀ obj ∈ objs, ∀ fuel, ReadAs (parseValue libc fuel) fuel (tokensOf libc obj) obj)
    (fuel : Nat) :
    ReadAs (parseValue libc fuel) fuel (tokensOf libc (.qlist objs)) (.qlist objs) := by
  intro e ts rest hts hsize
  obtain ⟨fuel, rfl⟩ := exists_eq_succ_of_ne_zero (ne_of_gt (zero_lt_of_lt hsize))
  rw [tokensOf, listTokens_eq] at hts
  obtain ⟨opening, us, rfl, hopen, hus⟩ := map_eq_cons_iff.1 hts
  have hsize : us.length < fuel := lt_of_succ_lt_succ hsize
  have hbrace : tokenIsOperator opening '\x7b' = false := by rw [tokenIsOperator_eq hopen]; decide
  have hbracket : tokenIsOperator opening '[' = true := by rw [tokenIsOperator_eq hopen]; decide
  rw [cons_append, parseValue, parseObject_eq, orElse_of_none (bracketed_other hbrace),
    parseArray_eq]
  cases objs with
  | nil =>
    obtain ⟨close, rfl, hclose⟩ := map_eq_singleton_iff.1 hus
    exact ⟨.qlist [],
      orElse_of_some (bracketed_empty hbracket (by rw [tokenIsOperator_eq hclose]; decide)),
      .qlist .nil⟩
  | cons obj objs =>
    rw [map_cons, itemsTokens, append_assoc] at hus
    obtain ⟨objs', helements, hsame⟩ := separated_items .separatorInList ']' rfl (by decide)
      obj objs (fun o ho => elementItem_eq (h o ho fuel)) 0 us rest hus hsize hsize []
    rw [foldl_append_eq_append, ← flatMap_def, flatMap_singleton'] at helements
    obtain ⟨tok, toks, htok, hpeek⟩ := @tokensOf_head δ libc obj (hall obj mem_cons_self)
    rw [htok] at hus
    obtain ⟨peek, vs, rfl, hkey, -⟩ := map_eq_cons_iff.1 hus
    exact ⟨.qlist objs', orElse_of_some (bracketed_of_items hbracket (hpeek peek hkey) helements),
      .qlist hsame⟩

theorem readAs_dict {entries : List (List UInt8 × QObject δ)}
    (hnodup : (entries.map Prod.fst).Nodup) (hkeys : ∀ entry ∈ entries, IsText entry.1)
    (h : ∀ entry ∈ entries, ∀ fuel, ReadAs (parseValue libc fuel) fuel (tokensOf libc entry.2)
      entry.2) (fuel : Nat) :
    ReadAs (parseValue libc fuel) fuel (tokensOf libc (.qdict entries)) (.qdict entries) := by
  intro e ts rest hts hsize
  obtain ⟨fuel, rfl⟩ := exists_eq_succ_of_ne_zero (ne_of_gt (zero_lt_of_lt hsize))
  rw [tokensOf, dictTokens_eq] at hts
  obtain ⟨opening, us, rfl, hopen, hus⟩ := map_eq_cons_iff.1 hts
  have hsize : us.length < fuel := lt_of_succ_lt_succ hsize
  have hbrace : tokenIsOperator opening '\x7b' = true := by rw [tokenIsOperator_eq hopen]; decide
  rw [parseValue, parseObject_eq]
  cases entries with
  | nil =>
    obtain ⟨close, rfl, hclose⟩ := map_eq_singleton_iff.1 hus
    exact ⟨.qdict [],
      orElse_of_some (bracketed_empty hbrace (by rw [tokenIsOperator_eq hclose]; decide)),
      .qdict fun _ => .none⟩
  | cons entry entries =>
    rw [map_cons, itemsTokens, append_assoc] at hus
    have hread : ∀ en ∈ entry :: entries, PairReadAs (parseValue libc fuel) fuel libc en :=
      fun en hen =>
      ⟨readAs_scalar (.qstring _) (fun _ _ _ _ hkey => parseValue_string (hkeys en hen) hkey) fuel,
        h en hen fuel⟩
    obtain ⟨pairs, hpairs, hsame⟩ :=
      separated_items .separatorInDict '\x7d' rfl (by decide)
        entry entries (fun en hen => pairItem_eq (hread en hen)) 0 us rest hus hsize hsize []
    obtain ⟨peek, vs, rfl, hkey, -⟩ := map_eq_cons_iff.1 hus
    have htype : peek.type ≠ jsonOperator := by
      rw [show peek.type = jsonString from (Prod.mk.inj hkey).1]
      decide
    exact ⟨_, orElse_of_some (bracketed_of_items hbrace (isOperator_of_type htype _) hpairs),
      same_dict hnodup hsame⟩

theorem readAs_tokensOf {obj : QObject δ} (h : obj.Plain) (fuel : Nat) :
    ReadAs (parseValue libc fuel) fuel (tokensOf libc obj) obj := by
  induction h generalizing fuel with
  | qnull => exact readAs_scalar .qnull (fun _ _ _ _ hkey => parseValue_null hkey) fuel
  | qbool value =>
    exact readAs_scalar (.qbool value) (fun _ _ _ _ hkey => parseValue_bool value hkey) fuel
  | qint value =>
    exact readAs_scalar (.qint value) (fun _ _ _ _ hkey => parseValue_int value hkey) fuel
  | qfloat hd => exact hd.elim
  | qstring hs =>
    exact readAs_scalar (.qstring _) (fun _ _ _ _ hkey => parseValue_string hs hkey) fuel
  | qlist hall ih => exact readAs_list hall ih fuel
  | qdict hnodup hkeys _ ih => exact readAs_dict hnodup hkeys ih fuel

end Objects

end QemuAndroid.Json
