import QemuAndroid.Json.Framing

/-!
# Streams of messages

The byte 0xff is an error in every state of the lexer, and an error leaves the front end as it was
at the start, but for the position.  From there on the messages of a stream are handed on one by
one, each as if it had been the only one.
-/

namespace QemuAndroid.Json

open Lib List Except

/-! ## Chunks -/

/-- Chunks are fed one after the other. -/
def feedChunks : JSONMessageParser → List (List UInt8) →
    Except Halt (JSONMessageParser × List Emission)
  | parser, [] => .ok (parser, [])
  | parser, chunk :: chunks => do
      let (parser, emitted) ← jsonMessageParserFeed parser chunk
      let (parser, more) ← feedChunks parser chunks
      pure (parser, emitted ++ more)

variable {p : JSONMessageParser}

theorem jsonMessageParserFeed_append {p₁ p₂ : JSONMessageParser} {out₁ out₂ : List Emission}
    {buffer more : List UInt8} (h₁ : jsonMessageParserFeed p buffer = .ok (p₁, out₁))
    (h₂ : jsonMessageParserFeed p₁ more = .ok (p₂, out₂)) :
    jsonMessageParserFeed p (buffer ++ more) = .ok (p₂, out₁ ++ out₂) := by
  induction buffer generalizing p out₁ with
  | nil =>
    obtain ⟨rfl, rfl⟩ : p = p₁ ∧ [] = out₁ := Prod.mk.inj (ok.inj h₁)
    exact h₂
  | cons ch buffer ih =>
    cases hch : jsonMessageParserFeedChar p ch with
    | error k => simp [jsonMessageParserFeed, hch, bind, Except.bind] at h₁
    | ok r =>
      obtain ⟨q, out⟩ := r
      cases hrest : jsonMessageParserFeed q buffer with
      | error k => simp [jsonMessageParserFeed, hch, hrest, bind, Except.bind] at h₁
      | ok r' =>
        obtain ⟨rfl, rfl⟩ := Prod.mk.inj
          (ok.inj ((jsonMessageParserFeed_cons hch hrest).symm.trans h₁))
        rw [append_assoc]
        exact jsonMessageParserFeed_cons hch (ih hrest)

theorem feedChunks_cons {p₁ p₂ : JSONMessageParser} {out₁ out₂ : List Emission} {chunk : List UInt8}
    {chunks : List (List UInt8)} (h₁ : jsonMessageParserFeed p chunk = .ok (p₁, out₁))
    (h₂ : feedChunks p₁ chunks = .ok (p₂, out₂)) :
    feedChunks p (chunk :: chunks) = .ok (p₂, out₁ ++ out₂) := by
  simp only [feedChunks, h₁, h₂, bind, Except.bind, pure, Except.pure]

/-- It does not matter how the input is cut into chunks. -/
theorem feedChunks_flatten {p' : JSONMessageParser} {out : List Emission}
    (hs : Scanning p.lexer.scanning) (chunks : List (List UInt8))
    (h : jsonMessageParserFeed p chunks.flatten = .ok (p', out)) :
    feedChunks p chunks = .ok (p', out) := by
  induction chunks generalizing p out with
  | nil => exact h
  | cons chunk chunks ih =>
    obtain ⟨p₁, out₁, hfeed₁, hp₁⟩ := feed_scan hs chunk
    have hs₁ : Scanning p₁.lexer.scanning := hp₁.listening hs
    obtain ⟨p₂, out₂, hfeed₂, -⟩ := feed_scan hs₁ chunks.flatten
    obtain ⟨rfl, rfl⟩ := Prod.mk.inj
      (ok.inj ((jsonMessageParserFeed_append hfeed₁ hfeed₂).symm.trans h))
    exact feedChunks_cons hfeed₁ (ih hs₁ hfeed₂)

/-! ## A fresh start -/

/-- The front end is as it was at the start, but for the position. -/
structure Fresh (p : JSONMessageParser) : Prop where
  scanning : p.lexer.scanning = start
  erase : p.erase = jsonMessageParserInit

theorem fresh_init : Fresh jsonMessageParserInit := ⟨rfl, rfl⟩

/-- The byte 0xff ends whatever was under way. -/
theorem feed_ff (hs : Scanning p.lexer.scanning) :
    ∃ p', jsonMessageParserFeed p [0xff] = .ok (p', [none]) ∧ Fresh p' := by
  have hall : ∀ state ≤ inStart, entry state 0xff = inError := by decide
  obtain ⟨p', out, hfeed, hp'⟩ := feed_scan hs [0xff]
  obtain ⟨text, hscan⟩ :
      ∃ text, scanAll p.lexer.scanning [0xff] = (start, [(jsonError, text)]) := by
    rw [scanAll_cons, JSONLexer.scanning, scan_error (hall p.lexer.state hs.1.2)]
    exact ⟨_, rfl⟩
  rw [hscan] at hp'
  have hout : out.map eraseEmission = [none] := hp'.emissions
  obtain ⟨emission, rfl, hem⟩ := map_eq_singleton_iff.1 hout
  obtain rfl : emission = none := Option.map_eq_none_iff.1 hem
  exact ⟨p', hfeed, hp'.scanning, hp'.state⟩

/-! ## Messages -/

section Messages

variable {δ : Type} {libc : Libc δ}

/-- A double whose text the lexer takes for a token. -/
def Printable (libc : Libc δ) (d : δ) : Prop :=
  libc.format d ≠ bytes "-inf" ∧ libc.format d ≠ bytes "-nan"

/-- A list or a dictionary within the limits of the streamer, all of whose doubles can be
printed. -/
structure IsMessage (libc : Libc δ) (obj : QObject δ) : Prop where
  container : obj.IsContainer
  doubles : obj.All (Printable libc) (fun _ => True) (fun _ => True)
  dicts : obj.depth true ≤ maxNesting
  lists : obj.depth false ≤ maxNesting
  size : tokenLength (tokensOf libc obj) ≤ maxTokenSize

theorem IsMessage.lexable {obj : QObject δ} (h : IsMessage libc obj) : Lexable libc obj 0 := by
  refine ⟨h.size, ?_⟩
  have h₁ := h.dicts
  have h₂ := h.lists
  unfold maxNesting at h₁ h₂
  unfold maxIndent
  omega

/-- White space and a message, from a fresh start, give one list and a fresh start. -/
theorem IsMessage.feed {obj : QObject δ} (h : IsMessage libc obj)
    (hpd : ∀ d, Printable libc d → IsWord (floatToJson (libc.format d))) {p : JSONMessageParser}
    (hp : Fresh p) {ws : List UInt8} (hws : ∀ c ∈ ws, c ∈ spaces)
    (hlen : ws.length ≤ maxTokenSize) :
    ∃ p' emission, jsonMessageParserFeed p (ws ++ qobjectToJson libc obj) = .ok (p', [emission]) ∧
      Fresh p' ∧ eraseEmission emission = some ((tokensOf libc obj).map tokenOf) := by
  have hs : Scanning p.lexer.scanning := hp.scanning ▸ scanning_start
  obtain ⟨p', out, hfeed, hp'⟩ := feed_scan hs (ws ++ qobjectToJson libc obj)
  have hscan : scanAll p.lexer.scanning (ws ++ qobjectToJson libc obj) =
      (start, tokensOf libc obj) := by
    obtain ⟨c, t, htext, hc⟩ := toJson_head hpd h.doubles false 0
    have hobj := scanAll_container hpd false h.doubles h.container 0 h.lexable []
    rw [append_nil] at hobj
    rw [hp.scanning, qobjectToJson, htext, scanAll_spaces hws hlen hc, ← htext, hobj]
    exact Prod.ext rfl (append_nil _)
  rw [hscan] at hp'
  have hstate := hp'.state
  have hout := hp'.emissions
  rw [hp.erase, emitted_tokensOf hpd h.doubles h.dicts h.lists h.size] at hstate hout
  obtain ⟨emission, rfl, hem⟩ := map_eq_singleton_iff.1 hout
  exact ⟨p', emission, hfeed, ⟨hp'.scanning, hstate⟩, hem⟩

/-- What is handed on for a message is what a fresh front end hands on for it alone. -/
def AsAlone (libc : Libc δ) (emission : Emission) (obj : QObject δ) : Prop :=
  ∃ p alone, jsonMessageParserFeed jsonMessageParserInit (qobjectToJson libc obj) =
    .ok (p, [alone]) ∧ alone ≠ none ∧ eraseEmission emission = eraseEmission alone

theorem feed_messages (hpd : ∀ d, Printable libc d → IsWord (floatToJson (libc.format d)))
    (hp : Fresh p) (messages : List (List UInt8 × QObject δ))
    (hws : ∀ m ∈ messages, (∀ c ∈ m.1, c ∈ spaces) ∧ m.1.length ≤ maxTokenSize)
    (hm : ∀ m ∈ messages, IsMessage libc m.2) :
    ∃ p' out, jsonMessageParserFeed p (messages.flatMap fun m => m.1 ++ qobjectToJson libc m.2) =
        .ok (p', out) ∧ List.Forall₂ (AsAlone libc) out (messages.map Prod.snd) := by
  induction messages generalizing p with
  | nil => exact ⟨p, [], rfl, .nil⟩
  | cons m messages ih =>
    have hmsg := hm m mem_cons_self
    obtain ⟨hspaces, hlen⟩ := hws m mem_cons_self
    obtain ⟨p₁, emission, hfeed₁, hp₁, hem⟩ := hmsg.feed hpd hp hspaces hlen
    obtain ⟨p₂, out, hfeed₂, hout⟩ := ih hp₁ (fun m' h' => hws m' (mem_cons_of_mem _ h'))
      fun m' h' => hm m' (mem_cons_of_mem _ h')
    obtain ⟨q, alone, halone, -, healone⟩ := @IsMessage.feed δ libc m.2 hmsg hpd _ fresh_init []
      (fun _ hc => absurd hc not_mem_nil) (Nat.zero_le _)
    refine ⟨p₂, emission :: out, jsonMessageParserFeed_append hfeed₁ hfeed₂, .cons ?_ hout⟩
    refine ⟨q, alone, halone, ?_, hem.trans healone.symm⟩
    rintro rfl
    exact absurd healone (by simp [eraseEmission])

/-- **Framing**: whatever was fed before, after a byte 0xff the front end hands on one list for each
of the messages that follow, and it is the list that a fresh front end hands on for that message
alone, up to the positions; it does not matter how the input is cut into chunks, nor what white
space is between the messages, as long as each stretch of it is no longer than the longest token. -/
theorem messages_framed (hlibc : ∀ d, Formatted (libc.format d)) (garbage : List UInt8)
    (messages : List (List UInt8 × QObject δ))
    (hws : ∀ m ∈ messages, (∀ c ∈ m.1, c ∈ spaces) ∧ m.1.length ≤ maxTokenSize)
    (hm : ∀ m ∈ messages, IsMessage libc m.2) (chunks : List (List UInt8))
    (hchunks : chunks.flatten =
      garbage ++ 0xff :: messages.flatMap fun m => m.1 ++ qobjectToJson libc m.2) :
    ∃ p before p' after, jsonMessageParserFeed jsonMessageParserInit garbage = .ok (p, before) ∧
      feedChunks jsonMessageParserInit chunks = .ok (p', before ++ none :: after) ∧
      List.Forall₂ (AsAlone libc) after (messages.map Prod.snd) := by
  have hpd (d : δ) (hd : Printable libc d) : IsWord (floatToJson (libc.format d)) :=
    isWord_float (hlibc d) hd.1 hd.2
  obtain ⟨p, before, hfeed, hp⟩ := feed_scan listening_init.scanning garbage
  obtain ⟨p₁, hff, hp₁⟩ := feed_ff (hp.listening listening_init.scanning)
  obtain ⟨p₂, after, hrest, hafter⟩ := feed_messages hpd hp₁ messages hws hm
  refine ⟨p, before, p₂, after, hfeed, feedChunks_flatten listening_init.scanning chunks ?_, hafter⟩
  rw [hchunks]
  exact jsonMessageParserFeed_append hfeed (jsonMessageParserFeed_append hff hrest)

end Messages

/-- A C library whose only double is a half. -/
def half : Libc Unit := ⟨fun _ => (), fun _ => bytes "0.500000"⟩

def emptyList : QObject Unit := .qlist []

def halfDict : QObject Unit := .qdict [(bytes "a", .qfloat ())]

theorem formatted_half (d : Unit) : Formatted (half.format d) :=
  .number false 0 [5, 0, 0, 0, 0, 0] (by decide) rfl

theorem isMessage_emptyList : IsMessage half emptyList :=
  ⟨trivial, .qlist fun _ h => absurd h not_mem_nil, by decide, by decide, by decide⟩

theorem isMessage_halfDict : IsMessage half halfDict := by
  refine ⟨trivial, .qdict trivial (fun _ _ => trivial) fun entry hentry => ?_, by decide, by decide,
    by decide⟩
  obtain rfl := mem_singleton.1 hentry
  exact .qfloat ⟨by decide, by decide⟩

/-- Two messages, with a space between them, after the beginning of a string. -/
theorem messages_framed_twoMessages : ∃ p before p' after,
    jsonMessageParserFeed jsonMessageParserInit [0x7b, 0x22] = .ok (p, before) ∧
      feedChunks jsonMessageParserInit [[0x7b], 0x22 :: 0xff :: qobjectToJson half emptyList,
        0x20 :: qobjectToJson half halfDict] = .ok (p', before ++ none :: after) ∧
      List.Forall₂ (AsAlone half) after [emptyList, halfDict] := by
  refine messages_framed formatted_half [0x7b, 0x22] [([], emptyList), ([0x20], halfDict)]
    ?_ ?_ _ ?_
  · intro m hm
    rcases mem_pair.1 hm with rfl | rfl
    · exact ⟨by decide +kernel, by decide⟩
    · exact ⟨by decide +kernel, by decide⟩
  · intro m hm
    rcases mem_pair.1 hm with rfl | rfl
    · exact isMessage_emptyList
    · exact isMessage_halfDict
  · simp

/-! ## Long white space -/

/-- White space that is longer than the longest token is taken for one. -/
theorem scanAll_longSpaces {ws : List UInt8} {c : UInt8} (hws : ∀ c ∈ ws, c ∈ spaces)
    (hc : c ∈ spaces) (hlen : ws.length = maxTokenSize) (rest : List UInt8) :
    scanAll start (ws ++ c :: rest) = prepend [(inWhitespace, ws ++ [c])] (scanAll start rest) := by
  have hne : ws ≠ [] := by
    rintro rfl
    exact absurd hlen (by decide)
  have hentry : ∀ c ∈ spaces, entry inWhitespace c = inWhitespace := by decide +kernel
  have hscan : scan (inWhitespace, ws) c = (start, [(inWhitespace, ws ++ [c])]) := by
    rw [scan_settle (by rw [hentry c hc]; decide) (by rw [hentry c hc]; decide), hentry c hc,
      settle, if_neg]
    rintro ⟨-, hle⟩
    rw [length_append, hlen] at hle
    exact absurd hle (Nat.not_succ_le_self _)
  rw [scanAll_append, (walk_spaces (Or.inl rfl) ws hws hne).scanAll [] (le_of_eq hlen), prepend_nil,
    nil_append, scanAll_cons, hscan]

/-- From a fresh start, such white space gives a list. -/
theorem feed_longSpaces (hp : Fresh p) :
    ∃ p' emission, jsonMessageParserFeed p (List.replicate maxTokenSize 0x20 ++ [0x20]) =
      .ok (p', [emission]) ∧ Fresh p' := by
  have hs : Scanning p.lexer.scanning := hp.scanning ▸ scanning_start
  obtain ⟨p', out, hfeed, hp'⟩ := feed_scan hs (replicate maxTokenSize 0x20 ++ [0x20])
  have hspaces : ∀ c ∈ replicate maxTokenSize (0x20 : UInt8), c ∈ spaces := by
    intro c hc
    rw [eq_of_mem_replicate hc]
    decide
  rw [hp.scanning, scanAll_longSpaces hspaces (by decide) length_replicate] at hp'
  have hneutral : Neutral (inWhitespace, replicate maxTokenSize 0x20 ++ [0x20]) :=
    neutral_of_type (by decide : inWhitespace ≠ jsonError) (by decide : inWhitespace ≠ jsonOperator)
  have hstate := hp'.state
  have hout := hp'.emissions
  rw [hp.erase] at hstate hout
  obtain ⟨emission, rest, rfl, -, hrest⟩ := map_eq_cons_iff.1
    (hout.trans (congrArg Prod.snd (emitted_neutral hneutral)))
  obtain rfl := map_eq_nil_iff.1 hrest
  exact ⟨p', emission, hfeed, hp'.scanning,
    hstate.trans (congrArg Prod.fst (emitted_neutral hneutral))⟩

/-- **White space can break the framing**: between two empty lists, one space more than the longest
token may have makes the front end hand on a third list. -/
theorem space_framed : ∃ p after,
    feedChunks jsonMessageParserInit [[0xff], qobjectToJson half emptyList,
      List.replicate maxTokenSize 0x20 ++ [0x20], qobjectToJson half emptyList] =
        .ok (p, none :: after) ∧ after.length = 3 := by
  have hpd (d : Unit) (hd : Printable half d) : IsWord (floatToJson (half.format d)) :=
    isWord_float (formatted_half d) hd.1 hd.2
  have hnone (c : UInt8) (hc : c ∈ ([] : List UInt8)) : c ∈ spaces := absurd hc not_mem_nil
  obtain ⟨p₁, hfeed₁, hp₁⟩ := feed_ff listening_init.scanning
  obtain ⟨p₂, e₂, hfeed₂, hp₂, -⟩ := isMessage_emptyList.feed hpd hp₁ hnone (Nat.zero_le _)
  obtain ⟨p₃, e₃, hfeed₃, hp₃⟩ := feed_longSpaces hp₂
  obtain ⟨p₄, e₄, hfeed₄, -, -⟩ := isMessage_emptyList.feed hpd hp₃ hnone (Nat.zero_le _)
  exact ⟨p₄, [e₂, e₃, e₄], feedChunks_cons hfeed₁ (feedChunks_cons hfeed₂ (feedChunks_cons hfeed₃
    (feedChunks_cons hfeed₄ rfl))), rfl⟩

end QemuAndroid.Json
