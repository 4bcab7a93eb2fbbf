import QemuAndroid.Migration.Ram
import QemuAndroid.Migration.RoundTrip

/-!
# Coherence of the XBZRLE cache

A difference is encoded against the page in the cache and applied to the page of the
destination, so the two have to be the same when it is sent.  This holds in every run in
which no page of the cache is sent in the bulk stage.  In the completion stage the cache
is no longer updated; a page is sent at most once then.
-/

namespace QemuAndroid.Migration

open Lib Function List Option

variable {size addr : Nat}

/-! ## The destination -/

theorem received_append (dest : Nat → Page size) (sent sent' : List (Sent size)) :
    received dest (sent ++ sent') = (received dest sent).bind fun dest => received dest sent' := by
  induction sent generalizing dest with
  | nil => rfl
  | cons e sent ih =>
    simp only [cons_append, received, bind_eq_bind]
    cases e.message.load (dest e.addr) with
    | none => rfl
    | some page => exact ih _

/-- Each message gives the destination the contents that the page had on the source. -/
def Faithful (dest : Nat → Page size) (sent : List (Sent size)) : Prop :=
  ∀ pre e post, sent = pre ++ e :: post →
    ∃ dest', received dest pre = some dest' ∧ e.message.load (dest' e.addr) = some e.content

theorem faithful_nil (dest : Nat → Page size) : Faithful dest [] := by
  intro pre e post h
  simp at h

variable {sent : List (Sent size)}

theorem Faithful.concat {dest dest' : Nat → Page size} {e : Sent size}
    (h : Faithful dest sent) (hdest : received dest sent = some dest')
    (hload : e.message.load (dest' e.addr) = some e.content) : Faithful dest (sent ++ [e]) := by
  intro pre e' post heq
  rcases eq_nil_or_concat post with rfl | ⟨post', e'', rfl⟩
  · obtain ⟨rfl, he⟩ := append_inj' heq rfl
    obtain rfl : e = e' := by simpa using he
    exact ⟨dest', hdest, hload⟩
  · have heq' : sent ++ [e] = (pre ++ e' :: post') ++ [e''] := by simpa using heq
    exact h pre e' post' (append_inj' heq' rfl).1

theorem received_concat {dest dest' : Nat → Page size} {e : Sent size}
    (hdest : received dest sent = some dest')
    (hload : e.message.load (dest' e.addr) = some e.content) :
    received dest (sent ++ [e]) = some (update dest' e.addr e.content) := by
  simp [received_append, hdest, received, hload]

/-! ## Sending a page -/

/-- What saving a page does: the message gives the page's contents to a destination that has the
page of the cache, and the cache either has these contents too or, in the last stage, may
keep the old ones. -/
def SaveEffect (cache cache' : PageCache size) (addr : Nat) (lastStage : Bool) :
    Option (Page size × Message size) → Prop
  | none => ∀ a data, cache'.Holds a data → cache.Holds a data
  | some (content, message) =>
    (∀ host, (∀ data, cache.Holds addr data → host = data) → message.load host = some content) ∧
    ∀ a data, cache'.Holds a data →
      a = addr ∧ data = content ∨ (a = addr → lastStage = true) ∧ cache.Holds a data

variable {content : Page size}

theorem SaveEffect.page {cache cache' : PageCache size} {lastStage : Bool}
    (h : ∀ a data, cache'.Holds a data →
      a = addr ∧ data = content ∨ (a = addr → lastStage = true) ∧ cache.Holds a data) :
    SaveEffect cache cache' addr lastStage (some (content, .page content)) :=
  ⟨fun _ _ => rfl, h⟩

section Send

variable {cache : PageCache size} {addr : Nat}

theorem isZeroRange_iff {page : Page size} : isZeroRange page = true ↔ page = zeroTargetPage := by
  rw [isZeroRange, decide_eq_true_iff]
  constructor
  · intro h
    funext k
    rw [← Page.toBuffer_of_lt page k.isLt, h k k.isLt]
    rfl
  · rintro rfl k hk
    rw [Page.toBuffer_of_lt _ hk]
    rfl

variable (hsize : size ≤ 0x3fff) (hpos : 0 < size) (halign : size % 8 = 0)

include hsize hpos halign in
/-- The encoding of a page that the cache holds, as `save_xbzrle_page` uses it. -/
theorem encode_loadXbzrle (old data : Page size) : ∃ (len : Int) (buf : Buffer),
    xbzrleEncodeBuffer 8 old.toBuffer data.toBuffer size (fun _ => 0) size = some (len, buf) ∧
      (len = 0 → old = data) ∧
      (len ≠ -1 → loadXbzrle (len.toNat % 2 ^ 16) buf old = some data) := by
  obtain ⟨len, buf, henc, -, h⟩ :=
    xbzrleEncodeBuffer_spec old.toBuffer data.toBuffer (Nat.le_refl 8)
      hsize hpos halign (fun _ => 0) size
  refine ⟨len, buf, henc, ?_, ?_⟩
  · rintro rfl
    obtain h | ⟨d, hd, -, hsame, -⟩ := h
    · exact absurd h (by decide)
    · exact Page.eq_of_agreeOn (hsame (by omega))
  intro hne
  obtain h | ⟨d, rfl, hd, -, hdec⟩ := h
  · exact absurd h hne
  obtain ⟨i, buf', hbuf', hagree, -⟩ := hdec buf (.refl _ _ _)
  have hlen : (d : Int).toNat % 2 ^ 16 = d := by
    rw [Int.toNat_natCast, Nat.mod_eq_of_lt (by omega)]
  unfold loadXbzrle
  rw [hlen, if_neg (by omega), hbuf']
  simp only
  rw [if_neg (by omega), Page.ofBuffer_eq hagree]

include hsize hpos halign in
theorem saveXbzrlePage_spec (hwf : cache.Wf) (haddr : addr ≠ noAddr) (age : Nat)
    (lastStage alloc : Bool) (data data' : Page size) : ∃ cache' result,
      saveXbzrlePage cache addr age lastStage alloc data data' = some (cache', result) ∧ cache'.Wf ∧
        ∀ host, SaveEffect cache cache' addr lastStage (result.sent data host) := by
  obtain ⟨cache₁, hit, hcached⟩ : ∃ cache₁ hit, cacheIsCached cache addr age = (cache₁, hit) :=
    ⟨_, _, rfl⟩
  obtain ⟨hwf₁, hsame, hhit⟩ := cacheIsCached_spec hwf haddr hcached
  unfold saveXbzrlePage
  rw [hcached]
  cases hit with
  | true =>
    obtain ⟨old, hold⟩ := hhit.1 rfl
    have hold₁ := (hsame _ _).2 hold
    obtain ⟨len, buf, henc, hzero, hload⟩ := encode_loadXbzrle hsize hpos halign old data
    -- the cache after its page has been overwritten, or not, in the last stage
    have hset (content : Page size) : (setCachedData cache₁ addr content).Wf ∧
        ∀ a d, (setCachedData cache₁ addr content).Holds a d →
          a = addr ∧ d = content ∨ (a = addr → lastStage = true) ∧ cache.Holds a d := by
      obtain ⟨h₁, h₂⟩ := hold₁.setCachedData_spec hwf₁ content
      refine ⟨h₁, fun a d hd => (h₂ a d hd).imp_right ?_⟩
      exact fun h => ⟨fun heq => absurd heq h.1, (hsame a d).1 h.2⟩
    simp only [if_true, hold₁.2, henc, bind_eq_bind, bind_some]
    by_cases h₀ : len = 0
    · exact ⟨cache₁, .unmodified, by simp [h₀], hwf₁, fun _ a d => (hsame a d).1⟩
    by_cases h₁ : len = -1
    · cases lastStage with
      | true =>
        refine ⟨cache₁, .normal none, by simp [h₁], hwf₁, fun host => .page ?_⟩
        exact fun a d hd => .inr ⟨fun _ => rfl, (hsame a d).1 hd⟩
      | false =>
        obtain ⟨hwf₂, hholds⟩ := hset data'
        exact ⟨_, .normal (some data'), by simp [h₁], hwf₂, fun host => .page hholds⟩
    have hdelta (host : Page size) (hhost : ∀ d, cache.Holds addr d → host = d) :
        (Message.xbzrle (len.toNat % 2 ^ 16) buf).load host = some data := by
      rw [hhost old hold]
      exact hload h₁
    refine ⟨_, .delta _ buf, by simp [h₀, h₁]; rfl, ?_, fun host => ⟨hdelta, ?_⟩⟩
    · split
      · exact hwf₁
      · exact (hset data).1
    intro a d hd
    split at hd
    · next hlast => exact .inr ⟨fun _ => hlast, (hsame a d).1 hd⟩
    · exact (hset data).2 a d hd
  | false =>
    have hnot (d : Page size) : ¬ cache.Holds addr d := by
      intro hd
      exact absurd (hhit.2 ⟨d, hd⟩) (by decide)
    have hkeep (a : Nat) (d : Page size) (hd : cache.Holds a d) :
        (a = addr → lastStage = true) ∧ cache.Holds a d := by
      refine ⟨?_, hd⟩
      rintro rfl
      exact absurd hd (hnot d)
    by_cases hlast : lastStage = true
    · refine ⟨cache₁, .normal none, by simp [hlast], hwf₁, fun host => .page fun a d hd => .inr ?_⟩
      exact hkeep a d ((hsame a d).1 hd)
    obtain ⟨cache₂, ok, hins⟩ :
        ∃ cache₂ ok, cacheInsert cache₁ addr data age alloc = (cache₂, ok) :=
      ⟨_, _, rfl⟩
    obtain ⟨hwf₂, hok, hfail, hholds⟩ := cacheInsert_spec hwf₁ haddr hins
    cases ok with
    | true =>
      refine ⟨cache₂, .normal (some data), ?_, hwf₂, fun host => .page fun a d hd => ?_⟩
      · simp [hlast, hins, (hok rfl).2]
      · exact (hholds a d hd).imp_right fun h => hkeep a d ((hsame a d).1 h.2)
    | false =>
      obtain rfl := hfail rfl
      refine ⟨cache₂, .normal none, by simp [hlast, hins], hwf₂, fun host => .page fun a d hd => ?_⟩
      exact .inr (hkeep a d ((hsame a d).1 hd))

include hsize hpos halign in
/-- A page may be sent if it is not in the cache or this is not the bulk stage. -/
theorem ramSavePage_spec {s : RamState size} (hwf : s.cache.Wf) (haddr : addr ≠ noAddr)
    (hbulk : s.ramBulkStage = true → ∀ data, ¬ s.cache.Holds addr data) (alloc : Bool)
    (data₀ data₁ data₂ data₃ : Page size) : ∃ cache' result,
      ramSavePage s addr alloc data₀ data₁ data₂ data₃ = some (cache', result) ∧ cache'.Wf ∧
        SaveEffect s.cache cache' addr s.lastStage result := by
  -- in the bulk stage the cache stays as it is
  have hkeep (h : s.ramBulkStage = true) (content : Page size) (a : Nat) (d : Page size)
      (hd : s.cache.Holds a d) :
      a = addr ∧ d = content ∨ (a = addr → s.lastStage = true) ∧ s.cache.Holds a d := by
    refine .inr ⟨?_, hd⟩
    rintro rfl
    exact absurd hd (hbulk h d)
  unfold ramSavePage xbzrleCacheZeroPage
  split
  · next hzero =>
    obtain rfl := isZeroRange_iff.1 hzero
    split
    · next h => exact ⟨_, _, rfl, hwf, fun _ _ => rfl, hkeep h _⟩
    · obtain ⟨hwf', -, -, hholds⟩ := cacheInsert_spec hwf haddr (Prod.mk.eta).symm
      refine ⟨_, _, rfl, hwf', fun _ _ => rfl, fun a d hd => (hholds a d hd).imp_right ?_⟩
      exact fun h => ⟨fun heq => absurd heq h.1, h.2⟩
  split
  · next h => exact ⟨_, _, rfl, hwf, .page (hkeep h _)⟩
  · obtain ⟨cache', result, heq, hwf', heffect⟩ := saveXbzrlePage_spec hsize hpos halign hwf haddr
      s.bitmapSyncCount s.lastStage alloc data₁ data₂
    exact ⟨cache', _, by simp [heq], hwf', heffect data₃⟩

end Send

/-! ## Runs -/

/-- The page at `addr` has not been sent in the completion stage. -/
def NotCompleted (sent : List (Sent size)) (addr : Nat) : Prop :=
  ∀ e ∈ sent, e.lastStage = true → e.addr ≠ addr

theorem NotCompleted.of_append {sent' : List (Sent size)}
    (h : NotCompleted (sent ++ sent') addr) : NotCompleted sent addr :=
  fun e he => h e (mem_append_left _ he)

/-- The pages of the cache are those of the destination, which started with the pages `dest`. -/
structure Coherent (dest : Nat → Page size) (s : RamState size) : Prop where
  wf : s.cache.Wf
  /-- In the completion stage a page that has been sent is not sent again. -/
  completed : ∀ e ∈ s.sent, e.lastStage = true →
    s.lastStage = true ∧ s.migrationBitmap e.addr = false
  held : ∃ dest', received dest s.sent = some dest' ∧
    ∀ addr data, s.cache.Holds addr data → NotCompleted s.sent addr → dest' addr = data
  faithful : Faithful dest s.sent

namespace Coherent

variable {dest : Nat → Page size} {s s' : RamState size}

/-- A step that sends nothing, keeps to the pages of the cache and marks no page as dirty in
the completion stage. -/
theorem quiet (h : Coherent dest s) (hsent : s'.sent = s.sent) (hwf : s'.cache.Wf)
    (hholds : ∀ addr data, s'.cache.Holds addr data → s.cache.Holds addr data)
    (hstage : s.lastStage = true → s'.lastStage = true ∧
      ∀ addr, s.migrationBitmap addr = false → s'.migrationBitmap addr = false) :
    Coherent dest s' := by
  obtain ⟨dest', hdest, hheld⟩ := h.held
  constructor
  case wf => exact hwf
  case completed =>
    intro e he hlast
    rw [hsent] at he
    obtain ⟨h₁, h₂⟩ := h.completed e he hlast
    exact ⟨(hstage h₁).1, (hstage h₁).2 _ h₂⟩
  case held =>
    rw [hsent]
    exact ⟨dest', hdest, fun addr data hd => hheld addr data (hholds addr data hd)⟩
  case faithful =>
    rw [hsent]
    exact h.faithful

/-- A step that leaves the cache alone and only happens before the completion stage. -/
theorem early (h : Coherent dest s) (hearly : s.lastStage = false) (hsent : s'.sent = s.sent)
    (hcache : s'.cache = s.cache) : Coherent dest s' := by
  refine h.quiet hsent (hcache ▸ h.wf) (fun _ _ hd => hcache ▸ hd) fun hlast => ?_
  rw [hearly] at hlast
  exact absurd hlast (by decide)

theorem send (h : Coherent dest s) {cache' : PageCache size}
    {message : Message size} (hwf : cache'.Wf)
    (heffect : SaveEffect s.cache cache' addr s.lastStage (some (content, message)))
    (hnot : ∀ data, s.cache.Holds addr data → NotCompleted s.sent addr)
    (hcache : s'.cache = cache') (hstage : s'.lastStage = s.lastStage)
    (hbitmap : s'.migrationBitmap = update s.migrationBitmap addr false)
    (hsent : s'.sent = s.sent ++ [⟨addr, s.lastStage, content, message⟩]) : Coherent dest s' := by
  obtain ⟨dest', hdest, hheld⟩ := h.held
  obtain ⟨hload, hholds⟩ := heffect
  have hload' : message.load (dest' addr) = some content :=
    hload _ fun data hd => hheld addr data hd (hnot data hd)
  constructor
  case wf => exact hcache ▸ hwf
  case completed =>
    intro e he hlast
    rw [hstage, hbitmap]
    rw [hsent, mem_append, mem_singleton] at he
    rcases he with he | rfl
    · obtain ⟨h₁, h₂⟩ := h.completed e he hlast
      refine ⟨h₁, ?_⟩
      rw [update_apply, h₂, ite_self]
    · exact ⟨hlast, update_self ..⟩
  case held =>
    rw [hsent]
    refine ⟨_, received_concat hdest hload', fun a data hd hdone => ?_⟩
    rw [hcache] at hd
    rcases hholds a data hd with ⟨rfl, rfl⟩ | ⟨hlast, hd⟩
    · exact update_self ..
    -- the page sent last is still in the cache: this is the completion stage, where it is done
    have hne : a ≠ addr := by
      rintro rfl
      exact hdone _ (mem_append_right _ (mem_singleton_self _)) (hlast rfl) rfl
    rw [update_of_ne hne]
    exact hheld a data hd hdone.of_append
  case faithful =>
    rw [hsent]
    exact h.faithful.concat hdest hload'

end Coherent

/-- In the bulk stage only pages that are not in the cache are sent. -/
def BulkSendsUncached (s : RamState size) : RamEvent size → Prop
  | .send addr .. => s.ramBulkStage = true → (cacheGetByAddr s.cache addr).itAddr ≠ addr
  | _ => True

instance (s : RamState size) : (e : RamEvent size) → Decidable (BulkSendsUncached s e)
  | .send addr .. =>
    inferInstanceAs (Decidable (_ = true → (cacheGetByAddr s.cache addr).itAddr ≠ addr))
  | .write .. | .sync | .roundEnd | .ramListChange | .iterate | .resize .. | .complete =>
    inferInstanceAs (Decidable True)

section Runs

variable {dest : Nat → Page size} {s s' : RamState size}

theorem coherent_init (hinit : (ramMachine size).init s) : Coherent dest s := by
  obtain ⟨ram, version, cacheSize, h⟩ := hinit
  obtain ⟨cache, hcache, h⟩ := bind_eq_some_iff.1 h
  obtain rfl := some.inj h
  obtain ⟨hwf, hempty⟩ := cacheInit_spec hcache
  constructor
  case wf => exact hwf
  case completed => exact fun e he => absurd he (not_mem_nil)
  case held => exact ⟨dest, rfl, fun addr data hd => absurd hd (hempty addr data)⟩
  case faithful => exact faithful_nil dest

variable (hsize : size ≤ 0x3fff) (hpos : 0 < size) (halign : size % 8 = 0)

include hsize hpos halign in
theorem coherent_sendPage (h : Coherent dest s) {alloc : Bool}
    {w₁ w₂ w₃ : Option (Page size)} (haddr : addr ≠ noAddr)
    (hdirty : s.ramBulkStage = true ∨ s.migrationBitmap addr = true)
    (hok : s.ramBulkStage = true → (cacheGetByAddr s.cache addr).itAddr ≠ addr)
    (hstep : sendPage s addr alloc w₁ w₂ w₃ = some s') : Coherent dest s' := by
  have hbulk (hb : s.ramBulkStage = true) (data : Page size) : ¬ s.cache.Holds addr data :=
    fun hd => hok hb hd.1
  -- a page of the cache is sent because it is dirty, so it was not sent in the completion stage
  have hnot (data : Page size) (hd : s.cache.Holds addr data) : NotCompleted s.sent addr := by
    rintro e he hlast rfl
    rcases hdirty with hb | hdirty
    · exact hbulk hb data hd
    · rw [(h.completed e he hlast).2] at hdirty
      exact absurd hdirty (by decide)
  obtain ⟨⟨_, _⟩, hsave, hstep⟩ := bind_eq_some_iff.1 hstep
  obtain ⟨cache', result, hsave', hwf, heffect⟩ :=
    ramSavePage_spec hsize hpos halign h.wf haddr hbulk alloc (s.ram addr) (w₁.getD (s.ram addr))
      (w₂.getD (w₁.getD (s.ram addr)))
    (w₃.getD (w₂.getD (w₁.getD (s.ram addr))))
  obtain ⟨rfl, rfl⟩ := Prod.mk.inj (some.inj (hsave'.symm.trans hsave))
  cases result with
  | none =>
    obtain rfl := some.inj hstep
    refine h.quiet rfl hwf heffect fun hlast => ⟨hlast, fun a ha => ?_⟩
    simp only [update_apply, ha, ite_self]
  | some sent =>
    obtain rfl := some.inj hstep
    exact h.send hwf heffect hnot rfl rfl rfl rfl

theorem coherent_resize (h : Coherent dest s) (newSize : Nat) (alloc : Bool) :
    Coherent dest (xbzrleCacheResize s newSize alloc) := by
  unfold xbzrleCacheResize
  split
  · exact h
  split
  · exact h.quiet rfl h.wf (fun _ _ hd => hd) fun hlast => ⟨hlast, fun _ ha => ha⟩
  split
  · exact h
  · next cache hcache =>
    obtain ⟨hwf, hempty⟩ := cacheInit_spec hcache
    refine h.quiet rfl hwf (fun addr data hd => absurd hd (hempty addr data)) fun hlast => ?_
    exact ⟨hlast, fun _ ha => ha⟩

include hsize hpos halign in
theorem coherent_step {e : RamEvent size} (h : Coherent dest s) (hok : BulkSendsUncached s e)
    (hstep : ramStep s e = some s') : Coherent dest s' := by
  cases e with
  | write _ _ | sync | complete =>
    obtain ⟨hearly, rfl⟩ := by simpa [ramStep] using hstep
    exact h.early hearly rfl rfl
  | send addr alloc w₁ w₂ w₃ =>
    obtain ⟨⟨-, hend, hdirty, -⟩, hstep⟩ := ite_none_right_eq_some.1 hstep
    refine coherent_sendPage hsize hpos halign h ?_ hdirty hok hstep
    rintro rfl
    unfold noAddr at hend
    omega
  | roundEnd | ramListChange =>
    obtain rfl := some.inj hstep
    exact h.quiet rfl h.wf (fun _ _ hd => hd) fun hlast => ⟨hlast, fun _ ha => ha⟩
  | iterate =>
    obtain ⟨hearly, hstep⟩ := ite_none_left_eq_some.1 hstep
    have hearly' := Bool.eq_false_iff.2 hearly
    split at hstep <;> obtain rfl := some.inj hstep
    · exact h.early hearly' rfl rfl
    · exact h
  | resize newSize alloc =>
    obtain rfl := some.inj hstep
    exact coherent_resize h newSize alloc

end Runs

/-- The size of a page is a power of two, `2 ^ p` with `p` the `TARGET_PAGE_BITS`.  In every run in
which no page of the cache is sent in the bulk stage, everything that was sent can be applied; a
page of the cache that has not been sent in the completion stage is the destination's; and each
message, differences included, gives the destination the contents the page had on the source. -/
theorem xbzrle_cache_coherent {p : Nat} (hp : 3 ≤ p) (hp' : p ≤ 13) (dest : Nat → Page (2 ^ p))
    (s : RamState (2 ^ p)) (hs : (ramMachine (2 ^ p)).Reach BulkSendsUncached s) :
    (∃ dest', received dest s.sent = some dest' ∧
      ∀ addr data, s.cache.Holds addr data → NotCompleted s.sent addr → dest' addr = data) ∧
    Faithful dest s.sent := by
  have hsize : 2 ^ p ≤ 0x3fff := (Nat.pow_le_pow_right (by decide) hp').trans (by decide)
  have halign : 2 ^ p % 8 = 0 := Nat.mod_eq_zero_of_dvd (pow_dvd_pow 2 hp)
  have hcoherent : Coherent dest s :=
    hs.invariant (fun _ => coherent_init) fun _ _ _ _ h hok hstep =>
    coherent_step hsize (Nat.two_pow_pos p) halign h hok hstep
  exact ⟨hcoherent.held, hcoherent.faithful⟩

/-! ## A page that is sent in the completion stage -/

def bytePage (b : UInt8) : Page (2 ^ 10) := fun k => if k.val = 0 then b else 0

def rewrittenSetup : Option (RamState (2 ^ 10)) := ramSaveSetup (fun _ => bytePage 1) 0 4096 true

/-- A page is sent in the bulk stage, written and sent, and written before the completion stage. -/
def rewrittenPage : List (RamEvent (2 ^ 10)) :=
  [.send 0 true none none none, .roundEnd, .write 0 (bytePage 2), .sync,
    .send 0 true none none none, .write 0 (bytePage 3), .complete, .send 0 true none none none]

def RewrittenEnd (s : RamState (2 ^ 10)) : Prop :=
  s.sent.length = 3 ∧ (cacheGetByAddr s.cache 0).itAddr = 0 ∧
    ((getCachedData s.cache 0).map fun data => data 0) = some 2 ∧
    ((received (fun _ => zeroTargetPage) s.sent).map fun dest => dest 0 0) = some 3
deriving Decidable

theorem rewrittenPage_run : ∃ s₀ s, (ramMachine (2 ^ 10)).init s₀ ∧
    (ramMachine (2 ^ 10)).Meets BulkSendsUncached s₀ rewrittenPage ∧
    (ramMachine (2 ^ 10)).run s₀ rewrittenPage = some s ∧ RewrittenEnd s := by
  have h : ∃ s₀ ∈ rewrittenSetup, (ramMachine (2 ^ 10)).Meets BulkSendsUncached s₀ rewrittenPage ∧
      ∃ s ∈ (ramMachine (2 ^ 10)).run s₀ rewrittenPage, RewrittenEnd s := by decide +kernel
  obtain ⟨s₀, hs₀, hmeets, s, hs, hend⟩ := h
  exact ⟨s₀, s, ⟨_, _, _, hs₀⟩, hmeets, hs, hend⟩

/-- In the completion stage the cache is not updated: the page in it is not the destination's. -/
theorem cache_behind_destination : ∃ s, (ramMachine (2 ^ 10)).Reachable s ∧
    ∃ data dest', s.cache.Holds 0 data ∧
      received (fun _ => zeroTargetPage) s.sent = some dest' ∧ dest' 0 ≠ data := by
  obtain ⟨s₀, s, hinit, -, hrun, -, haddr, hcached, hreceived⟩ := rewrittenPage_run
  obtain ⟨data, hdata, hdata₀⟩ := map_eq_some_iff.1 hcached
  obtain ⟨dest', hdest, hdest₀⟩ := map_eq_some_iff.1 hreceived
  refine ⟨s, .of_run (.init hinit) hrun, data, dest', ⟨haddr, hdata⟩, hdest, ?_⟩
  intro heq
  rw [heq, hdata₀] at hdest₀
  exact absurd hdest₀ (by decide)

theorem xbzrle_cache_coherent_rewrittenPage : ∃ s : RamState (2 ^ 10),
    (ramMachine (2 ^ 10)).Reach BulkSendsUncached s ∧ s.sent.length = 3 ∧
    (∃ dest', received (fun _ => zeroTargetPage) s.sent = some dest' ∧
      ∀ addr data, s.cache.Holds addr data → NotCompleted s.sent addr → dest' addr = data) ∧
    Faithful (fun _ => zeroTargetPage) s.sent := by
  obtain ⟨s₀, s, hinit, hmeets, hrun, hlength, -⟩ := rewrittenPage_run
  have hs := Machine.Reach.of_run (.init hinit) hmeets hrun
  exact ⟨s, hs, hlength, xbzrle_cache_coherent (by decide) (by decide) _ s hs⟩

end QemuAndroid.Migration
