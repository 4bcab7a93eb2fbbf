import QemuAndroid.Lib.Machine

/-!
# Timer lists

`qemu-timer.c` keeps the timers that are armed in a list sorted by `expire_time`; the `expire_time`
of any other timer is -1.  A timer is armed at a deadline that is not negative, but its place is
searched with the deadline that the caller gave.  `timerlist_run_timers` takes the timers that are
due out of the list one by one, and calls each without the lock, so that a callback may change the
list in any way.
-/

namespace QemuAndroid.Timer

open Lib Function List Option

variable {α : Type} [DecidableEq α]

/-! ## The list -/

/-- A `QEMUTimerList`, with the `expire_time` of each timer. -/
structure TimerList (α : Type) where
  activeTimers : List α
  expireTime : α → Int

/-- A call that changes the list. -/
inductive Edit (α : Type)
  | mod (ts : α) (expireTime : Int)
  | anticipate (ts : α) (expireTime : Int)
  | del (ts : α)
deriving DecidableEq

namespace TimerList

def idle : TimerList α := ⟨[], fun _ => -1⟩

variable (tl : TimerList α)

def timerExpiredNs (timerHead : Option α) (currentTime : Int) : Bool :=
  timerHead.any fun t => tl.expireTime t ≤ currentTime

def timerDelLocked (ts : α) : TimerList α where
  activeTimers := tl.activeTimers.erase ts
  expireTime := update tl.expireTime ts (-1)

/-- `timer_mod_ns_locked`, and whether the timer is now the first one. -/
def timerModNsLocked (ts : α) (expireTime : Int) : TimerList α × Bool where
  fst :=
    { activeTimers := tl.activeTimers.orderedInsert
        (fun _ t => tl.timerExpiredNs (some t) expireTime = false) ts
      expireTime := update tl.expireTime ts (max expireTime 0) }
  snd := !tl.timerExpiredNs tl.activeTimers.head? expireTime

/-- `timer_mod_ns`, and whether it calls `timerlist_rearm`. -/
def timerModNs (ts : α) (expireTime : Int) : TimerList α × Bool :=
  (tl.timerDelLocked ts).timerModNsLocked ts expireTime

/-- When `timer_mod_anticipate_ns` arms its timer. -/
def Anticipates (ts : α) (expireTime : Int) : Prop :=
  tl.expireTime ts = -1 ∨ tl.expireTime ts > expireTime
deriving Decidable

/-- `timer_mod_anticipate_ns`, and whether it calls `timerlist_rearm`. -/
def timerModAnticipateNs (ts : α) (expireTime : Int) : TimerList α × Bool :=
  if tl.Anticipates ts expireTime then
    (if tl.expireTime ts ≠ -1 then tl.timerDelLocked ts else tl).timerModNsLocked ts expireTime
  else (tl, false)

def edit : Edit α → TimerList α
  | .mod ts expireTime => (tl.timerModNs ts expireTime).1
  | .anticipate ts expireTime => (tl.timerModAnticipateNs ts expireTime).1
  | .del ts => tl.timerDelLocked ts

def edits (eds : List (Edit α)) : TimerList α := eds.foldl edit tl

/-- What `timerlist_run_timers` does under the lock: the first timer, if it is due, is taken out of
the list. -/
def expireHead (currentTime : Int) : Option (α × TimerList α) :=
  match tl.activeTimers with
  | [] => none
  | ts :: next =>
    if tl.timerExpiredNs (some ts) currentTime then
      some (ts, ⟨next, update tl.expireTime ts (-1)⟩)
    else none

/-- The loop of `timerlist_run_timers`: the `k`-th callback makes the calls `script k`.  It returns
the timers that it has run, with these calls. -/
def runTimers (currentTime : Int) (script : Nat → List (Edit α)) :
    Nat → Nat → TimerList α → Option (List (α × List (Edit α)) × TimerList α)
  | 0, _, _ => none
  | fuel + 1, k, tl =>
    match tl.expireHead currentTime with
    | none => some ([], tl)
    | some (ts, tl') =>
      (runTimers currentTime script fuel (k + 1) (tl'.edits (script k))).map fun r =>
        ((ts, script k) :: r.1, r.2)

/-- `timerlist_run_timers`, for a clock that is enabled or not. -/
def timerlistRunTimers (enabled : Bool) (currentTime : Int) (script : Nat → List (Edit α))
    (fuel : Nat) (tl : TimerList α) : Option (List (α × List (Edit α)) × TimerList α) :=
  if enabled then runTimers currentTime script fuel 0 tl else some ([], tl)

end TimerList

/-- What happens to a list under its lock: a call, or a turn of `timerlist_run_timers` at a time. -/
inductive Event (α : Type)
  | call (e : Edit α)
  | turn (currentTime : Int)

def timerMachine (α : Type) [DecidableEq α] : Machine (TimerList α) (Event α) where
  init tl := tl = TimerList.idle
  step tl
    | .call e => some (tl.edit e)
    | .turn currentTime => (tl.expireHead currentTime).map Prod.snd

/-! ## The invariant -/

namespace TimerList

/-- The list is sorted, and it consists of the timers that are armed. -/
structure Ok (tl : TimerList α) : Prop where
  sorted : tl.activeTimers.Pairwise fun t t' => tl.expireTime t ≤ tl.expireTime t'
  nodup : tl.activeTimers.Nodup
  mem_iff : ∀ t, t ∈ tl.activeTimers ↔ tl.expireTime t ≠ -1
  nonneg : ∀ t ∈ tl.activeTimers, 0 ≤ tl.expireTime t

variable {tl tl' : TimerList α} {ts t : α} {e now : Int} {eds : List (Edit α)}

theorem pairwise_update {l : List α} {f : α → Int} (h : l.Pairwise fun t t' => f t ≤ f t') (v : Int)
    (hts : ts ∉ l) : l.Pairwise fun t t' => update f ts v t ≤ update f ts v t' := by
  refine h.imp_of_mem fun ht ht' hle => ?_
  rwa [update_of_ne (ne_of_mem_of_not_mem ht hts), update_of_ne (ne_of_mem_of_not_mem ht' hts)]

theorem Ok.timerDelLocked (h : tl.Ok) (ts : α) : (tl.timerDelLocked ts).Ok := by
  obtain ⟨hsorted, hnodup, hmem, hnonneg⟩ := h
  refine ⟨pairwise_update (hsorted.sublist erase_sublist) _ (by grind), hnodup.erase ts, ?_, ?_⟩
  · simp only [TimerList.timerDelLocked, update_apply]
    grind
  · simp only [TimerList.timerDelLocked, update_apply]
    grind

/-- The timer that a turn takes out of the list is due, and no other has to be run before. -/
theorem Ok.expireHead (h : tl.Ok) (hhead : tl.expireHead now = some (ts, tl')) :
    tl'.Ok ∧ tl'.expireTime = update tl.expireTime ts (-1) ∧ ts ∈ tl.activeTimers ∧
      tl.expireTime ts ≤ now ∧ ∀ t ∈ tl.activeTimers, tl.expireTime ts ≤ tl.expireTime t := by
  obtain ⟨hsorted, hnodup, hmem, hnonneg⟩ := h
  unfold TimerList.expireHead at hhead
  cases hl : tl.activeTimers with
  | nil => grind
  | cons head next =>
    simp only [hl, timerExpiredNs, any_some, decide_eq_true_eq,
      ite_none_right_eq_some, some.injEq, Prod.mk.injEq] at hhead
    obtain ⟨hdue, rfl, rfl⟩ := hhead
    rw [hl, pairwise_cons] at hsorted
    refine ⟨⟨pairwise_update hsorted.2 _ (by grind), by grind, ?_, ?_⟩, rfl, by grind, hdue,
      by grind⟩
    · grind
    · grind

/-- The place that is found with the deadline of the caller is the right one for the deadline that
the timer gets. -/
theorem sorted_orderedInsert {l : List α} {f : α → Int} (h : l.Pairwise fun t t' => f t ≤ f t')
    (hpos : ∀ t ∈ l, 0 ≤ f t) (hts : ts ∉ l) :
    (l.orderedInsert (fun _ t => decide (f t ≤ e) = false) ts).Pairwise fun t t' =>
      update f ts (max e 0) t ≤ update f ts (max e 0) t' := by
  induction l with
  | nil => exact pairwise_singleton _ _
  | cons t l ih =>
    have hl := pairwise_cons.1 h
    rw [orderedInsert]
    split
    · refine pairwise_cons.2 ⟨fun t' ht' => ?_, pairwise_update h _ hts⟩
      grind
    · refine pairwise_cons.2 ⟨fun t' ht' => ?_, ih hl.2 (by grind) (by grind)⟩
      simp only [update_apply, mem_orderedInsert] at ht' ⊢
      grind

theorem Ok.timerModNsLocked (h : tl.Ok) (hts : tl.expireTime ts = -1) (e : Int) :
    (tl.timerModNsLocked ts e).1.Ok := by
  obtain ⟨hsorted, hnodup, hmem, hnonneg⟩ := h
  have hnot : ts ∉ tl.activeTimers := by grind
  refine ⟨sorted_orderedInsert hsorted hnonneg hnot, ?_, ?_, ?_⟩
  · exact (perm_orderedInsert _ ts _).nodup_iff.2 (nodup_cons.2 ⟨hnot, hnodup⟩)
  · simp only [TimerList.timerModNsLocked, mem_orderedInsert, update_apply]
    grind
  · simp only [TimerList.timerModNsLocked, mem_orderedInsert, update_apply]
    grind

theorem timerDelLocked_self (tl : TimerList α) (ts : α) :
    (tl.timerDelLocked ts).expireTime ts = -1 := update_self _ _ _

/-- Where `timer_mod_anticipate_ns` arms its timer, it does what `timer_mod_ns` does. -/
theorem Ok.anticipate (h : tl.Ok) (ts : α) (e : Int) : tl.timerModAnticipateNs ts e =
    if tl.Anticipates ts e then tl.timerModNs ts e else (tl, false) := by
  unfold timerModAnticipateNs timerModNs
  by_cases hts : tl.expireTime ts = -1
  · have hnot : ts ∉ tl.activeTimers := fun hin => (h.mem_iff ts).1 hin hts
    rw [if_neg (not_not.2 hts), TimerList.timerDelLocked, erase_of_not_mem hnot, ← hts,
      update_eq_self]
  · rw [if_pos hts]

theorem Ok.edit (h : tl.Ok) (ed : Edit α) : (tl.edit ed).Ok := by
  have hmod : ∀ ts e, (tl.timerModNs ts e).1.Ok := fun ts e =>
    (h.timerDelLocked ts).timerModNsLocked (timerDelLocked_self tl ts) e
  cases ed with
  | mod ts e => exact hmod ts e
  | anticipate ts e =>
    rw [TimerList.edit, h.anticipate]
    split
    · exact hmod ts e
    · exact h
  | del ts => exact h.timerDelLocked ts

theorem ok_of_reachable (h : (timerMachine α).Reachable tl) : tl.Ok := by
  refine h.invariant ?_ ?_
  · rintro tl rfl
    exact ⟨List.Pairwise.nil, nodup_nil, fun t => by simp [idle], nofun⟩
  rintro tl (ed | now) tl' - hok - hstep
  · obtain rfl := some.inj hstep
    exact hok.edit ed
  · obtain ⟨⟨ts, tl₁⟩, hhead, rfl⟩ := map_eq_some_iff.1 hstep
    exact (hok.expireHead hhead).1

/-- `timer_mod_ns` calls `timerlist_rearm` for the first timer of the list, and for no other. -/
theorem Ok.rearm_iff (h : tl.Ok) (ts : α) (e : Int) :
    (tl.timerModNs ts e).2 = true ↔ (tl.timerModNs ts e).1.activeTimers.head? = some ts := by
  have hnot : ts ∉ (tl.timerDelLocked ts).activeTimers := fun hin =>
    ((h.timerDelLocked ts).mem_iff ts).1 hin (timerDelLocked_self tl ts)
  unfold timerModNs TimerList.timerModNsLocked
  cases hl : (tl.timerDelLocked ts).activeTimers with
  | nil => simp [timerExpiredNs]
  | cons t l =>
    grind

/-! ## A run -/

def Due (tl : TimerList α) (now : Int) (t : α) : Prop :=
  tl.expireTime t ≠ -1 ∧ tl.expireTime t ≤ now

def arms (tl : TimerList α) : Edit α → Option Int
  | .mod _ e => some (max e 0)
  | .anticipate ts e => if tl.Anticipates ts e then some (max e 0) else none
  | .del _ => none

/-- The calls arm no timer at or before the time. -/
def ArmLater (now : Int) : TimerList α → List (Edit α) → Prop
  | _, [] => True
  | tl, ed :: eds => (∀ d ∈ tl.arms ed, now < d) ∧ ArmLater now (tl.edit ed) eds

/-- The first callbacks of a run arm no timer at or before its time. -/
def RunArmsLater (now : Int) (script : Nat → List (Edit α)) : Nat → Nat → TimerList α → Prop
  | 0, _, _ => True
  | n + 1, k, tl => ∀ r ∈ tl.expireHead now,
      ArmLater now r.2 (script k) ∧ RunArmsLater now script n (k + 1) (r.2.edits (script k))

/-- The call deletes or postpones the timer. -/
def Moves (t : α) : Edit α → Prop
  | .mod ts _ | .del ts => ts = t
  | .anticipate _ _ => False

/-- Some callback of the list deletes or postpones the timer. -/
def Moved (t : α) (log : List (α × List (Edit α))) : Prop := ∃ turn ∈ log, ∃ ed ∈ turn.2, Moves t ed

/-- What one run does: in the order of their deadlines it runs each timer that was due and that no
callback before has deleted or postponed, and no other. -/
structure Fired (now : Int) (tl : TimerList α) (log : List (α × List (Edit α)))
    (tl' : TimerList α) : Prop where
  due : ∀ t ∈ log.map Prod.fst, tl.Due now t
  once : (log.map Prod.fst).Nodup
  ordered : (log.map Prod.fst).Pairwise fun t t' => tl.expireTime t ≤ tl.expireTime t'
  exact : ∀ t, tl.Due now t →
    (∃ before eds after, log = before ++ (t, eds) :: after ∧ ¬Moved t before) ∨
      t ∉ log.map Prod.fst ∧ Moved t log
  armed : ∀ t, tl.expireTime t ≠ -1 → t ∉ log.map Prod.fst → (∀ turn ∈ log, .del t ∉ turn.2) →
    tl'.expireTime t ≠ -1
  rest : ∀ t, ¬tl'.Due now t

/-- What a call that arms nothing at or before the time does to the timers that are due. -/
theorem Ok.edit_due (h : tl.Ok) {ed : Edit α} (hlater : ∀ d ∈ tl.arms ed, now < d) (t : α) :
    ((tl.edit ed).Due now t ↔ tl.Due now t ∧ ¬Moves t ed) ∧
      ((tl.edit ed).Due now t → (tl.edit ed).expireTime t = tl.expireTime t) ∧
      (tl.expireTime t ≠ -1 → ed ≠ .del t → (tl.edit ed).expireTime t ≠ -1) := by
  have hmod : ∀ ts e, (tl.timerModNs ts e).1.expireTime t =
      if t = ts then max e 0 else tl.expireTime t := by
    intro ts e
    simp only [timerModNs, TimerList.timerModNsLocked, TimerList.timerDelLocked,
      update_idem, update_apply]
  have hpos := h.nonneg t
  rw [h.mem_iff] at hpos
  unfold Due
  cases ed with
  | mod ts e =>
    simp only [arms, mem_def, some.injEq, forall_eq'] at hlater
    simp only [TimerList.edit, hmod, Moves]
    grind
  | anticipate ts e =>
    simp only [TimerList.edit, h.anticipate]
    by_cases hant : tl.Anticipates ts e
    · simp only [arms, hant, if_true, mem_def, some.injEq, forall_eq'] at hlater
      simp only [if_pos hant, hmod, Moves]
      unfold Anticipates at hant
      grind
    · simp [hant, Moves]
  | del ts =>
    simp only [TimerList.edit, TimerList.timerDelLocked, update_apply, Moves]
    grind

/-- The same for the calls of a callback. -/
theorem Ok.edits_due (h : tl.Ok) (hlater : ArmLater now tl eds) (t : α) : (tl.edits eds).Ok ∧
      ((tl.edits eds).Due now t ↔ tl.Due now t ∧ ¬∃ ed ∈ eds, Moves t ed) ∧
      ((tl.edits eds).Due now t → (tl.edits eds).expireTime t = tl.expireTime t) ∧
      (tl.expireTime t ≠ -1 → .del t ∉ eds → (tl.edits eds).expireTime t ≠ -1) := by
  induction eds generalizing tl with
  | nil => simp [edits, h]
  | cons ed eds ih =>
    have hone := h.edit_due hlater.1 t
    have hrest := ih (h.edit ed) hlater.2
    grind [edits]

/-- The loop stops when no timer is due. -/
theorem Ok.not_due (h : tl.Ok) (hhead : tl.expireHead now = none) (t : α) : ¬tl.Due now t := by
  obtain ⟨hsorted, -, hmem, -⟩ := h
  unfold TimerList.expireHead at hhead
  unfold Due
  cases hl : tl.activeTimers with
  | nil => grind
  | cons head next =>
    simp only [hl, timerExpiredNs, any_some, decide_eq_true_eq, ite_eq_right_iff,
      reduceCtorEq, imp_false] at hhead
    rw [hl, pairwise_cons] at hsorted
    grind

theorem Ok.due_head (h : tl.Ok) {r : α × TimerList α} (hhead : tl.expireHead now = some r) :
    tl.Due now r.1 := by
  obtain ⟨-, -, hmem, hle, -⟩ := h.expireHead (show _ = some (r.1, r.2) from hhead)
  exact ⟨(h.mem_iff r.1).1 hmem, hle⟩

variable {script : Nat → List (Edit α)}

theorem Ok.runTimers_none (h : tl.Ok) (hhead : tl.expireHead now = none)
    (n k : Nat) : ∃ log tl', (∀ fuel, n < fuel → runTimers now script fuel k tl = some (log, tl')) ∧
      Fired now tl log tl' := by
  have hnone := h.not_due hhead
  refine ⟨[], tl, fun fuel hfuel => ?_, ⟨nofun, .nil, .nil, by grind, by grind, hnone⟩⟩
  obtain ⟨fuel, rfl⟩ := Nat.exists_eq_succ_of_ne_zero (Nat.ne_zero_of_lt hfuel)
  rw [runTimers, hhead]

/-- Each turn takes a timer out of those that are due and adds none, so that the loop ends. -/
theorem Ok.runTimers_fired {n k : Nat} {l : List α} (h : tl.Ok)
    (hl : l.length ≤ n) (hcover : ∀ t, tl.Due now t → t ∈ l)
    (hlater : ∀ m, RunArmsLater now script m k tl) :
    ∃ log tl', (∀ fuel, n < fuel → runTimers now script fuel k tl = some (log, tl')) ∧
      Fired now tl log tl' := by
  induction n generalizing tl k l with
  | zero =>
    refine h.runTimers_none (eq_none_iff_forall_ne_some.2 fun r hr => ?_) 0 k
    have := hcover r.1 (h.due_head hr)
    grind
  | succ n ih =>
    cases hhead : tl.expireHead now with
    | none => exact h.runTimers_none hhead (n + 1) k
    | some r =>
      obtain ⟨ts, tl₁⟩ := r
      obtain ⟨hok₁, hexp, -, -, hfirst⟩ := h.expireHead hhead
      have hts : tl.Due now ts := h.due_head hhead
      have hnext := hok₁.edits_due (hlater 1 (ts, tl₁) hhead).1
      -- a timer that is due after the callback was due before, with the same deadline
      have hback : ∀ t, (tl₁.edits (script k)).Due now t → t ≠ ts ∧
          tl.Due now t ∧ (tl₁.edits (script k)).expireTime t = tl.expireTime t := by
        intro t hd
        have hd₁ := ((hnext t).2.1.1 hd).1
        have heq := (hnext t).2.2.1 hd
        simp only [Due, hexp, update_apply] at hd₁ heq ⊢
        grind
      have hforth : ∀ t, t ≠ ts → tl.Due now t → (¬∃ ed ∈ script k, Moves t ed) →
          (tl₁.edits (script k)).Due now t := by
        intro t hne hd hmoves
        refine (hnext t).2.1.2 ⟨?_, hmoves⟩
        simpa only [Due, hexp, update_of_ne hne] using hd
      obtain ⟨log, tl', hrun, hdue, honce, hordered, hexact, harmed, hrest⟩ :=
        @ih _ (k + 1) (l.erase ts) (hnext ts).1 (by grind)
          (fun t hd => (mem_erase_of_ne (hback t hd).1).2 (hcover t (hback t hd).2.1)) fun m =>
          (hlater (m + 1) (ts, tl₁) hhead).2
      refine ⟨(ts, script k) :: log, tl', fun fuel hfuel => ?_, ⟨?_, ?_, ?_, fun t hd => ?_,
        fun t hne hnot hdel => ?_, hrest⟩⟩
      · obtain ⟨fuel, rfl⟩ := Nat.exists_eq_succ_of_ne_zero (Nat.ne_zero_of_lt hfuel)
        simp only [runTimers, hhead, hrun fuel (Nat.lt_of_succ_lt_succ hfuel), map_some]
      · exact forall_mem_cons.2 ⟨hts, fun t ht => (hback t (hdue t ht)).2.1⟩
      · exact nodup_cons.2 ⟨fun hin => (hback ts (hdue ts hin)).1 rfl, honce⟩
      · refine pairwise_cons.2 ⟨fun t ht => ?_, hordered.imp_of_mem fun ht ht' hle => ?_⟩
        · exact hfirst t ((h.mem_iff t).2 (hback t (hdue t ht)).2.1.1)
        · rwa [(hback _ (hdue _ ht)).2.2, (hback _ (hdue _ ht')).2.2] at hle
      · by_cases heq : t = ts
        · exact .inl ⟨[], script k, log, by rw [heq]; rfl, by simp [Moved]⟩
        by_cases hmoves : ∃ ed ∈ script k, Moves t ed
        · refine .inr ⟨fun hin => ?_, (ts, script k), mem_cons_self, hmoves⟩
          rcases mem_cons.1 hin with hin | hin
          · exact heq hin
          · exact ((hnext t).2.1.1 (hdue t hin)).2 hmoves
        rcases hexact t (hforth t heq hd hmoves) with
          ⟨before, eds, after, rfl, hnot⟩ | ⟨hnot, turn, hturn, hm⟩
        · refine .inl ⟨(ts, script k) :: before, eds, after, rfl, ?_⟩
          rintro ⟨turn, hturn, hm⟩
          rcases mem_cons.1 hturn with rfl | hturn
          · exact hmoves hm
          · exact hnot ⟨turn, hturn, hm⟩
        · refine .inr ⟨fun hin => ?_, turn, .tail _ hturn, hm⟩
          exact (mem_cons.1 hin).elim heq hnot
      · obtain ⟨hne', hnot'⟩ := not_or.1 (mt mem_cons.2 hnot)
        refine harmed t ((hnext t).2.2.2 ?_ (hdel _ mem_cons_self)) hnot' fun turn hturn =>
          hdel turn (.tail _ hturn)
        rwa [hexp, update_of_ne hne']

end TimerList

open TimerList

/-- In every state of a timer list: it is sorted, has no timer twice, and has the timers whose
`expire_time` is not -1.  `timer_mod_ns` reports a timer that is now the first one, and so does
`timer_mod_anticipate_ns` where it arms the timer.  A run whose callbacks arm nothing at or before
its time ends, and it runs the timers that are due. -/
theorem timers_fire_when_due {tl : TimerList α} (h : (timerMachine α).Reachable tl) :
    tl.activeTimers.Pairwise (fun t t' => tl.expireTime t ≤ tl.expireTime t') ∧
      tl.activeTimers.Nodup ∧ (∀ t, t ∈ tl.activeTimers ↔ tl.expireTime t ≠ -1) ∧
      (∀ ts e, (tl.timerModNs ts e).2 = true ↔
        (tl.timerModNs ts e).1.activeTimers.head? = some ts) ∧
      (∀ ts e, (tl.timerModAnticipateNs ts e).2 = true ↔ tl.Anticipates ts e ∧
        (tl.timerModAnticipateNs ts e).1.activeTimers.head? = some ts) ∧
      ∀ now script, (∀ n, RunArmsLater now script n 0 tl) → ∃ log tl',
        (∀ fuel, tl.activeTimers.length < fuel →
          timerlistRunTimers true now script fuel tl = some (log, tl')) ∧ Fired now tl log tl' := by
  have hok := ok_of_reachable h
  refine ⟨hok.sorted, hok.nodup, hok.mem_iff, hok.rearm_iff, fun ts e => ?_, fun now script => ?_⟩
  · rw [hok.anticipate]
    by_cases hant : tl.Anticipates ts e
    · rw [if_pos hant, hok.rearm_iff, and_iff_right hant]
    · simp [hant]
  · exact hok.runTimers_fired (Nat.le_refl _) fun t hd => (hok.mem_iff t).2 hd.1

/-- The timer 1 is due at 6, and its callback postpones the timer 0. -/
theorem timers_fire_when_due_two :
    ∃ tl : TimerList (Fin 2), (timerMachine (Fin 2)).Reachable tl ∧ tl.activeTimers = [1, 0] ∧
      ∃ log tl', timerlistRunTimers true 6 (fun _ => [.mod 0 7]) 3 tl = some (log, tl') ∧
        log.map Prod.fst = [1] ∧ Fired 6 tl log tl' := by
  have h : (timerMachine (Fin 2)).Reachable ((idle.edit (.mod 0 5)).edit (.anticipate 1 (-4))) :=
    .step (e := .call (.anticipate 1 (-4))) (.step (e := .call (.mod 0 5)) (.init rfl) trivial rfl)
      trivial rfl
  refine ⟨_, h, rfl, ?_⟩
  obtain ⟨log, tl', hrun, hfired⟩ :=
    (timers_fire_when_due h).2.2.2.2.2 6 (fun _ => [.mod 0 7]) <| by
    rintro (- | n)
    · trivial
    rintro r hr
    obtain rfl := some.inj hr
    refine ⟨⟨by decide, trivial⟩, ?_⟩
    cases n with
    | zero => trivial
    | succ n => exact nofun
  refine ⟨log, tl', hrun 3 (by decide), ?_, hfired⟩
  rw [← (Prod.mk.inj (some.inj (hrun 3 (by decide)))).1]
  rfl

end QemuAndroid.Timer
