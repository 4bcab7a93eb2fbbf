import QemuAndroid.Lib.Machine

/-!
# Wake-ups of `aio_poll`

One thread runs `aio_poll` on a context, also from the callbacks that `aio_poll` itself runs, and
any number of threads schedule bottom halves.  Each step is one access to a shared variable.  A
thread that sets `scheduled` looks at `notify_me` afterwards, and the polling thread raises
`notify_me` before it looks at `scheduled`, so one of the two sees the other.  `setBy` is not part
of the program: it remembers the call that set `scheduled`.
-/

namespace QemuAndroid.Aio

open Lib Function Option

/-! ## The event loop -/

structure QemuBh where
  scheduled : Bool
  idle : Bool
  deleted : Bool
deriving DecidableEq

/-- What a thread is about to do; in `aio_notify`, `sched` is the bottom half that the call has
scheduled. -/
inductive Call (β : Type)
  | returned
  | schedule (bh : β)
  | exchange (bh : β)
  | notify (sched : Option β)
  | setNotifier (sched : Option β)
  | setNotified (sched : Option β)
  | scheduleIdle (bh : β)
  | setScheduled (bh : β)
  | cancel (bh : β)
  | delete (bh : β)
  | setDeleted (bh : β)
  | create (bh : β)
deriving DecidableEq

/-- Where a call of `aio_poll` is. -/
inductive Phase (β : Type)
  | computeTimeout
  | scan (rest : List β) (timeout : Int)
  | scanScheduled (bh : β) (rest : List β) (timeout : Int)
  | scanIdle (bh : β) (rest : List β)
  | poll (blocking : Bool) (timeout : Int)
  | polled
  | accept
  | clear
  | dispatch
  | bhPoll (rest : List β)
  | take (bh : β) (rest : List β)
  | clearIdle (bh : β) (rest : List β)
  | callback (rest : List β)
  | sweep (rest : List β)
  | handlers

inductive Thread (τ : Type)
  | poller
  | other (t : τ)
deriving DecidableEq

/-- `struct AioContext` with the calls of `aio_poll`, the innermost one first. -/
structure AioContext (β τ : Type) where
  firstBh : List β
  bh : β → QemuBh
  walkingBh : Nat
  notifyMe : Nat
  notified : Bool
  notifier : Bool
  frames : List (Phase β)
  call : Thread τ → Call β
  setBy : β → Option (Thread τ)

/-- The functions that a thread can call.  Only the polling thread makes idle bottom halves. -/
def Call.entry {β τ : Type} : Thread τ → Call β → Bool
  | _, .schedule _ | _, .notify none | _, .cancel _ | _, .delete _ | _, .create _ => true
  | .poller, .scheduleIdle _ => true
  | _, _ => false

def Phase.running {β : Type} : Phase β → Bool
  | .callback _ | .handlers => true
  | _ => false

def Phase.locked {β : Type} : Phase β → Bool
  | .sweep _ => true
  | _ => false

def qemuSoonestTimeout (timeout1 timeout2 : Int) : Int :=
  if timeout1 % 2 ^ 64 < timeout2 % 2 ^ 64 then timeout1 else timeout2

namespace AioContext

variable {β τ : Type} [DecidableEq β] [DecidableEq τ]

/-- `aio_context_new`; all that it has is the bottom half of `aio_rfifolock_cb`. -/
def aioContextNew (notifyDummyBh : β) : AioContext β τ where
  firstBh := [notifyDummyBh]
  bh _ := ⟨false, false, false⟩
  walkingBh := 0
  notifyMe := 0
  notified := false
  notifier := false
  frames := []
  call _ := .returned
  setBy _ := none

variable (s : AioContext β τ)

/-- Not in `aio_poll`, or in one of its callbacks. -/
def running : Bool := s.frames.head?.all Phase.running

/-- A store to the flags of a bottom half. -/
def store (bh : β) (f : QemuBh → QemuBh) : AioContext β τ :=
  { s with bh := update s.bh bh (f (s.bh bh)) }

def goto (t : Thread τ) (c : Call β) : AioContext β τ := { s with call := update s.call t c }

/-- The next access of a thread, other than in `aio_poll`. -/
def callStep (t : Thread τ) : Option (AioContext β τ) :=
  match s.call t with
  | .returned => none
  | .schedule bh => some ((s.store bh ({ · with idle := false })).goto t (.exchange bh))
  | .exchange bh =>
    if (s.bh bh).scheduled then some (s.goto t .returned)
    else some { (s.store bh ({ · with scheduled := true })).goto t (.notify (some bh)) with
      setBy := update s.setBy bh (some t) }
  | .notify sched => some (s.goto t (if s.notifyMe ≠ 0 then .setNotifier sched else .returned))
  | .setNotifier sched => some { s.goto t (.setNotified sched) with notifier := true }
  | .setNotified _ => some { s.goto t .returned with notified := true }
  | .scheduleIdle bh => some ((s.store bh ({ · with idle := true })).goto t (.setScheduled bh))
  | .setScheduled bh => some { (s.store bh ({ · with scheduled := true })).goto t .returned with
      setBy := if (s.bh bh).scheduled then s.setBy else update s.setBy bh none }
  | .cancel bh => some ((s.store bh ({ · with scheduled := false })).goto t .returned)
  | .delete bh => some ((s.store bh ({ · with scheduled := false })).goto t (.setDeleted bh))
  | .setDeleted bh => some ((s.store bh ({ · with deleted := true })).goto t .returned)
  | .create bh =>
    if bh ∈ s.firstBh ∨ s.frames.head?.any Phase.locked then none
    else some { (s.store bh fun _ => ⟨false, false, false⟩).goto t .returned with
      firstBh := bh :: s.firstBh
      setBy := update s.setBy bh none }

/-- The next access of `aio_poll`; its timers say when the next one of them is due.  `poll` may
return at any time: another descriptor can be ready. -/
def pollStep (deadline : Int) : Option (AioContext β τ) :=
  match s.frames with
  | [] => none
  | .computeTimeout :: outer => some { s with frames := .scan s.firstBh (-1) :: outer }
  | .scan [] timeout :: outer =>
    some { s with
      frames := .poll true (if deadline = 0 then 0 else qemuSoonestTimeout timeout deadline) ::
        outer }
  | .scan (bh :: rest) timeout :: outer =>
    some { s with
      frames := (if (s.bh bh).deleted then .scan rest timeout
        else .scanScheduled bh rest timeout) :: outer }
  | .scanScheduled bh rest timeout :: outer =>
    some { s with
      frames := (if (s.bh bh).scheduled then .scanIdle bh rest else .scan rest timeout) :: outer }
  | .scanIdle bh rest :: outer =>
    some { s with frames := (if (s.bh bh).idle then .scan rest 10000000 else .poll true 0) ::
      outer }
  | .poll blocking _ :: outer =>
    some { s with frames := (if blocking then .polled else .accept) :: outer }
  | .polled :: outer => some { s with notifyMe := s.notifyMe - 2, frames := .accept :: outer }
  | .accept :: outer =>
    some { s with notified := false, frames := (if s.notified then .clear else .dispatch) :: outer }
  | .clear :: outer => some { s with notifier := false, frames := .dispatch :: outer }
  | .dispatch :: outer =>
    some { s with walkingBh := s.walkingBh + 1, frames := .bhPoll s.firstBh :: outer }
  | .bhPoll [] :: outer =>
    some { s with
      walkingBh := s.walkingBh - 1
      frames := (if s.walkingBh - 1 = 0 then .sweep s.firstBh else .handlers) :: outer }
  | .bhPoll (bh :: rest) :: outer =>
    some { s with frames := (if (s.bh bh).deleted then .bhPoll rest else .take bh rest) :: outer }
  | .take bh rest :: outer =>
    some { s.store bh ({ · with scheduled := false }) with
      frames := (if (s.bh bh).scheduled then .clearIdle bh rest else .bhPoll rest) :: outer }
  | .clearIdle bh rest :: outer =>
    some { s.store bh ({ · with idle := false }) with frames := .callback rest :: outer }
  | .callback rest :: outer => some { s with frames := .bhPoll rest :: outer }
  | .sweep [] :: outer => some { s with frames := .handlers :: outer }
  | .sweep (bh :: rest) :: outer =>
    some { s with
      firstBh := if (s.bh bh).deleted then s.firstBh.erase bh else s.firstBh
      frames := .sweep rest :: outer }
  | .handlers :: outer => some { s with frames := outer }

end AioContext

open AioContext

/-- A thread begins a call or makes its next access, or the polling thread begins a call of
`aio_poll` or goes on in it. -/
inductive Event (β τ : Type)
  | call (t : Thread τ) (c : Call β)
  | callStep (t : Thread τ)
  | aioPoll (blocking : Bool)
  | pollStep (deadline : Int)

/-- The polling thread is in a call of its own, or in `aio_poll`, but not in both: callbacks
call. -/
def aioMachine (β τ : Type) [DecidableEq β] [DecidableEq τ] :
    Machine (AioContext β τ) (Event β τ) where
  init s := ∃ notifyDummyBh, s = aioContextNew notifyDummyBh
  step s
    | .call t c =>
      if s.call t = .returned ∧ c.entry t ∧ (t = .poller → s.running) then some (s.goto t c)
        else none
    | .callStep t => s.callStep t
    | .aioPoll blocking =>
      if s.call .poller = .returned ∧ s.running then
        some { s with
          notifyMe := if blocking then s.notifyMe + 2 else s.notifyMe
          frames := (if blocking then .computeTimeout else .poll false 0) :: s.frames }
      else none
    | .pollStep deadline =>
      if s.call .poller = .returned ∧ -1 ≤ deadline then s.pollStep deadline else none

/-! ## No lost wake-up -/

/-- The call has set `scheduled` and has not returned. -/
def Call.Sets {β : Type} (c : Call β) (bh : β) : Prop :=
  c = .notify (some bh) ∨ c = .setNotifier (some bh) ∨ c = .setNotified (some bh)

/-- `notify_me` is raised. -/
def Phase.blocks {β : Type} : Phase β → Bool
  | .computeTimeout | .scan .. | .scanScheduled .. | .scanIdle .. | .poll true _ | .polled => true
  | _ => false

/-- What `aio_compute_timeout` has still to look at, unless an idle bottom half bounds the
timeout. -/
def Phase.unseen {β : Type} : Phase β → Option (List β)
  | .scan rest timeout => if timeout = 10000000 then none else some rest
  | .scanScheduled bh rest timeout => if timeout = 10000000 then none else some (bh :: rest)
  | .poll true timeout => if timeout < 0 then some [] else none
  | _ => none

namespace AioContext

variable {β τ : Type} {s s' : AioContext β τ} {t : Thread τ} {bh : β} {rest l : List β}

/-- The bottom half will be seen, or the notifier is set, or the call that has scheduled it is about
to set it. -/
def Noticed (s : AioContext β τ) (rest : List β) (bh : β) : Prop :=
  bh ∈ rest ∨ s.notifier ∨
    ∃ t, s.setBy bh = some t ∧ (s.call t = .notify (some bh) ∨ s.call t = .setNotifier (some bh))

/-- Every bottom half that is scheduled is noticed. -/
def Watched (s : AioContext β τ) (rest : List β) : Prop :=
  ∀ bh ∈ s.firstBh, (s.bh bh).scheduled → (s.bh bh).deleted = false → s.Noticed rest bh

structure Inv (s : AioContext β τ) : Prop where
  notifyMe : s.notifyMe = if s.frames.head?.any Phase.blocks then 2 else 0
  outer : ∀ p ∈ s.frames.tail, p.running
  idler : ∀ t bh, s.call t = .scheduleIdle bh ∨ s.call t = .setScheduled bh → t = .poller
  quiet : s.running = false → s.call .poller = .returned
  watched : ∀ p rest, s.frames.head? = some p → p.unseen = some rest → s.Watched rest

variable {p : Phase β}

theorem blocks_of_unseen (h : p.unseen = some rest) : p.blocks = true := by
  unfold Phase.unseen at h
  split at h <;> first | rfl | cases h

theorem running_of_blocks (h : p.blocks = true) : p.running = false := by
  cases p <;> first | rfl | cases h

theorem blocks_of_running (h : p.running = true) : p.blocks = false := by
  cases p <;> first | rfl | cases h

variable {timeout deadline : Int}

theorem unseen_scan :
    (Phase.scan rest timeout).unseen = some l ↔ timeout ≠ 10000000 ∧ rest = l := by
  simp [Phase.unseen]

theorem unseen_scanScheduled :
    (Phase.scanScheduled bh rest timeout).unseen = some l ↔ timeout ≠ 10000000 ∧
    bh :: rest = l := by
  simp [Phase.unseen]

theorem unseen_poll :
    (Phase.poll true timeout).unseen = some l ↔ timeout < 0 ∧ [] = l := by simp [Phase.unseen]

/-- `aio_poll` goes on from `p` to `p'`. -/
theorem Inv.advance (h : s.Inv) (hcall : s.call .poller = .returned) {p' : Phase β}
    {outer : List (Phase β)} (hs : s.frames = p :: outer) (hs' : s'.frames = p' :: outer)
    (hsame : s'.call = s.call) (hme : s'.notifyMe = if p'.blocks then 2 else 0)
    (hwatched : ∀ rest, p'.unseen = some rest → s'.Watched rest) : s'.Inv where
  notifyMe := by rw [hme, hs']; rfl
  outer := by
    rw [hs']
    have := h.outer
    rwa [hs] at this
  idler := by rw [hsame]; exact h.idler
  quiet _ := by rw [hsame, hcall]
  watched q rest hq := by
    rw [hs'] at hq
    obtain rfl := some.inj hq
    exact hwatched rest

/-- What was read of the bottom half is that it need not run. -/
theorem Watched.tail (h : s.Watched (bh :: rest))
    (hbh : (s.bh bh).scheduled = true → (s.bh bh).deleted = true) : s.Watched rest := by
  intro b hb hs hd
  refine (h b hb hs hd).imp_left fun hmem => (List.mem_cons.1 hmem).resolve_left ?_
  rintro rfl
  exact absurd (hbh hs) (by simp [hd])

/-- The timeout is infinite only when no idle bottom half was seen. -/
theorem timeout_lt_zero (hdeadline : -1 ≤ deadline)
    (h : (if deadline = 0 then 0 else qemuSoonestTimeout timeout deadline) < 0) :
    timeout ≠ 10000000 := by
  unfold qemuSoonestTimeout at h
  split at h <;> omega

theorem Inv.aioPoll (h : s.Inv) (hcall : s.call .poller = .returned) (hrun : s.running = true)
    (blocking : Bool) : Inv { s with
      notifyMe := if blocking then s.notifyMe + 2 else s.notifyMe
      frames := (if blocking then .computeTimeout else .poll false 0) :: s.frames } := by
  have hall : ∀ p ∈ s.frames, p.running = true := by
    have houter := h.outer
    unfold running at hrun
    cases hf : s.frames with
    | nil => exact nofun
    | cons p outer =>
      rw [hf] at houter hrun
      exact List.forall_mem_cons.2 ⟨hrun, houter⟩
  have hme : s.notifyMe = 0 := by
    rw [h.notifyMe]
    cases hf : s.frames.head? with
    | none => rfl
    | some p => rw [any_some, blocks_of_running (hall p (List.mem_of_mem_head? hf))]; rfl
  refine ⟨?_, hall, h.idler, fun _ => hcall, fun p rest hp hrest => ?_⟩
  · rw [hme]
    cases blocking <;> rfl
  · obtain rfl := some.inj hp
    cases blocking <;> cases hrest

/-- A thread makes an access in a call.  All that is left to see to is the bottom halves. -/
theorem Inv.goto [DecidableEq τ] (h : s.Inv) {c : Call β} (hcall : t = .poller → s.running = true)
    (hframes : s'.frames = s.frames) (hme : s'.notifyMe = s.notifyMe)
    (hgoto : s'.call = update s.call t c)
    (hidle : ∀ bh, c = .scheduleIdle bh ∨ c = .setScheduled bh → t = .poller)
    (hwatched : ∀ rest, s.notifyMe = 2 → t ≠ .poller → s.Watched rest → s'.Watched rest) :
    s'.Inv where
  notifyMe := by rw [hme, hframes, h.notifyMe]
  outer := by rw [hframes]; exact h.outer
  idler u bh hu := by
    rw [hgoto] at hu
    by_cases hut : u = t
    · subst hut
      rw [update_self] at hu
      exact hidle bh hu
    · rw [update_of_ne hut] at hu
      exact h.idler u bh hu
  quiet hrun := by
    have hs : s.running = false := by rwa [running, hframes] at hrun
    rw [hgoto, update_of_ne]
    · exact h.quiet hs
    · rintro rfl
      exact absurd (hs.symm.trans (hcall rfl)) Bool.false_ne_true
  watched p rest hp hrest := by
    rw [hframes] at hp
    have hblocks := blocks_of_unseen hrest
    have hrun : s.running = false := by rw [running, hp]; exact running_of_blocks hblocks
    refine hwatched rest (by rw [h.notifyMe, hp, any_some, if_pos hblocks])
      ?_ (h.watched p rest hp hrest)
    exact fun ht => absurd (hrun.symm.trans (hcall ht)) Bool.false_ne_true

theorem Noticed.goto [DecidableEq τ] {c : Call β} (h : s.Noticed rest bh)
    (hset : s'.setBy bh = s.setBy bh) (hnotifier : s'.notifier = s.notifier)
    (hcall : s'.call = update s.call t c)
    (hc : ∀ sched, s.call t ≠ .notify sched ∧ s.call t ≠ .setNotifier sched) :
    s'.Noticed rest bh := by
  unfold Noticed at h ⊢
  rw [hset, hnotifier, hcall]
  refine h.imp_right (Or.imp_right ?_)
  rintro ⟨u, hu, hcu⟩
  refine ⟨u, hu, ?_⟩
  rwa [update_of_ne]
  rintro rfl
  exact hcu.elim (hc _).1 (hc _).2

variable [DecidableEq β]

theorem Inv.pollStep (h : s.Inv) (hcall : s.call .poller = .returned) (hdeadline : -1 ≤ deadline)
    (hstep : s.pollStep deadline = some s') : s'.Inv := by
  rcases hs : s.frames with - | ⟨p, outer⟩
  · rw [AioContext.pollStep, hs] at hstep
    cases hstep
  have hme : s.notifyMe = if p.blocks then 2 else 0 := by rw [h.notifyMe, hs]; rfl
  have hw : ∀ {rest}, p.unseen = some rest → s.Watched rest :=
    fun hrest => h.watched p _ (by rw [hs]; rfl) hrest
  rw [AioContext.pollStep, hs] at hstep
  cases p with
  | computeTimeout =>
    cases hstep
    refine h.advance hcall hs rfl rfl hme fun rest hrest b hb _ _ => .inl ?_
    obtain ⟨-, rfl⟩ := unseen_scan.1 hrest
    exact hb
  | scan rest timeout =>
    rcases rest with - | ⟨bh, rest⟩
    · cases hstep
      refine h.advance hcall hs rfl rfl hme fun rest hrest => ?_
      obtain ⟨hlt, rfl⟩ := unseen_poll.1 hrest
      exact hw (unseen_scan.2 ⟨timeout_lt_zero hdeadline hlt, rfl⟩)
    cases hstep
    refine h.advance hcall hs rfl rfl (by split <;> exact hme) fun l hrest => ?_
    split at hrest
    · rename_i hdel
      obtain ⟨ht, rfl⟩ := unseen_scan.1 hrest
      exact (hw (unseen_scan.2 ⟨ht, rfl⟩)).tail fun _ => hdel
    · obtain ⟨ht, rfl⟩ := unseen_scanScheduled.1 hrest
      exact hw (unseen_scan.2 ⟨ht, rfl⟩)
  | scanScheduled bh rest timeout =>
    cases hstep
    refine h.advance hcall hs rfl rfl (by split <;> exact hme) fun l hrest => ?_
    split at hrest
    · cases hrest
    · rename_i hsched
      obtain ⟨ht, rfl⟩ := unseen_scan.1 hrest
      exact (hw (unseen_scanScheduled.2 ⟨ht, rfl⟩)).tail fun h0 => absurd h0 hsched
  | scanIdle bh rest =>
    cases hstep
    refine h.advance hcall hs rfl rfl (by split <;> exact hme) fun l hrest => ?_
    split at hrest <;> cases hrest
  | poll blocking timeout =>
    cases hstep
    refine h.advance hcall hs rfl rfl ?_ fun l hrest => ?_
    · cases blocking <;> exact hme
    · split at hrest <;> cases hrest
  | polled =>
    cases hstep
    refine h.advance hcall hs rfl rfl ?_ nofun
    rw [hme]
    rfl
  | handlers =>
    cases hstep
    have houter : ∀ q ∈ outer, q.running = true := by
      have := h.outer
      rwa [hs] at this
    have hhead : ∀ q, outer.head? = some q → q.blocks = false :=
      fun q hq => blocks_of_running (houter q (List.mem_of_mem_head? hq))
    refine ⟨?_, fun q hq => houter q (List.mem_of_mem_tail hq), h.idler, fun _ => hcall,
      fun q rest hq hrest => ?_⟩
    · rw [hme]
      cases hq : outer.head? with
      | none => rfl
      | some q => rw [any_some, hhead q hq]; rfl
    · exact absurd ((hhead q hq).symm.trans (blocks_of_unseen hrest)) Bool.false_ne_true
  | accept | clear | dispatch | take bh rest | clearIdle bh rest | callback rest =>
    cases hstep
    refine h.advance hcall hs rfl rfl ?_ fun l hrest => ?_
    · first | exact hme | split <;> exact hme
    · first | cases hrest | split at hrest <;> cases hrest
  | bhPoll rest | sweep rest =>
    rcases rest with - | ⟨bh, rest⟩
    all_goals
      cases hstep
      refine h.advance hcall hs rfl rfl ?_ fun l hrest => ?_
      · first | exact hme | split <;> exact hme
      · first | cases hrest | split at hrest <;> cases hrest

variable [DecidableEq τ]

theorem Inv.callStep (h : s.Inv) (hstep : s.callStep t = some s') : s'.Inv := by
  have hrun : s.call t ≠ .returned → t = .poller → s.running = true := by
    rintro hne rfl
    by_contra hrun
    exact hne (h.quiet (by simpa using hrun))
  revert hstep
  unfold AioContext.callStep
  cases hc : s.call t with
  | returned =>
    rintro ⟨⟩
  | exchange bh =>
    intro hstep
    dsimp only at hstep
    split at hstep
    · cases hstep
      refine h.goto (hrun (by simp [hc])) rfl rfl rfl (by simp) fun rest _ _ hw b hb hs hd => ?_
      exact (hw b hb hs hd).goto rfl rfl rfl (by simp [hc])
    cases hstep
    refine h.goto (hrun (by simp [hc])) rfl rfl rfl (by simp) fun rest _ _ hw b hb hs hd => ?_
    by_cases hbh : b = bh
    · exact .inr (.inr ⟨t, by simp [hbh], .inl (by simp [hbh, AioContext.goto])⟩)
    · simp only [AioContext.goto, store, update_of_ne hbh] at hs hd
      exact (hw b hb hs hd).goto (update_of_ne hbh ..) rfl rfl (by simp [hc])
  | notify sched =>
    -- the context is about to block, so `notify_me` is not zero
    rintro ⟨⟩
    refine h.goto (hrun (by simp [hc])) rfl rfl rfl (by split <;> simp) fun rest hme _ hw b hb hs
      hd => ?_
    refine (hw b hb hs hd).imp_right (Or.imp_right ?_)
    rintro ⟨u, hu, hcu⟩
    refine ⟨u, hu, ?_⟩
    by_cases hut : u = t
    · simp_all [AioContext.goto]
    · simpa [AioContext.goto, hut] using hcu
  | setNotifier sched =>
    rintro ⟨⟩
    exact h.goto (hrun (by simp [hc])) rfl rfl rfl (by simp) fun _ _ _ _ _ _ _ _ => .inr (.inl rfl)
  | setNotified sched =>
    rintro ⟨⟩
    refine h.goto (hrun (by simp [hc])) rfl rfl rfl (by simp) fun rest _ _ hw b hb hs hd => ?_
    exact (hw b hb hs hd).goto rfl rfl rfl (by simp [hc])
  | scheduleIdle bh | setScheduled bh =>
    have ht := h.idler t bh (by simp [hc])
    rintro ⟨⟩
    exact h.goto (hrun (by simp [hc])) rfl rfl rfl (fun _ _ => ht) fun _ _ hne => absurd ht hne
  | create bh =>
    intro hstep
    dsimp only at hstep
    split at hstep
    · cases hstep
    cases hstep
    refine h.goto (hrun (by simp [hc])) rfl rfl rfl (by simp) fun rest _ _ hw b hb hs hd => ?_
    by_cases hbh : b = bh
    · simp [hbh, AioContext.goto, store] at hs
    · simp only [AioContext.goto, store, update_of_ne hbh] at hs hd
      refine (hw b ((List.mem_cons.1 hb).resolve_left hbh) hs hd).goto ?_ rfl rfl (by simp [hc])
      exact update_of_ne hbh ..
  | schedule bh | cancel bh | delete bh | setDeleted bh =>
    rintro ⟨⟩
    refine h.goto (hrun (by simp [hc])) rfl rfl rfl (by simp) fun rest _ _ hw b hb hs hd => ?_
    have hflags : (s.bh b).scheduled = true ∧ (s.bh b).deleted = false := by
      by_cases hbh : b = bh <;> simp_all [AioContext.goto, store]
    exact (hw b hb hflags.1 hflags.2).goto rfl rfl rfl (by simp [hc])

theorem inv_of_reachable (h : (aioMachine β τ).Reachable s) : s.Inv := by
  refine h.invariant ?_ fun s e s' _ hs _ hstep => ?_
  · rintro _ ⟨dummy, rfl⟩
    exact ⟨rfl, nofun, nofun, nofun, nofun⟩
  cases e with
  | call t c =>
    obtain ⟨⟨hret, hentry, hrun⟩, ⟨⟩⟩ := ite_none_right_eq_some.1 hstep
    refine hs.goto hrun rfl rfl rfl ?_ fun rest _ _ hw b hb hsched hdel => ?_
    · rintro bh (rfl | rfl) <;> cases t <;> first | rfl | cases hentry
    · exact (hw b hb hsched hdel).goto rfl rfl rfl (by simp [hret])
  | callStep t => exact hs.callStep hstep
  | aioPoll blocking =>
    obtain ⟨⟨hret, hrun⟩, ⟨⟩⟩ := ite_none_right_eq_some.1 hstep
    exact hs.aioPoll hret hrun blocking
  | pollStep deadline =>
    obtain ⟨⟨hret, hdeadline⟩, hstep⟩ := ite_none_right_eq_some.1 hstep
    exact hs.pollStep hret hdeadline hstep

/-- The call of `qemu_bh_schedule` that has scheduled the bottom half, if one has, has returned. -/
def SetReturned (s : AioContext β τ) (bh : β) : Prop := ∀ t, s.setBy bh = some t →
    ¬(s.call t).Sets bh

/-- **`aio_notify` loses no wake-up.**  In no state is the polling thread in `poll` without a
timeout and with the notifier clear while a bottom half is scheduled, neither idle nor deleted, and
the call that scheduled it has returned. -/
theorem no_lost_notification (h : (aioMachine β τ).Reachable s) :
    ¬∃ timeout bh, s.frames.head? = some (.poll true timeout) ∧ timeout < 0 ∧ s.notifier = false ∧
      bh ∈ s.firstBh ∧ (s.bh bh).deleted = false ∧ (s.bh bh).idle = false ∧
      (s.bh bh).scheduled = true ∧ s.SetReturned bh := by
  rintro ⟨timeout, bh, hpoll, hlt, hclear, hmem, hdel, -, hsched, hret⟩
  rcases (inv_of_reachable h).watched _ _ hpoll (unseen_poll.2 ⟨hlt, rfl⟩) bh hmem hsched hdel with
    hnil | hset | ⟨t, ht, hcall⟩
  · cases hnil
  · exact absurd (hset.symm.trans hclear) nofun
  · exact hret t ht (hcall.imp_right .inl)

/-- A thread has scheduled a bottom half and reads `notify_me` while the polling thread is in
`poll`. -/
theorem no_lost_notification_late : ∃ s : AioContext Unit Unit, (aioMachine Unit Unit).Reachable s ∧
    s.frames.head? = some (.poll true (-1)) ∧ s.notifier = false ∧ (s.bh ()).scheduled = true ∧
      ¬s.SetReturned () := by
  have hrun : (aioMachine Unit Unit).run (aioContextNew ()) [.aioPoll true, .pollStep 0,
      .call (.other ()) (.schedule ()), .pollStep 0, .pollStep 0, .pollStep (-1),
      .callStep (.other ()),
      .callStep (.other ())] = some _ := rfl
  have h : (aioMachine Unit Unit).Reachable _ := .of_run (.init ⟨(), rfl⟩) hrun
  refine ⟨_, h, rfl, rfl, rfl, fun hret => no_lost_notification h ?_⟩
  exact ⟨-1, (), rfl, by decide, rfl, List.mem_singleton_self (), rfl, rfl, rfl, hret⟩

end AioContext

end QemuAndroid.Aio
