import QemuAndroid.Coroutine.Rwlock
import QemuAndroid.Lib.Places

/-!
# No lost wake-ups

The invariant of a run has a part about scheduling (`Scheduled`): a coroutine that waits for the
lock is on exactly one queue, that of the lock or a wake-up list, and a wake-up list with entries
belongs to a call of `qemu_coroutine_enter` that has not returned.  The part about the lock (`Held`)
relates its fields to the calls that have returned.  The two meet in `CoInv`: while the lock is free
and its queue is not empty, a waiter is already on its way.
-/

namespace QemuAndroid.Coroutine

open Lib Function List Option CoState

variable {s s' : CoState} {c d : Addr} {m : Mode} {stack rest : List Frame} {ret : CoroutineAction}
  {queue : List Addr} {wakeup : Addr → List Addr} {phase : Addr → Phase} {memory : Addr → Memory}
  {l : CoRwlock} {holds : List (Addr × Mode)}

/-! ## Places -/

def lists (queue : List Addr) (wakeup : Addr → List Addr) : Option Addr → List Addr
  | none => queue
  | some co => wakeup co

theorem lists_queue (queue xs : List Addr) (wakeup : Addr → List Addr) :
    lists xs wakeup = update (lists queue wakeup) none xs := by
  funext i
  cases i with
  | none => rfl
  | some co => rfl

theorem lists_wakeup (queue : List Addr) (wakeup : Addr → List Addr) (co : Addr) (xs : List Addr) :
    lists queue (update wakeup co xs) = update (lists queue wakeup) (some co) xs := by
  funext i
  cases i with
  | none => rfl
  | some d =>
    change update wakeup co xs d = _
    by_cases hd : d = co
    · rw [hd, update_self, update_self]
    · rw [update_of_ne hd, update_of_ne fun e => hd (some.inj e)]
      rfl

/-! ## Scheduling -/

/-- The invariant of the queues and of the calls. -/
structure Scheduled (queue : List Addr) (wakeup : Addr → List Addr) (phase : Addr → Phase)
    (memory : Addr → Memory) (stack : List Frame) : Prop where
  placed : Placed (lists queue wakeup)
  waits : ∀ w, HasPlace (lists queue wakeup) w ↔ ∃ m, phase w = .waiting m
  alive : ∀ co, phase co ≠ .idle → memory co = .live
  nodup : (stack.filterMap Frame.entered).Nodup
  running : ∀ co ∈ stack.filterMap Frame.entered, memory co = .live ∧ ∀ m, phase co ≠ .waiting m
  owned : ∀ co, wakeup co ≠ [] → memory co = .live ∧ ∃ f ∈ stack, f.co = co
  woken : ∀ co m, phase co = .woken m → stack.head? = some (.run co)

/-- What a call owns stays owned when the coroutine on top comes back. -/
theorem owned_restart (h : ∃ f ∈ Frame.run c :: rest, f.co = d) :
    ∃ f ∈ Frame.restart c ret :: rest, f.co = d := by
  simpa [Frame.co] using h

namespace Scheduled

/-- Nobody is about to test the lock unless it is on top. -/
theorem quiet (h : Scheduled queue wakeup phase memory stack)
    (htop : ∀ co, stack.head? = some (.run co) → phase co = .idle) (d : Addr) (m : Mode) :
    phase d ≠ .woken m := by
  intro hd
  cases hd.symm.trans (htop d (h.woken d m hd))

section Running

variable (h : Scheduled queue wakeup phase memory (.run c :: rest))

include h

/-- Only the coroutine on top can be about to test the lock. -/
theorem woken_eq (hd : phase d = .woken m) : d = c := by
  cases h.woken d m hd
  rfl

/-- The running coroutine goes to the queue of the lock. -/
theorem wait (m : Mode) : Scheduled (queue ++ [c]) wakeup (update phase c (.waiting m)) memory
    (.restart c .yield :: rest) := by
  have hc := h.running c mem_cons_self
  obtain ⟨hnot, hnodup⟩ := nodup_cons.1 h.nodup
  have hlist : lists (queue ++ [c]) wakeup =
    update (lists queue wakeup) none (lists queue wakeup none ++ [c]) := lists_queue ..
  constructor
  · rw [hlist]
    refine h.placed.push fun hp => ?_
    obtain ⟨k, hk⟩ := (h.waits c).1 hp
    exact hc.2 k hk
  · intro w
    rw [hlist, HasPlace.push_iff]
    by_cases hw : w = c
    · rw [hw, update_self]
      exact iff_of_true (.inl rfl) ⟨m, rfl⟩
    · rw [or_iff_right hw, update_of_ne hw, h.waits]
  · rw [forall_update_iff phase fun co p => p ≠ .idle → memory co = .live]
    exact ⟨fun _ => hc.1, fun co _ => h.alive co⟩
  · exact hnodup
  · intro co hco
    have hcc : co ≠ c := fun e => hnot (e ▸ hco)
    rw [update_of_ne hcc]
    exact h.running co (mem_cons_of_mem c hco)
  · exact fun co hco => (h.owned co hco).imp_right owned_restart
  intro co k hk
  by_cases hcc : co = c
  · rw [hcc, update_self] at hk
    cases hk
  · rw [update_of_ne hcc] at hk
    exact absurd (h.woken_eq hk) hcc

/-- The running coroutine goes on with the code of its user. -/
theorem resumed : Scheduled queue wakeup (update phase c .idle) memory (.run c :: rest) := by
  have hc := h.running c mem_cons_self
  have hphase : ∀ co k, update phase c .idle co = k → k ≠ .idle → phase co = k := by
    intro co k hk hne
    by_cases hcc : co = c
    · rw [hcc, update_self] at hk
      exact absurd hk.symm hne
    · exact (update_of_ne hcc _ _).symm.trans hk
  refine ⟨h.placed, fun w => ?_, ?_, h.nodup, fun co hco => ?_, h.owned, ?_⟩
  · rw [h.waits w]
    by_cases hw : w = c
    · rw [hw, update_self]
      exact iff_of_false (fun ⟨k, hk⟩ => hc.2 k hk) fun ⟨k, hk⟩ => by cases hk
    · rw [update_of_ne hw]
  · exact fun co hco => h.alive co (hphase co _ rfl hco ▸ hco)
  · obtain ⟨hlive, hwait⟩ := h.running co hco
    exact ⟨hlive, fun k hk => hwait k (hphase co _ hk Phase.noConfusion)⟩
  · exact fun co k hk => h.woken co k (hphase co _ hk Phase.noConfusion)

variable {wakeup' : Addr → List Addr}

/-- The running coroutine moves waiters to its wake-up list. -/
theorem wake {queue' : List Addr}
    (hplaced : Placed (lists queue' wakeup'))
    (hplace : ∀ w, HasPlace (lists queue' wakeup') w ↔ HasPlace (lists queue wakeup) w)
    (hown : ∀ d, d ≠ c → wakeup' d = wakeup d) :
    Scheduled queue' wakeup' phase memory (.run c :: rest) := by
  refine ⟨hplaced, fun w => (hplace w).trans (h.waits w), h.alive, h.nodup, h.running,
    fun d hd => ?_, h.woken⟩
  by_cases hdc : d = c
  · subst hdc
    exact ⟨(h.running d mem_cons_self).1, .run d, mem_cons_self, rfl⟩
  · exact h.owned d (hown d hdc ▸ hd)

theorem restartAll : Scheduled [] (update wakeup c (wakeup c ++ queue)) phase memory
    (.run c :: rest) := by
  have hlist : lists [] (update wakeup c (wakeup c ++ queue)) =
      update (update (lists queue wakeup) none []) (some c) (wakeup c ++ queue) := by
    rw [lists_wakeup, lists_queue queue []]
  refine h.wake ?_ (fun w => ?_) fun d hd => update_of_ne hd _ _
  · rw [hlist]
    exact h.placed.moveAll (some_ne_none c).symm
  · rw [hlist]
    exact HasPlace.moveAll_iff

/-- A coroutine comes back to its caller. -/
theorem back (hidle : phase c = .idle) (ret : CoroutineAction) :
    Scheduled queue wakeup phase memory (.restart c ret :: rest) := by
  have hsub : (filterMap Frame.entered (.restart c ret :: rest)).Sublist
      (filterMap Frame.entered (.run c :: rest)) := by
    cases ret with
    | yield => exact sublist_cons_self ..
    | terminate => exact Sublist.refl _
  refine ⟨h.placed, h.waits, h.alive, h.nodup.sublist hsub,
    fun co hco => h.running co (hsub.subset hco),
    fun co hco => (h.owned co hco).imp_right owned_restart, fun co m hco => ?_⟩
  rw [h.woken_eq hco, hidle] at hco
  cases hco

end Running

theorem next {next : Addr} (h : Scheduled (next :: queue) wakeup phase memory (.run c :: rest)) :
    Scheduled queue (update wakeup c (wakeup c ++ [next])) phase memory (.run c :: rest) := by
  have hqueue := lists_queue (next :: queue) queue wakeup
  have hlist : lists queue (update wakeup c (wakeup c ++ [next])) =
    update (lists queue wakeup) (some c) (lists queue wakeup (some c) ++ [next]) := lists_wakeup ..
  have hplaced : Placed (lists queue wakeup) := hqueue ▸ h.placed.pop rfl
  have hiff (w : Addr) : HasPlace (lists queue wakeup) w ↔
      w ≠ next ∧ HasPlace (lists (next :: queue) wakeup) w := hqueue ▸ h.placed.pop_iff rfl
  refine h.wake ?_ (fun w => ?_) fun d hd => update_of_ne hd _ _
  · rw [hlist]
    exact hplaced.push fun hp => ((hiff next).1 hp).1 rfl
  rw [hlist, HasPlace.push_iff, hiff]
  by_cases hw : w = next
  · exact iff_of_true (.inl hw) ⟨none, by rw [hw]; exact mem_cons_self⟩
  · rw [or_iff_right hw, and_iff_right hw]

theorem enter {wakeup' : Addr → List Addr} (h : Scheduled queue wakeup phase memory stack)
    (hquiet : ∀ d m, phase d ≠ .woken m) (hlive : memory c = .live)
    (hnot : c ∉ stack.filterMap Frame.entered) {p : Phase}
    (hp : ∀ m, p ≠ .waiting m) (hplaced : Placed (lists queue wakeup'))
    (hplace : ∀ w, HasPlace (lists queue wakeup') w ↔ w ≠ c ∧ HasPlace (lists queue wakeup) w)
    (hown : ∀ d, wakeup' d ≠ [] → wakeup d ≠ []) :
    Scheduled queue wakeup' (update phase c p) memory (.run c :: stack) := by
  refine ⟨hplaced, fun w => ?_, ?_, nodup_cons.2 ⟨hnot, h.nodup⟩, fun d hd => ?_,
    fun d hd => ?_, fun d m hd => ?_⟩
  · rw [hplace w, h.waits w]
    by_cases hw : w = c
    · rw [hw, update_self]
      exact iff_of_false (fun hk => hk.1 rfl) fun ⟨k, hk⟩ => hp k hk
    · rw [update_of_ne hw, and_iff_right hw]
  · rw [forall_update_iff phase fun co p => p ≠ .idle → memory co = .live]
    exact ⟨fun _ => hlive, fun d _ => h.alive d⟩
  · rcases mem_cons.1 hd with rfl | hd
    · rw [update_self]
      exact ⟨hlive, hp⟩
    · have hdc : d ≠ c := fun e => hnot (e ▸ hd)
      rw [update_of_ne hdc]
      exact h.running d hd
  · obtain ⟨hmem, f, hf, hfd⟩ := h.owned d (hown d hd)
    exact ⟨hmem, f, mem_cons_of_mem _ hf, hfd⟩
  · by_cases hdc : d = c
    · rw [hdc]
      rfl
    · exact absurd ((update_of_ne hdc _ _).symm.trans hd) (hquiet d m)

theorem leave (h : Scheduled queue wakeup phase memory (.restart c ret :: rest))
    (hempty : wakeup c = []) {memory' : Addr → Memory} (hmemory : ∀ d, d ≠ c → memory' d = memory d)
    (hret : ret = .yield → memory' = memory) : Scheduled queue wakeup phase memory' rest := by
  have hquiet := h.quiet fun co hco => by cases hco
  have hsub : (rest.filterMap Frame.entered).Sublist
      (filterMap Frame.entered (.restart c ret :: rest)) :=
    (sublist_cons_self _ rest).filterMap _
  -- a coroutine that is deleted has terminated
  have hsame : ∀ d, phase d ≠ .idle ∨ d ∈ rest.filterMap Frame.entered → memory' d = memory d := by
    intro d hd
    cases ret with
    | yield => rw [hret rfl]
    | terminate =>
      refine hmemory d ?_
      rintro rfl
      rcases hd with hd | hd
      · have hrun := (h.running d mem_cons_self).2
        cases hp : phase d with
        | idle => exact hd hp
        | waiting k => exact hrun k hp
        | woken k => exact hquiet d k hp
      · exact (nodup_cons.1 h.nodup).1 hd
  refine ⟨h.placed, h.waits, fun co hco => (hsame co (.inl hco)).trans (h.alive co hco),
    h.nodup.sublist hsub, fun co hco => ?_, fun co hco => ?_,
    fun co m hco => absurd hco (hquiet co m)⟩
  · obtain ⟨hlive, hwait⟩ := h.running co (hsub.subset hco)
    exact ⟨(hsame co (.inr hco)).trans hlive, hwait⟩
  obtain ⟨hlive, f, hf, hfco⟩ := h.owned co hco
  have hcc : co ≠ c := by
    rintro rfl
    exact hco hempty
  refine ⟨(hmemory co hcc).trans hlive, f, (mem_cons.1 hf).resolve_left ?_, hfco⟩
  rintro rfl
  exact hcc hfco.symm

theorem create (h : Scheduled queue wakeup phase memory stack) (hdead : memory c ≠ .live) :
    Scheduled queue wakeup phase (update memory c .live) stack := by
  have hlive : ∀ co, memory co = .live → update memory c .live co = .live := by
    intro co hco
    have hne : co ≠ c := by
      rintro rfl
      exact hdead hco
    rwa [update_of_ne hne]
  exact ⟨h.placed, h.waits, fun co hco => hlive co (h.alive co hco), h.nodup,
    fun co hco => (h.running co hco).imp_left (hlive co),
    fun co hco => (h.owned co hco).imp_left (hlive co), h.woken⟩

/-- It has nothing on its wake-up list, and nobody has entered it. -/
theorem of_dead (h : Scheduled queue wakeup phase memory stack) (hdead : memory c ≠ .live) :
    wakeup c = [] ∧ phase c = .idle :=
  ⟨by_contra fun hne => hdead (h.owned c hne).1, by_contra fun hne => hdead (h.alive c hne)⟩

end Scheduled

/-! ## The lock -/

/-- The fields of the lock, and the calls that have returned. -/
def Held (l : CoRwlock) (holds : List (Addr × Mode)) : Prop :=
  (l.writer = false ∧ l.reader = holds.length ∧ ∀ h ∈ holds, h.2 = .read) ∨
  (l.writer = true ∧ l.reader = 0 ∧ ∃ co, holds = [(co, .write)])

theorem CoRwlock.busy_of_free (hw : l.writer = false) (hr : l.reader = 0) : l.busy m = false := by
  cases m with
  | read => exact hw
  | write => simp [CoRwlock.busy, hw, hr]

theorem Held.take (h : Held l holds) (hbusy : l.busy m = false) (co : Addr) :
    Held (l.take m) ((co, m) :: holds) := by
  cases m with
  | read =>
    rcases h with ⟨hw, hr, hall⟩ | ⟨hw, -, -⟩
    · refine .inl ⟨hw, ?_, ?_⟩
      · change l.reader + 1 = _
        rw [hr]
        rfl
      · rintro hold (_ | ⟨_, hmem⟩)
        · rfl
        · exact hall hold hmem
    · cases hbusy.symm.trans hw
  | write =>
    obtain ⟨hw, hr⟩ : l.writer = false ∧ l.reader = 0 := by
      simpa [CoRwlock.busy] using hbusy
    rcases h with ⟨-, hlen, -⟩ | ⟨hw', -, -⟩
    · have hnil : holds = [] := by
        rw [hr] at hlen
        exact length_eq_zero_iff.1 (Int.ofNat_eq_zero.1 hlen.symm)
      exact .inr ⟨rfl, hr, co, by rw [hnil]⟩
    · cases hw.symm.trans hw'

/-- An unlock that matches a lock: it releases the writer or one reader, and its assertion holds. -/
theorem Held.release (h : Held l holds) (hmem : (c, m) ∈ holds) :
    (l.writer = true ∧ l.reader = 0 ∧ holds.erase (c, m) = []) ∨ (l.writer = false ∧ 0 < l.reader ∧
      Held { l with reader := l.reader - 1 } (holds.erase (c, m))) := by
  rcases h with ⟨hw, hr, hall⟩ | ⟨hw, hr, co, rfl⟩
  · right
    have hlen := length_erase_of_mem hmem
    have hpos := length_pos_of_mem hmem
    refine ⟨hw, by omega, .inl ⟨hw, ?_, fun hold hhold => hall hold (mem_of_mem_erase hhold)⟩⟩
    change l.reader - 1 = _
    omega
  · left
    cases mem_singleton.1 hmem
    exact ⟨hw, hr, erase_cons_head ..⟩

/-- The lock is free exactly if nobody holds it. -/
theorem Held.free_iff (h : Held l holds) : l.writer = false ∧ l.reader = 0 ↔ holds = [] := by
  rcases h with ⟨hw, hr, -⟩ | ⟨hw, -, co, rfl⟩
  · rw [and_iff_right hw, hr, Int.natCast_eq_zero, length_eq_zero_iff]
  · rw [hw]
    simp

/-! ## Runs -/

/-- While the lock is free and its queue is not empty, a waiter is on its way. -/
def Awake (s : CoState) : Prop :=
  s.lock.writer = false → s.lock.reader = 0 → s.lock.queue ≠ [] →
    (∃ co, s.wakeup co ≠ []) ∨ ∃ co m, s.phase co = .woken m

structure CoInv (s : CoState) : Prop where
  halt : s.halt ≠ some .assertion
  scheduled : Scheduled s.lock.queue s.wakeup s.phase s.memory s.stack
  held : Held s.lock s.holds
  awake : Awake s

section

variable (h : CoInv s)
include h

section

variable (hs : s.stack = .run c :: rest)
include hs

theorem CoInv.running :
    Scheduled s.lock.queue s.wakeup s.phase s.memory (.run c :: rest) := hs ▸ h.scheduled

/-- One turn of the loop of `rdlock` or `wrlock`. -/
theorem CoInv.lockTest (m : Mode) : CoInv (s.lockTest c m rest) := by
  cases hbusy : s.lock.busy m with
  | true =>
    rw [CoState.lockTest, if_pos hbusy]
    refine ⟨h.halt, (h.running hs).wait m, h.held, fun hw hr => ?_⟩
    have hfree : s.lock.busy m = false := CoRwlock.busy_of_free hw hr
    cases hbusy.symm.trans hfree
  | false =>
    have hnot : ¬ s.lock.busy m = true := by simp [hbusy]
    rw [CoState.lockTest, if_neg hnot]
    have hqueue : (s.lock.take m).queue = s.lock.queue := by cases m <;> rfl
    have hheld := h.held.take hbusy c
    refine ⟨h.halt, ?_, hheld, fun hw hr => ?_⟩
    · rw [hqueue, hs]
      exact (h.running hs).resumed
    · cases hheld.free_iff.1 ⟨hw, hr⟩

theorem CoInv.unlock (hmem : (c, m) ∈ s.holds) :
    CoInv { s.rwlockUnlock c with holds := s.holds.erase (c, m) } := by
  have hsched := h.running hs
  rcases h.held.release hmem with ⟨hw, hr, hnil⟩ | ⟨hw, hpos, hheld⟩
  · rw [rwlockUnlock, if_pos hw]
    refine ⟨h.halt, hs ▸ hsched.restartAll, ?_, fun _ _ hq => absurd rfl hq⟩
    rw [hnil]
    exact .inl ⟨rfl, hr, fun hold hhold => by cases hhold⟩
  have hassert : ¬ s.lock.reader - 1 < 0 := by omega
  rw [rwlockUnlock, if_neg (by simp [hw]), if_neg hassert]
  by_cases hlast : s.lock.reader - 1 = 0
  · rw [if_pos hlast]
    cases hq : s.lock.queue with
    | nil =>
      have hnil := h.scheduled
      rw [hq] at hnil
      simp only [queueNext, hq]
      exact ⟨h.halt, hnil, hheld, fun _ _ hne => absurd rfl hne⟩
    | cons next queue =>
      rw [hq] at hsched
      simp only [queueNext, hq]
      refine ⟨h.halt, hs ▸ hsched.next, hheld, fun _ _ _ => .inl ⟨c, ?_⟩⟩
      simp
  · rw [if_neg hlast]
    exact ⟨h.halt, h.scheduled, hheld, fun _ hr => absurd hr hlast⟩

end

/-- User code enters a coroutine that does not wait for the lock. -/
theorem CoInv.enter (htop : ∀ co, s.stack.head? = some (.run co) → s.phase co = .idle)
    (hlive : s.memory c = .live) (hidle : s.phase c = .idle) (hnot : c ∉ s.entered) :
    CoInv (s.coroutineEnter c) := by
  have hphase : update s.phase c (resume (s.phase c)) = s.phase := by
    rw [hidle, resume, ← hidle, update_eq_self]
  rw [coroutineEnter, if_neg hnot]
  refine ⟨h.halt, ?_, h.held, ?_⟩
  · refine h.scheduled.enter (h.scheduled.quiet htop) hlive hnot (fun m => ?_) h.scheduled.placed
      (fun w => ⟨fun hw => ⟨?_, hw⟩, And.right⟩) fun d hd => hd
    · rw [hidle]
      exact Phase.noConfusion
    · rintro rfl
      obtain ⟨k, hk⟩ := (h.scheduled.waits w).1 hw
      cases hidle.symm.trans hk
  · intro hw hr hq
    rw [hphase]
    exact h.awake hw hr hq

/-- `qemu_co_queue_run_restart` and the end of `qemu_coroutine_enter`. -/
theorem CoInv.runRestart (hs : s.stack = .restart c ret :: rest) (keep : Bool) :
    CoInv (s.runRestart c ret rest keep) := by
  by_cases hfreed : s.memory c = .freed
  · simp only [CoState.runRestart, hfreed, if_true]
    exact ⟨(by rintro ⟨⟩), h.scheduled, h.held, h.awake⟩
  have hsched := h.scheduled
  rw [hs] at hsched
  cases hwake : s.wakeup c with
  | nil =>
    simp only [CoState.runRestart, hfreed, if_false, hwake]
    cases ret with
    | yield => exact ⟨h.halt, hsched.leave hwake (fun _ _ => rfl) fun _ => rfl, h.held, h.awake⟩
    | terminate =>
      refine ⟨h.halt, hsched.leave hwake (fun d hd => ?_) (fun hr => by cases hr), h.held, h.awake⟩
      exact update_of_ne hd _ _
  | cons next wakeup =>
    have hpop : lists s.lock.queue s.wakeup (some c) = next :: wakeup := hwake
    obtain ⟨k, hk⟩ := (hsched.waits next).1 ⟨some c, hpop ▸ mem_cons_self⟩
    have hnot : next ∉ s.entered := fun hmem => (h.scheduled.running next hmem).2 k hk
    have hlive := hsched.alive next (by rw [hk]; exact Phase.noConfusion)
    have heq : coroutineEnter { s with wakeup := update s.wakeup c wakeup } next = { s with
          wakeup := update s.wakeup c wakeup
          phase := update s.phase next (.woken k)
          stack := .run next :: s.stack } := by
      refine (if_neg hnot).trans ?_
      simp only [hk, resume]
    simp only [CoState.runRestart, hfreed, if_false, hwake]
    rw [heq]
    refine ⟨h.halt, ?_, h.held, fun _ _ _ => .inr ⟨next, k, update_self ..⟩⟩
    refine h.scheduled.enter (hsched.quiet fun co hco => by cases hco) hlive hnot
      (fun m => Phase.noConfusion) ?_ (fun w => ?_) fun d hd => ?_
    · rw [lists_wakeup]
      exact hsched.placed.pop hpop
    · rw [lists_wakeup]
      exact hsched.placed.pop_iff hpop
    by_cases hdc : d = c
    · rw [hdc, hwake]
      exact cons_ne_nil next wakeup
    · exact (update_of_ne hdc _ _).symm.trans_ne hd

end

theorem CoInv.init (h : s.Initial) : CoInv s := by
  have hlist : lists [] s.wakeup = fun _ => [] := by
    funext i
    cases i with
    | none => rfl
    | some co => exact h.wakeup co
  constructor
  · rw [h.halt]
    rintro ⟨⟩
  · rw [h.lock, h.stack]
    constructor
    · rw [hlist]
      exact ⟨fun _ => nodup_nil, fun _ _ _ ha => by cases ha⟩
    · intro w
      rw [hlist, h.phase w]
      exact iff_of_false (fun ⟨_, hw⟩ => by cases hw) fun ⟨_, hw⟩ => by cases hw
    · exact fun co hco => absurd (h.phase co) hco
    · exact nodup_nil
    · exact fun co hco => by cases hco
    · exact fun co hco => absurd (h.wakeup co) hco
    · intro co m hco
      cases (h.phase co).symm.trans hco
  · rw [h.lock, h.holds]
    exact .inl ⟨rfl, rfl, fun hold hhold => by cases hhold⟩
  · intro _ _ hq
    rw [h.lock] at hq
    exact absurd rfl hq

theorem CoState.top_idle (h : s.inUserCode = true) (co : Addr)
    (hco : s.stack.head? = some (.run co)) : s.phase co = .idle := by
  obtain ⟨rest, hs⟩ := head?_eq_some_iff.1 hco
  rw [inUserCode, hs] at h
  exact eq_of_beq h

theorem CoInv.step {e : CoEvent} (h : CoInv s) (hs : coNext s e = some s') : CoInv s' := by
  revert hs
  -- the branches of `coNext` that lead to a state, event by event
  fun_cases coNext s e <;> rintro ⟨⟩
  · next co hguard =>
    obtain ⟨hwakeup, hphase⟩ := h.scheduled.of_dead hguard.2
    rw [← hwakeup, ← hphase, update_eq_self, update_eq_self]
    exact ⟨h.halt, h.scheduled.create hguard.2, h.held, h.awake⟩
  · next hguard =>
    obtain ⟨huser, hlive, hidle, hnot⟩ := hguard
    exact h.enter (top_idle huser) hlive hidle hnot
  · next hstack hidle =>
    exact ⟨h.halt, (h.running hstack).back hidle .yield, h.held, h.awake⟩
  · next hstack hguard =>
    exact ⟨h.halt, (h.running hstack).back hguard.1 .terminate, h.held, h.awake⟩
  · next m _ _ hstack _ => exact h.lockTest hstack m
  · next hstack m _ => exact h.lockTest hstack m
  · next hstack hguard => exact h.unlock hstack hguard.2
  · next keep _ _ _ hstack => exact h.runRestart hstack keep

theorem coInv_of_reachable (h : coMachine.Reachable s) : CoInv s := by
  refine h.invariant (fun s hs => CoInv.init hs) ?_
  intro s e s' _ hinv _ hs
  simp only [coMachine] at hs
  split at hs
  · cases hs
  · exact hinv.step hs

def CoState.Waits (s : CoState) (w : Addr) : Prop := ∃ m, s.phase w = .waiting m

/-- A coroutine that has waited for the lock runs, and is about to test it again. -/
def CoState.RunsWoken (s : CoState) (w : Addr) : Prop :=
  s.stack.head? = some (.run w) ∧ ∃ m, s.phase w = .woken m

/-- In every state of every run the assertions hold; a writer holds the lock alone; and if nobody
holds the lock and a coroutine waits for it, then some waiter is on the wake-up list of a coroutine
that has not come back to its caller or whose wake-up list is being run, or it runs. -/
theorem rwlock_wakes (h : coMachine.Reachable s) : s.halt ≠ some .assertion ∧
    (∀ co, (co, .write) ∈ s.holds → s.holds = [(co, .write)]) ∧
    (s.lock.writer = false ∧ s.lock.reader = 0 ↔ s.holds = []) ∧ (s.holds = [] → (∃ w, s.Waits w) →
      (∃ w co, s.Waits w ∧ w ∈ s.wakeup co ∧
        (.run co ∈ s.stack ∨ ∃ ret, .restart co ret ∈ s.stack)) ∨ ∃ w, s.RunsWoken w) := by
  have hinv := coInv_of_reachable h
  refine ⟨hinv.halt, fun co hco => ?_, hinv.held.free_iff, ?_⟩
  · rcases hinv.held with ⟨-, -, hall⟩ | ⟨-, -, d, hd⟩
    · cases hall _ hco
    · rw [hd] at hco ⊢
      cases mem_singleton.1 hco
      rfl
  rintro hfree ⟨w, hw⟩
  have hlisted : ∀ w co, w ∈ s.wakeup co → ∃ w co, s.Waits w ∧ w ∈ s.wakeup co ∧
      (.run co ∈ s.stack ∨ ∃ ret, .restart co ret ∈ s.stack) := by
    intro w co hmem
    refine ⟨w, co, (hinv.scheduled.waits w).1 ⟨some co, hmem⟩, hmem, ?_⟩
    obtain ⟨-, f, hf, rfl⟩ := hinv.scheduled.owned co (ne_nil_of_mem hmem)
    cases f with
    | run co => exact .inl hf
    | restart co ret => exact .inr ⟨ret, hf⟩
  obtain ⟨i, hi⟩ := (hinv.scheduled.waits w).2 hw
  cases i with
  | some co => exact .inl (hlisted w co hi)
  | none =>
    obtain ⟨hwriter, hreader⟩ := hinv.held.free_iff.2 hfree
    rcases hinv.awake hwriter hreader (ne_nil_of_mem hi) with ⟨co, hco⟩ | ⟨co, m, hco⟩
    · obtain ⟨w', hw'⟩ := exists_mem_of_ne_nil _ hco
      exact .inl (hlisted w' co hw')
    · exact .inr ⟨co, hinv.scheduled.woken co m hco, m, hco⟩

/-- No coroutine has been created. -/
def freshThread : CoState where
  lock := ⟨false, 0, []⟩
  wakeup _ := []
  phase _ := .idle
  memory _ := .freed
  stack := []
  holds := []
  halt := none

theorem freshThread_initial : freshThread.Initial :=
  ⟨rfl, fun _ => rfl, fun _ => rfl, fun _ => Memory.noConfusion, rfl, rfl, rfl⟩

/-- Two coroutines wait for the writer `1`.  It unlocks and yields, the first waiter is entered,
takes the lock and gives it back. -/
def lockAndUnlock : List CoEvent :=
  [.create 1, .create 2, .create 3, .enter 1, .lock .write, .yield, .restart true,
    .enter 2, .lock .write, .restart true, .enter 3, .lock .write, .restart true,
    .enter 1, .unlock .write, .yield, .restart true, .retest, .unlock .write]

theorem rwlock_wakes_lockAndUnlock :
    ∃ s, coMachine.run freshThread lockAndUnlock = some s ∧ s.holds = [] ∧ s.Waits 3 ∧
      ((∃ w co, s.Waits w ∧ w ∈ s.wakeup co ∧
        (.run co ∈ s.stack ∨ ∃ ret, .restart co ret ∈ s.stack)) ∨ ∃ w, s.RunsWoken w) := by
  have hrun : (coMachine.run freshThread lockAndUnlock).map (fun s => (s.holds, s.phase 3)) =
      some ([], .waiting .write) := by
    decide +kernel
  obtain ⟨s, hs, h⟩ := map_eq_some_iff.1 hrun
  obtain ⟨hholds, hwaits⟩ := Prod.mk.inj h
  have hreach : coMachine.Reachable s := .of_run (.init freshThread_initial) hs
  exact ⟨s, hs, hholds, ⟨.write, hwaits⟩, (rwlock_wakes hreach).2.2.2 hholds ⟨3, .write, hwaits⟩⟩

/-- The lock is free and `3` waits for it, on the wake-up list of `1`, which has yielded: the list
is being run, by a call that has entered `2`. -/
theorem waiter_of_yielded :
    ∃ s, coMachine.Reachable s ∧ s.holds = [] ∧ s.lock.writer = false ∧ s.lock.reader = 0 ∧
      s.Waits 3 ∧
      ¬ ((∃ w co, s.Waits w ∧ w ∈ s.wakeup co ∧ .run co ∈ s.stack) ∨ ∃ w, s.RunsWoken w) := by
  have hlock : (coMachine.run freshThread lockAndUnlock).map
      (fun s => (s.holds, s.lock.writer, s.lock.reader)) = some ([], false, 0) := by
    decide +kernel
  have hcalls : (coMachine.run freshThread lockAndUnlock).map
      (fun s => (s.stack, s.phase 3, s.wakeup 2, s.phase 2)) =
      some ([.run 2, .restart 1 .yield], .waiting .write, [], .idle) := by
    decide +kernel
  obtain ⟨s, hs, h⟩ := map_eq_some_iff.1 hlock
  rw [hs] at hcalls
  simp only [map_some, some.injEq, Prod.mk.injEq] at h hcalls
  obtain ⟨hholds, hwriter, hreader⟩ := h
  obtain ⟨hstack, hwaits, hlist, hidle⟩ := hcalls
  refine ⟨s, .of_run (.init freshThread_initial) hs, hholds, hwriter, hreader, ⟨.write, hwaits⟩, ?_⟩
  rintro (⟨w, co, -, hmem, hrunning⟩ | ⟨w, htop, m, hwoken⟩)
  · obtain rfl : co = 2 := by simpa [hstack] using hrunning
    rw [hlist] at hmem
    cases hmem
  · obtain rfl : 2 = w := by simpa [hstack] using htop
    cases hidle.symm.trans hwoken

/-- A waiter is on one queue, that of the lock or a wake-up list, and there once; nothing else is on
them. -/
theorem waits_iff_listed (h : coMachine.Reachable s) (w : Addr) :
    (s.Waits w ↔ ∃! i, w ∈ lists s.lock.queue s.wakeup i) ∧
      ∀ i, (lists s.lock.queue s.wakeup i).Nodup := by
  have hsched := (coInv_of_reachable h).scheduled
  refine ⟨(hsched.waits w).symm.trans ⟨?_, ExistsUnique.exists⟩, hsched.placed.nodup⟩
  rintro ⟨i, hi⟩
  exact ⟨i, hi, fun j hj => hsched.placed.unique j i w hj hi⟩

theorem waits_iff_listed_third : ∃ s, coMachine.run freshThread lockAndUnlock = some s ∧
    s.Waits 3 ∧ ∃! i, 3 ∈ lists s.lock.queue s.wakeup i := by
  obtain ⟨s, hs, hreach, hw⟩ := Machine.Reachable.exists_of_run (M := coMachine)
    (.init freshThread_initial) lockAndUnlock (P := (·.phase 3 = .waiting .write))
    (by decide +kernel)
  exact ⟨s, hs, ⟨_, hw⟩, (waits_iff_listed hreach 3).1.1 ⟨_, hw⟩⟩

end QemuAndroid.Coroutine
