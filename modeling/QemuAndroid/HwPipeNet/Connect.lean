import QemuAndroid.HwPipeNet.Model

/-!
# A network pipe while it connects

While a network pipe waits for its connection, two parties drive the wanted mask
of its i/o object: the connector, which needs `LOOP_IO_WRITE` to hear about the
outcome, and `netPipe_resetState`, which recomputes the mask from `wakeWanted`
alone whenever the guest asks for a wake-up.

* A request for anything but a write wake-up while connecting takes
  `LOOP_IO_WRITE` away from the connector, and the outcome is never reported
  (`connect_never_reported`).  Without such requests a connecting pipe stays
  armed (`connecting_stays_armed`).
* A failure reported while a write wake-up is wanted leaves the mask armed for a
  pipe that has just been detached: the next write event reaches `qemu_pipe_wake`
  with a null pointer (`wakes_detached_pipe`).  Without such failures every call
  into the device is made on a pipe (`calls_attached`).
-/

namespace QemuAndroid.HwPipeNet

open Lib GoldfishPipe Option QLoopIo Net

/-! ## The mask -/

/-- `netPipe_resetState` computes the mask from `wakeWanted` and the state. -/
@[simp] theorem netPipeResetState_wanted (pipe : NetPipe) : (netPipeResetState pipe).io.wanted =
      { read := decide (pipe.state = .connected ∧ Wants pipe.wakeWanted pipeWakeRead)
        write := decide (Wants pipe.wakeWanted pipeWakeWrite) } := by
  unfold netPipeResetState
  split <;> split <;>
    simp_all [wantRead, wantWrite, dontWantRead, dontWantWrite]

theorem qloopioModify_ready_zero {io : QLoopIo} (h : io.ready = {}) (wanted : IoMask) :
    (qloopioModify io wanted).ready = {} := by
  rcases qloopioModify_ready io wanted with e | ⟨-, e⟩
  · rw [e, h]
  · exact e

variable {pipe : NetPipe} {s s' : Net} {e : NetEvent}

/-- No event appears out of nowhere. -/
theorem netPipeResetState_ready_zero (h : pipe.io.ready = {}) :
    (netPipeResetState pipe).io.ready = {} := by
  unfold netPipeResetState
  split <;> split <;>
    simp [wantRead, wantWrite, dontWantRead, dontWantWrite, qloopioModify_ready_zero, h]

/-! ## The callbacks -/

/-- What `netPipe_io_func` can do to a pipe whose pending events were cleared. -/
theorem netPipeIoFunc_cases (socketError : Int) (events : IoMask) (pipe : NetPipe)
    (hconn : pipe.state = .connecting → pipe.connector = .connecting) :
    let r := netPipeIoFunc socketError events pipe
    (pipe.state = .connecting ∧ socketError = 0 ∧
      ∃ pipe', r = (some pipe', []) ∧ pipe'.hwpipe = pipe.hwpipe ∧ pipe'.state = .connected ∧
        pipe'.connector = .completed) ∨
    (pipe.state = .connecting ∧ socketError ≠ 0 ∧
      ∃ pipe', r = (some pipe', if pipe.hwpipe = none then [] else [⟨pipe.hwpipe, .close⟩]) ∧
        pipe'.hwpipe = none ∧ pipe'.state = .closingSocket ∧ pipe'.connector = .error ∧
        pipe'.io.wanted = { write := decide (Wants pipe.wakeWanted pipeWakeWrite) } ∧
        pipe'.wakeWanted = pipe.wakeWanted ∧ (pipe.io.ready = {} → pipe'.io.ready = {})) ∨
    (pipe.state ≠ .connecting ∧
      ∃ pipe', r = (some pipe', if wakeFlags events pipe.wakeWanted = 0 then []
          else [⟨pipe.hwpipe, .wake ((wakeFlags events pipe.wakeWanted).setWidth 32)⟩]) ∧
        pipe'.hwpipe = pipe.hwpipe ∧ pipe'.state = pipe.state ∧
        pipe'.connector = pipe.connector) := by
  by_cases hs : pipe.state = .connecting
  · have hc := hconn hs
    by_cases he : socketError = 0
    · simp [netPipeIoFunc, hs, asyncConnectorRun, hc, he, netPipeResetState]
    right
    left
    refine ⟨hs, he, ?_⟩
    simp only [netPipeIoFunc, hs, asyncConnectorRun, hc, he, netPipeCloseFromSocket, if_true,
      if_false, reduceCtorEq]
    refine ⟨_, rfl, rfl, rfl, rfl, by simp, rfl, fun hz => ?_⟩
    exact netPipeResetState_ready_zero (qloopioModify_ready_zero hz _)
  · right
    right
    refine ⟨hs, ?_⟩
    by_cases hf : wakeFlags events pipe.wakeWanted = 0
    · exact ⟨netPipeResetState pipe, by simp [netPipeIoFunc, hs, hf], rfl, rfl, rfl⟩
    · refine ⟨netPipeResetState { pipe with
        wakeWanted := pipe.wakeWanted &&& ~~~wakeFlags events pipe.wakeWanted }, ?_, rfl, rfl, rfl⟩
      simp only [netPipeIoFunc, hs, hf, if_false, ne_eq, not_false_eq_true, if_true]

inductive NetEffect (s : Net) : NetEvent → Net → Prop
  | quiet {e : NetEvent} {s' : Net} (hpipe : s'.pipe = s.pipe) (hclosed : s'.closed = s.closed)
      (hlog : s'.log = s.log) : NetEffect s e s'
  | freed {e : NetEvent} : NetEffect s e { s with pipe := none }
  | ready {e : NetEvent} {pipe : NetPipe} {flag : IoMask} (hpipe : s.pipe = some pipe)
      (hwanted : ¬ pipe.io.wanted.IsZero) :
      NetEffect s e { s with pipe := some { pipe with io := pipe.io.setReady flag } }
  | called {socketError : Int} {pipe : NetPipe} (hpipe : s.pipe = some pipe)
      (hready : ¬ pipe.io.ready.IsZero) :
      NetEffect s (.ioBh socketError) (s.after (netPipeIoFunc socketError pipe.io.ready
        { pipe with io := { pipe.io with ready := {} } }))
  | asked {flags : BitVec 8} {pipe : NetPipe} (hpipe : s.pipe = some pipe)
      (hopen : s.closed = false) :
      NetEffect s (.wakeOn flags) { s with pipe := some (netPipeWakeOn flags pipe), status := 0 }

theorem command_quiet {f : NetPipe → Option (NetPipe × BitVec 32)}
    (hf : ∀ pipe r, f pipe = some r → r.1 = pipe) (h : s.command f = some s') :
    NetEffect s e s' := by
  unfold Net.command at h
  split at h
  · cases h
    exact .quiet rfl rfl rfl
  obtain ⟨pipe, hpipe, h⟩ := bind_eq_some_iff.mp h
  obtain ⟨⟨pipe', status⟩, hr, rfl⟩ := map_eq_some_iff.mp h
  obtain rfl : pipe' = pipe := hf pipe _ hr
  exact .quiet hpipe.symm rfl rfl

theorem step_effect (h : s.step e = some s') : NetEffect s e s' := by
  cases e with
  | fdRead =>
    obtain ⟨pipe, hpipe, h⟩ := bind_eq_some_iff.mp h
    obtain ⟨hw, ⟨⟩⟩ := ite_none_right_eq_some.mp h
    exact .ready hpipe fun hz => by simp [hz.1] at hw
  | fdWrite =>
    obtain ⟨pipe, hpipe, h⟩ := bind_eq_some_iff.mp h
    obtain ⟨hw, ⟨⟩⟩ := ite_none_right_eq_some.mp h
    exact .ready hpipe fun hz => by simp [hz.2] at hw
  | ioBh socketError =>
    obtain ⟨pipe, hpipe, h⟩ := bind_eq_some_iff.mp h
    obtain ⟨hready, ⟨⟩⟩ := ite_none_left_eq_some.mp h
    exact .called hpipe hready
  | wakeOn flags =>
    simp only [step, Net.command] at h
    split at h
    · cases h
      exact .quiet rfl rfl rfl
    · next hopen =>
      obtain ⟨pipe, hpipe, h⟩ := bind_eq_some_iff.mp h
      cases h
      exact .asked hpipe (by simpa using hopen)
  | send sizes results | recv sizes results =>
    refine command_quiet (fun pipe r hr => ?_) h
    obtain ⟨status, -, rfl⟩ := map_eq_some_iff.mp hr
    rfl
  | poll =>
    refine command_quiet (fun pipe r hr => ?_) h
    cases hr
    rfl
  | guestClose =>
    obtain ⟨pipe, -, rfl⟩ := map_eq_some_iff.mp h
    exact .freed

/-! ## Staying armed -/

/-- The guest asks a connecting pipe for a wake-up that leaves no write wake-up
wanted. -/
def DisarmsConnect (s : Net) : NetEvent → Prop
  | .wakeOn flags => s.closed = false ∧ ∃ pipe ∈ s.pipe, pipe.state = .connecting ∧
      ¬ Wants (pipe.wakeWanted ||| flags) pipeWakeWrite
  | _ => False

/-- A connecting pipe has its connector connecting, and is attached. -/
structure NetPipe.Fresh (pipe : NetPipe) : Prop where
  connector : pipe.state = .connecting → pipe.connector = .connecting
  attached : pipe.state = .connecting → pipe.hwpipe ≠ none

def NetPipe.Armed (pipe : NetPipe) : Prop :=
  pipe.state = .connecting → pipe.io.wanted.write = true

theorem fresh_init {hwpipe : Addr} {connect : ConnectResult}
    (h : netPipeInitFromAddress (some hwpipe) connect = some pipe) :
    pipe.Fresh ∧ pipe.Armed ∧ pipe.hwpipe ≠ none := by
  cases connect with
  | connected =>
    cases h
    exact ⟨⟨nofun, nofun⟩, nofun, nofun⟩
  | inProgress =>
    cases h
    exact ⟨⟨fun _ => rfl, nofun⟩, fun _ => by simp [wantWrite], nofun⟩
  | failed => cases h

/-- `netPipe_io_func` ends the connection attempt, one way or the other. -/
theorem netPipeIoFunc_not_connecting {socketError : Int} {events : IoMask} {pipe' : NetPipe}
    (hfresh : pipe.Fresh) (h : (netPipeIoFunc socketError events pipe).1 = some pipe') :
    pipe'.state ≠ .connecting ∧ (pipe.state = .connecting → pipe'.connector ≠ .connecting) := by
  rcases netPipeIoFunc_cases socketError events pipe hfresh.connector with
    ⟨-, -, p, hr, -, hs, hc⟩ | ⟨-, -, p, hr, -, hs, hc, -⟩ | ⟨hne, p, hr, -, hs, -⟩
  · obtain rfl : p = pipe' := by simpa [hr] using h
    simp [hs, hc]
  · obtain rfl : p = pipe' := by simpa [hr] using h
    simp [hs, hc]
  · obtain rfl : p = pipe' := by simpa [hr] using h
    exact ⟨by rw [hs]; exact hne, fun e => absurd e hne⟩

theorem NetEffect.fresh (h : NetEffect s e s') (hs : ∀ pipe, s.pipe = some pipe → pipe.Fresh) :
    ∀ pipe, s'.pipe = some pipe → pipe.Fresh := by
  intro pipe' hpipe'
  cases h with
  | quiet hpipe => exact hs pipe' (hpipe ▸ hpipe')
  | freed => cases hpipe'
  | ready hpipe =>
    obtain rfl := some.inj hpipe'
    exact ⟨(hs _ hpipe).connector, (hs _ hpipe).attached⟩
  | asked hpipe =>
    obtain rfl := some.inj hpipe'
    exact ⟨(hs _ hpipe).connector, (hs _ hpipe).attached⟩
  | @called socketError pipe hpipe hready =>
    have hf : NetPipe.Fresh { pipe with io := { pipe.io with ready := {} } } :=
      ⟨(hs _ hpipe).connector, (hs _ hpipe).attached⟩
    have hne := (netPipeIoFunc_not_connecting hf hpipe').1
    exact ⟨fun e => absurd e hne, fun e => absurd e hne⟩

/-- In every run a connecting pipe is attached, with its connector connecting. -/
theorem fresh_of_reach {ok : Net → NetEvent → Prop} (h : netMachine.Reach ok s) :
    ∀ pipe, s.pipe = some pipe → pipe.Fresh := by
  refine h.invariant ?_ ?_
  · rintro _ ⟨hwpipe, connect, pipe, hinit, rfl⟩ pipe' hpipe'
    obtain rfl := some.inj hpipe'
    exact (fresh_init hinit).1
  · rintro s e s' - ih - hs
    exact (step_effect hs).fresh ih

theorem NetEffect.armed (h : NetEffect s e s') (hfresh : ∀ pipe, s.pipe = some pipe → pipe.Fresh)
    (hs : ∀ pipe, s.pipe = some pipe → pipe.Armed) (hok : ¬ DisarmsConnect s e) :
    ∀ pipe, s'.pipe = some pipe → pipe.Armed := by
  intro pipe' hpipe' hconn
  cases h with
  | quiet hpipe => exact hs pipe' (hpipe ▸ hpipe') hconn
  | freed => cases hpipe'
  | @ready _ pipe flag hpipe =>
    obtain rfl := some.inj hpipe'
    exact hs pipe hpipe hconn
  | @called socketError pipe hpipe hready =>
    have hf : NetPipe.Fresh { pipe with io := { pipe.io with ready := {} } } :=
      ⟨(hfresh _ hpipe).connector, (hfresh _ hpipe).attached⟩
    exact absurd hconn (netPipeIoFunc_not_connecting hf hpipe').1
  | @asked flags pipe hpipe hopen =>
    obtain rfl := some.inj hpipe'
    have hw : Wants (pipe.wakeWanted ||| flags) pipeWakeWrite := by
      by_contra hw
      exact hok ⟨hopen, pipe, hpipe, hconn, hw⟩
    simpa [netPipeWakeOn] using hw

theorem netPipeIoFunc_isSome (socketError : Int) (events : IoMask) (hfresh : pipe.Fresh) :
    ∃ pipe', (netPipeIoFunc socketError events pipe).1 = some pipe' := by
  rcases netPipeIoFunc_cases socketError events pipe hfresh.connector with
    ⟨-, -, p, hr, -⟩ | ⟨-, -, p, hr, -⟩ | ⟨-, p, hr, -⟩
  all_goals exact ⟨p, by rw [hr]⟩

/-- The write event of a connecting pipe, and the bottom half that follows it, end
the attempt. -/
theorem connect_reported (hpipe : s.pipe = some pipe) (hfresh : pipe.Fresh)
    (hstate : pipe.state = .connecting) (hw : pipe.io.wanted.write = true) (socketError : Int) :
    ∃ s₁ s₂ pipe', s.step .fdWrite = some s₁ ∧ s₁.step (.ioBh socketError) = some s₂ ∧
      s₂.pipe = some pipe' ∧ pipe'.state ≠ .connecting ∧ pipe'.connector ≠ .connecting := by
  set pipe₁ : NetPipe := { pipe with io := pipe.io.setReady { write := true } }
  have hready : ¬ pipe₁.io.ready.IsZero := by
    simp [pipe₁, setReady, IoMask.union, IoMask.IsZero]
  have hf : NetPipe.Fresh { pipe₁ with io := { pipe₁.io with ready := {} } } :=
    ⟨hfresh.connector, hfresh.attached⟩
  obtain ⟨pipe', hpipe'⟩ := netPipeIoFunc_isSome socketError pipe₁.io.ready hf
  obtain ⟨hne, hcne⟩ := netPipeIoFunc_not_connecting hf hpipe'
  refine ⟨{ s with pipe := some pipe₁ }, Net.after { s with pipe := some pipe₁ }
    (netPipeIoFunc socketError pipe₁.io.ready { pipe₁ with io := { pipe₁.io with ready := {} } }),
    pipe', by simp [step, hpipe, hw, pipe₁], ?_, hpipe', hne, hcne hstate⟩
  simp only [step, bind_some, hready, if_false]

theorem disarmed_of_disarms (hpipe : s.pipe = some pipe) (hdis : DisarmsConnect s e)
    (hs : s.step e = some s') : ∃ pipe', s'.pipe = some pipe' ∧ pipe'.state = .connecting ∧
      pipe'.connector = pipe.connector ∧ pipe'.io.wanted.write = false := by
  cases e with
  | wakeOn flags =>
    obtain ⟨hopen, p, hp, hconn, hwant⟩ := hdis
    obtain rfl : p = pipe := some.inj (Eq.trans (Eq.symm hp) hpipe)
    have hs' : some { s with pipe := some (netPipeWakeOn flags p), status := 0 } = some s' := by
      simpa [step, Net.command, hopen, hpipe] using hs
    obtain rfl := some.inj hs'
    exact ⟨netPipeWakeOn flags p, rfl, hconn, rfl, by simpa [netPipeWakeOn] using hwant⟩
  | fdRead | fdWrite | ioBh | send | recv | poll | guestClose => cases hdis

/-- A connecting pipe stays armed.  In every run in which the guest does not ask a
connecting pipe for a wake-up that leaves no write wake-up wanted, the wanted mask
of a connecting pipe contains `LOOP_IO_WRITE`, and whatever the outcome of the
connection, the write event and the bottom half that follow it end the attempt.
The condition is exact: a request of the other kind takes `LOOP_IO_WRITE` out of
the mask of a pipe that is still connecting. -/
theorem connecting_stays_armed (s : Net) (h : netMachine.Reach (fun s e => ¬ DisarmsConnect s e) s)
    (pipe : NetPipe) (hpipe : s.pipe = some pipe) (hstate : pipe.state = .connecting) :
    pipe.connector = .connecting ∧ pipe.io.wanted.write = true ∧
    (∀ socketError, ∃ s₁ s₂ pipe', s.step .fdWrite = some s₁ ∧
      s₁.step (.ioBh socketError) = some s₂ ∧ s₂.pipe = some pipe' ∧
      pipe'.state ≠ .connecting ∧ pipe'.connector ≠ .connecting) ∧
    ∀ e s', DisarmsConnect s e → s.step e = some s' →
      ∃ pipe', s'.pipe = some pipe' ∧ pipe'.state = .connecting ∧ pipe'.connector = .connecting ∧
        pipe'.io.wanted.write = false := by
  have hfresh := fresh_of_reach h pipe hpipe
  have harmed : ∀ pipe, s.pipe = some pipe → pipe.Armed := by
    refine h.invariant ?_ ?_
    · rintro _ ⟨hwpipe, connect, pipe, hinit, rfl⟩ pipe' hpipe'
      obtain rfl := some.inj hpipe'
      exact (fresh_init hinit).2.1
    · rintro s e s' hreach ih hok hs
      exact (step_effect hs).armed (fresh_of_reach hreach) ih hok
  have hw := harmed pipe hpipe hstate
  have hc := hfresh.connector hstate
  refine ⟨hc, hw, connect_reported hpipe hfresh hstate hw, ?_⟩
  intro e s' hdis hs
  obtain ⟨pipe', hpipe', hst, hconn, hwrite⟩ := disarmed_of_disarms hpipe hdis hs
  exact ⟨pipe', hpipe', hst, hconn.trans hc, hwrite⟩

instance (s : Net) (e : NetEvent) : Decidable (DisarmsConnect s e) := by
  cases e <;> unfold DisarmsConnect <;> infer_instance

/-- A network pipe whose connection is in progress. -/
def connecting : Net where
  pipe := netPipeInitFromAddress (some 0) .inProgress
  status := 0
  closed := false
  log := []

theorem connecting_init : netMachine.init connecting := ⟨0, .inProgress, _, rfl, rfl⟩

/-- The guest asks a connecting pipe for a read wake-up: the looper stops watching
the descriptor for writing, so the descriptor handler never runs. -/
theorem connect_never_reported :
    ∃ s pipe, netMachine.Reachable s ∧ s.pipe = some pipe ∧ pipe.state = .connecting ∧
      pipe.connector = .connecting ∧ pipe.io.wanted.write = false ∧ s.step .fdWrite = none := by
  have hrun : netMachine.run connecting [.wakeOn pipeWakeRead] = some _ := rfl
  refine ⟨_, _, Machine.Reachable.of_run (.init connecting_init) hrun, rfl, rfl, rfl, ?_, rfl⟩
  decide

/-- A guest that asks for read and write wake-ups at once keeps the pipe armed. -/
theorem connecting_stays_armed_wakeOnBoth :
    ∃ s pipe, netMachine.run connecting [.poll, .wakeOn (pipeWakeRead ||| pipeWakeWrite)] = some s ∧
      s.pipe = some pipe ∧ pipe.io.wanted.write = true := by
  have hok : netMachine.Meets (fun s e => ¬ DisarmsConnect s e) connecting
      [.poll, .wakeOn (pipeWakeRead ||| pipeWakeWrite)] := by decide
  refine ⟨_, _, rfl, rfl, ?_⟩
  have hreach := Machine.Reach.of_run (.init connecting_init) hok rfl
  exact (connecting_stays_armed _ hreach _ rfl rfl).2.1

/-! ## Calls on a detached pipe -/

/-- The connector reports a failure while a write wake-up is wanted. -/
def FailsWithWriteWanted (s : Net) : NetEvent → Prop
  | .ioBh socketError => socketError ≠ 0 ∧ ∃ pipe ∈ s.pipe, pipe.state = .connecting ∧
      Wants pipe.wakeWanted pipeWakeWrite
  | _ => False

instance (s : Net) (e : NetEvent) : Decidable (FailsWithWriteWanted s e) := by
  cases e <;> unfold FailsWithWriteWanted <;> infer_instance

/-- Every call was made on a pipe, and the looper has nothing to do for a pipe that
is detached. -/
structure Net.Attached (s : Net) : Prop where
  log : ∀ c ∈ s.log, c.hwpipe ≠ none
  closing : ∀ pipe, s.pipe = some pipe → (pipe.hwpipe = none ↔ pipe.state = .closingSocket)
  detached : ∀ pipe, s.pipe = some pipe → pipe.hwpipe = none → pipe.io = {} ∧ s.closed = true

theorem attached_init (h : netMachine.init s) : s.Attached := by
  obtain ⟨hwpipe, connect, pipe, hinit, rfl⟩ := h
  have hclosing : pipe.state ≠ .closingSocket := by
    cases connect <;> cases hinit <;> simp [netPipeResetState]
  have hne := (fresh_init hinit).2.2
  refine ⟨nofun, ?_, ?_⟩
  · simp [hne, hclosing]
  · rintro p hp hnone
    obtain rfl := some.inj hp
    exact absurd hnone hne

/-- The bottom half keeps the pipe attached unless the connection fails with a write
wake-up wanted. -/
theorem Net.Attached.after (h : s.Attached) (hpipe : s.pipe = some pipe) (hfresh : pipe.Fresh)
    (hready : ¬ pipe.io.ready.IsZero) {socketError : Int}
    (hok : ¬ FailsWithWriteWanted s (.ioBh socketError)) :
    (s.after (netPipeIoFunc socketError pipe.io.ready
      { pipe with io := { pipe.io with ready := {} } })).Attached := by
  have hne : pipe.hwpipe ≠ none := by
    intro hnone
    rw [(h.detached pipe hpipe hnone).1] at hready
    exact hready ⟨rfl, rfl⟩
  rcases netPipeIoFunc_cases socketError pipe.io.ready
    { pipe with io := { pipe.io with ready := {} } } hfresh.connector with
    ⟨-, -, p, hr, hw, hs, -⟩ | ⟨hconn, he, p, hr, hw, hs, -, hwanted, -, hz⟩ | ⟨-, p, hr, hw, hs, -⟩
  · rw [hr]
    refine ⟨by simpa [Net.after] using h.log, ?_, ?_⟩
    · rintro p' hp'
      obtain rfl := some.inj hp'
      simp [hw, hs, hne]
    · rintro p' hp' hnone
      obtain rfl := some.inj hp'
      exact absurd (hw.symm.trans hnone) hne
  · rw [hr]
    have hnw : ¬ Wants pipe.wakeWanted pipeWakeWrite := by
      intro hwant
      exact hok ⟨he, pipe, hpipe, hconn, hwant⟩
    refine ⟨?_, ?_, ?_⟩
    · simpa [Net.after, hne] using h.log
    · rintro p' hp'
      obtain rfl := some.inj hp'
      simp [hw, hs]
    rintro p' hp' -
    obtain rfl := some.inj hp'
    refine ⟨?_, ?_⟩
    · have hio : p.io = ⟨p.io.wanted, p.io.ready⟩ := rfl
      rw [hio, hwanted, hz rfl]
      simp [hnw]
    · simp [Net.after, hne, isSome_iff_ne_none]
  · rw [hr]
    refine ⟨?_, ?_, ?_⟩
    · rintro c hc
      rcases List.mem_append.mp hc with hc | hc
      · split at hc
        · cases hc
        · obtain rfl : c = _ := by simpa using hc
          exact hne
      · exact h.log c hc
    · rintro p' hp'
      obtain rfl := some.inj hp'
      rw [hw, hs]
      exact h.closing pipe hpipe
    · rintro p' hp' hnone
      obtain rfl := some.inj hp'
      exact absurd (hw.symm.trans hnone) hne

theorem NetEffect.attached (he : NetEffect s e s')
    (hfresh : ∀ pipe, s.pipe = some pipe → pipe.Fresh) (h : s.Attached)
    (hok : ¬ FailsWithWriteWanted s e) : s'.Attached := by
  cases he with
  | quiet hpipe hclosed hlog =>
    refine ⟨?_, ?_, ?_⟩
    · rw [hlog]
      exact h.log
    · rw [hpipe]
      exact h.closing
    · rw [hpipe, hclosed]
      exact h.detached
  | freed => exact ⟨h.log, nofun, nofun⟩
  | @ready _ pipe flag hpipe hwanted =>
    have hne : pipe.hwpipe ≠ none := by
      intro hnone
      rw [(h.detached pipe hpipe hnone).1] at hwanted
      exact hwanted ⟨rfl, rfl⟩
    refine ⟨h.log, ?_, ?_⟩
    · rintro p' hp'
      obtain rfl := some.inj hp'
      exact h.closing pipe hpipe
    · rintro p' hp' hnone
      obtain rfl := some.inj hp'
      exact absurd hnone hne
  | called hpipe hready => exact h.after hpipe (hfresh _ hpipe) hready hok
  | @asked flags pipe hpipe hopen =>
    have hne : pipe.hwpipe ≠ none := by
      intro hnone
      have hclosed := (h.detached pipe hpipe hnone).2
      simp [hopen] at hclosed
    refine ⟨h.log, ?_, ?_⟩
    · rintro p' hp'
      obtain rfl := some.inj hp'
      exact h.closing pipe hpipe
    · rintro p' hp' hnone
      obtain rfl := some.inj hp'
      exact absurd hnone hne

/-- The write event of a detached pipe that is still armed wakes a null pipe. -/
theorem wakes_null_of_armed (hpipe : s.pipe = some pipe) (hnone : pipe.hwpipe = none)
    (hstate : pipe.state = .closingSocket) (hwrite : pipe.io.wanted.write = true)
    (hready : pipe.io.ready = {}) (hwant : Wants pipe.wakeWanted pipeWakeWrite) :
    ∃ s₁ s₂, s.step .fdWrite = some s₁ ∧ s₁.step (.ioBh 0) = some s₂ ∧
      ⟨none, .wake (pipeWakeWrite.setWidth 32)⟩ ∈ s₂.log := by
  have hset : pipe.io.setReady { write := true } = ⟨pipe.io.wanted, { write := true }⟩ := by
    simp [setReady, hready, IoMask.union]
  have hflags : wakeFlags { write := true } pipe.wakeWanted = pipeWakeWrite := by
    simp [wakeFlags, hwant]
  set pipe₁ : NetPipe := { pipe with io := ⟨pipe.io.wanted, { write := true }⟩ } with hpipe₁
  refine ⟨{ s with pipe := some pipe₁ }, _, by simp [step, hpipe, hwrite, hset, pipe₁], rfl, ?_⟩
  have hr : (netPipeIoFunc 0 { write := true } { pipe₁ with
      io := { pipe₁.io with ready := {} } }).2 = [⟨none, .wake (pipeWakeWrite.setWidth 32)⟩] := by
    simp only [netPipeIoFunc, hpipe₁, hstate, hflags, reduceCtorEq, if_false, hnone]
    rfl
  simp only [Net.after]
  rw [hr]
  exact List.mem_cons_self

/-- After a failure with a write wake-up wanted, the next write event wakes a null
pipe. -/
theorem wakes_null_of_fails (hfresh : ∀ pipe, s.pipe = some pipe → pipe.Fresh)
    (hfail : FailsWithWriteWanted s e) (hs : s.step e = some s') :
    ∃ s₁ s₂, s'.step .fdWrite = some s₁ ∧ s₁.step (.ioBh 0) = some s₂ ∧
      ⟨none, .wake (pipeWakeWrite.setWidth 32)⟩ ∈ s₂.log := by
  cases e with
  | ioBh socketError =>
    obtain ⟨he, pipe, hpipe, hconn, hwant⟩ := hfail
    obtain ⟨p₀, hp₀, hstep⟩ := bind_eq_some_iff.mp hs
    obtain rfl : p₀ = pipe := some.inj (Eq.trans (Eq.symm hp₀) hpipe)
    split at hstep
    · cases hstep
    obtain rfl := some.inj hstep
    rcases netPipeIoFunc_cases socketError p₀.io.ready
      { p₀ with io := { p₀.io with ready := {} } } (hfresh _ hpipe).connector with
      ⟨-, hz, -⟩ | ⟨-, -, p, hr, hw, hst, -, hwanted, hww, hready⟩ | ⟨hne, -⟩
    · exact absurd hz he
    · have hp : (s.after (netPipeIoFunc socketError p₀.io.ready
          { p₀ with io := { p₀.io with ready := {} } })).pipe = some p := by
        simp only [Net.after, hr]
      have hpw : p.io.wanted.write = true := by simp [hwanted, hwant]
      exact wakes_null_of_armed hp hw hst hpw (hready rfl) (hww ▸ hwant)
    · exact absurd hconn hne
  | fdRead | fdWrite | wakeOn | send | recv | poll | guestClose => cases hfail

/-- Calls into the device are made on pipes.  In every run in which the connector
never reports a failure while a write wake-up is wanted, `qemu_pipe_wake` and
`qemu_pipe_close` are called on non-null pointers only, and a pipe in
`STATE_CLOSING_SOCKET` has no event wanted or pending, so that `netPipe_io_func`
is not called for it again.  The condition is exact: after a failure of the other
kind the next write event calls `qemu_pipe_wake` on a null pointer. -/
theorem calls_attached (s : Net) (h : netMachine.Reach (fun s e => ¬ FailsWithWriteWanted s e) s) :
    (∀ c ∈ s.log, c.hwpipe ≠ none) ∧
    (∀ pipe, s.pipe = some pipe → (pipe.hwpipe = none ↔ pipe.state = .closingSocket) ∧
      (pipe.state = .closingSocket → pipe.io.wanted.IsZero ∧
        s.step .fdRead = none ∧ s.step .fdWrite = none ∧
        ∀ socketError, s.step (.ioBh socketError) = none)) ∧
    ∀ e s', FailsWithWriteWanted s e → s.step e = some s' →
      ∃ s₁ s₂, s'.step .fdWrite = some s₁ ∧ s₁.step (.ioBh 0) = some s₂ ∧
        ⟨none, .wake (pipeWakeWrite.setWidth 32)⟩ ∈ s₂.log := by
  have hinv : s.Attached := by
    refine h.invariant (fun s => attached_init) ?_
    rintro s e s' hreach ih hok hs
    exact (step_effect hs).attached (fresh_of_reach hreach) ih hok
  refine ⟨hinv.log, fun pipe hpipe => ⟨hinv.closing pipe hpipe, fun hclosing => ?_⟩, ?_⟩
  · have hio := (hinv.detached pipe hpipe ((hinv.closing pipe hpipe).mpr hclosing)).1
    simp [step, hpipe, hio, IoMask.IsZero]
  · rintro e s' hfail hs
    exact wakes_null_of_fails (fresh_of_reach h) hfail hs

/-- A write wake-up wanted, a failed connection, and the write event that follows. -/
def failWithWriteWanted : List NetEvent :=
  [.wakeOn pipeWakeWrite, .fdWrite, .ioBh 111, .fdWrite, .ioBh 0]

/-- `qemu_pipe_wake` is called on a null pointer. -/
theorem wakes_detached_pipe :
    ∃ s, netMachine.Reachable s ∧ (⟨none, .wake 4⟩ : PipeCall) ∈ s.log := by
  exact Machine.Reachable.exists_of_eval (.init connecting_init) failWithWriteWanted (by decide)

/-- A failed connection with no write wake-up wanted, and the guest's close. -/
theorem calls_attached_failedConnect :
    ∃ s, netMachine.run connecting [.fdWrite, .ioBh 111, .wakeOn pipeWakeWrite] = some s ∧
      s.log ≠ [] ∧ (∀ c ∈ s.log, c.hwpipe ≠ none) := by
  have hok : netMachine.Meets (fun s e => ¬ FailsWithWriteWanted s e) connecting
      [.fdWrite, .ioBh 111, .wakeOn pipeWakeWrite] := by decide
  refine ⟨_, rfl, by decide, ?_⟩
  exact (calls_attached _ (Machine.Reach.of_run (.init connecting_init) hok rfl)).1

end QemuAndroid.HwPipeNet
