import QemuAndroid.GoldfishPipe.WakeUp

/-!
# One call of `qemu_pipe_read_write`

A call of one task with everything around it arbitrary: before each step of the
call the other tasks, the interrupt handler, the services and the kernel may have
changed the pipe and the device at will (`Around`), only not whether this task
holds the mutex of the pipe.

A `Call` carries a ghost besides the task: whether the task holds `pipe->lock`.
-/

namespace QemuAndroid.GoldfishPipe

open Lib Option

variable {σ ι : Type}

/-- A call, and whether it holds `pipe->lock`. -/
structure Call where
  task : Task
  holds : Bool := false
deriving DecidableEq

/-- What a step of the call finds. -/
structure Around (σ ι : Type) where
  env : Env ι
  aps : Bool
  version : BitVec 32
  pipe : QemuPipe
  dev : PipeDevice σ

def Call.step (S : Services σ ι) (t : Nat) (c : Call) (x : Around σ ι) : Option Call :=
  if x.pipe.owner = some t ↔ c.holds = true then
    (c.task.step S x.env t x.aps x.version x.pipe x.dev).map fun (task, g, _) =>
      ⟨task, g.owner = some t⟩
  else none

/-- The calls of the task `t`, from their first step on. -/
def callMachine (S : Services σ ι) (t : Nat) : Machine Call (Around σ ι) where
  init c := ∃ pipe isWrite nonblock buffer bufflen,
    c = { task := { pipe := pipe, isWrite := isWrite, nonblock := nonblock, buffer := buffer,
                    bufflen := bufflen, pc := .start } }
  step := Call.step S t

variable {S : Services σ ι} {t : Nat} {c c' : Call} {x : Around σ ι}

theorem Call.step_eq_some (h : c.step S t x = some c') :
    (x.pipe.owner = some t ↔ c.holds = true) ∧ ∃ task g dev,
      c.task.step S x.env t x.aps x.version x.pipe x.dev = some (task, g, dev) ∧
      c' = ⟨task, g.owner = some t⟩ := by
  obtain ⟨howner, hstep⟩ := ite_none_right_eq_some.mp h
  obtain ⟨⟨task, g, dev⟩, hr, rfl⟩ := map_eq_some_iff.mp hstep
  exact ⟨howner, task, g, dev, hr, rfl⟩

/-! ## The mutex -/

/-- The places where a call holds `pipe->lock`. -/
def Pc.holdsLock : Pc → Bool
  | .loop | .transfer _ _ | .setBit | .wakeOn | .unlockWait | .unlock | .pollCmd | .pollUnlock _ =>
    true
  | .start | .lock | .waitTest | .waitEvent | .checkClosed | .relock | .pollLock | .returned _ =>
    false

/-- The error of `get_user_pages`. -/
def Env.pinError (env : Env ι) : Option (BitVec 32) :=
  match env.page with
  | .error e => some e
  | .ok _ => none

/-- Every page can be pinned, and no signal is pending where the mutex is taken again. -/
def Call.Undisturbed (c : Call) (x : Around σ ι) : Prop :=
  (c.task.pc = .loop → c.task.address < c.task.addressEnd → x.env.pinError = none) ∧
    (c.task.pc = .relock → x.env.signal = false)
deriving Decidable

theorem Task.holdsLock_afterTransfer (task : Task) (status : BitVec 32) :
    (task.afterTransfer status).pc.holdsLock = true := by
  unfold Task.afterTransfer
  split_ifs <;> rfl

theorem QemuPipe.owner_setWake (g : QemuPipe) (isWrite : Bool) :
    (g.setWake isWrite).owner = g.owner := by
  cases isWrite <;> rfl

/-- A step keeps the mutex with the places that hold it. -/
theorem Call.holds_step (hc : c.holds = c.task.pc.holdsLock) (hok : c.Undisturbed x)
    (h : c.step S t x = some c') : c'.holds = c'.task.pc.holdsLock := by
  obtain ⟨howner, task, g, dev, hstep, rfl⟩ := Call.step_eq_some h
  obtain ⟨hpage, hsignal⟩ := hok
  rw [hc] at howner
  unfold Task.step at hstep
  split at hstep
  case h_4 hpc =>
    obtain ⟨⟨dev', status⟩, -, he⟩ := map_eq_some_iff.mp hstep
    cases he
    rw [Task.holdsLock_afterTransfer]
    simpa [hpc, Pc.holdsLock] using howner
  case h_6 hpc =>
    obtain ⟨dev', -, he⟩ := map_eq_some_iff.mp hstep
    cases he
    simpa [hpc, Pc.holdsLock] using howner
  case h_14 hpc =>
    obtain ⟨dev₁, -, he⟩ := bind_eq_some_iff.mp hstep
    cases he
    simpa [hpc, Pc.holdsLock] using howner
  -- a page that is not pinned and an interrupted lock are the two steps that break it
  case h_3 hpc =>
    split at hstep
    · next hlt =>
      have hpin := hpage hpc hlt
      cases hp : x.env.page with
      | error e => simp [Env.pinError, hp] at hpin
      | ok page =>
        rw [hp] at hstep
        cases hstep
        simpa [hpc, Pc.holdsLock] using howner
    · cases hstep
      simpa [hpc, Pc.holdsLock] using howner
  all_goals
    repeat' split at hstep
    all_goals cases hstep
    all_goals simp_all [Pc.holdsLock, Task.out, QemuPipe.owner_setWake]

/-- In every run in which no page fails to be pinned and no signal is pending where the mutex is
taken again, a call that has returned does not hold the mutex, and a call that is about to release
it does. -/
theorem call_lock_balanced (h : (callMachine S t).Reach Call.Undisturbed c) :
    (∀ value, c.task.pc = .returned value → c.holds = false) ∧
      (c.task.pc = .unlock ∨ c.task.pc = .unlockWait → c.holds = true) := by
  have hc : c.holds = c.task.pc.holdsLock := by
    refine h.invariant ?_ fun c x c' _ hc hok hs => Call.holds_step hc hok hs
    rintro c ⟨pipe, isWrite, nonblock, buffer, bufflen, rfl⟩
    rfl
  rw [hc]
  constructor
  · rintro value hpc
    rw [hpc]
    rfl
  rintro (hpc | hpc)
  · rw [hpc]
    rfl
  · rw [hpc]
    rfl

/-- A step that finds the device after `events`; `owner` holds the mutex. -/
def aroundAfter (events : List (DriverEvent Unit)) (owner : Option Nat) (signal : Bool)
    (page : Except (BitVec 32) (BitVec 32)) : Around Unit Unit where
  env := { signal := signal, accessOk := true, page := page, bus := nameBus 1 }
  aps := false
  version := 1
  pipe := { owner := owner }
  dev := ((driverMachine againServices).run probedDriver events).elim .reset Driver.dev

/-- The first two steps of a call, up to the loop. -/
def entering (events : List (DriverEvent Unit)) : List (Around Unit Unit) :=
  List.replicate 2 (aroundAfter events none false (.ok 0))

def twoBytes (isWrite : Bool) : Call where
  task := { pipe := 0x1000, isWrite := isWrite, buffer := 0x8fff, bufflen := 2, pc := .start }

theorem twoBytes_init (isWrite : Bool) : (callMachine againServices 0).init (twoBytes isWrite) :=
  ⟨0x1000, isWrite, false, 0x8fff, 2, rfl⟩

/-- A page that cannot be pinned: the call returns with the mutex.  A signal at the second
`mutex_lock_interruptible`: the call is about to release a mutex that it does not hold. -/
theorem call_lock_unbalanced :
    (∃ c, (callMachine againServices 0).Reachable c ∧
      (c.task.pc = .returned errEfault ∧ c.holds = true)) ∧
    ∃ c, (callMachine againServices 0).Reachable c ∧ (c.task.pc = .unlock ∧ c.holds = false) := by
  have hinit : (callMachine againServices 0).Reachable (twoBytes false) :=
    .init (twoBytes_init false)
  constructor
  · exact hinit.exists_of_eval (entering [] ++ [aroundAfter [] (some 0) false (.error errEfault)])
      (by decide +kernel)
  · exact hinit.exists_of_eval (entering [] ++
      List.replicate 5 (aroundAfter readUntilAgain (some 0) false (.ok 0x8000)) ++
      [aroundAfter [] none false (.ok 0), aroundAfter [] none true (.ok 0)]) (by decide +kernel)

/-- The two bytes are written to a pipe that is not connected yet. -/
def writeTwoBytes : List (Around Unit Unit) :=
  entering [] ++ List.replicate 6
    (aroundAfter [.openFile 0x1000 (nameBus 0)] (some 0) false (.ok 0x8000))

theorem call_lock_balanced_twoBytes : ∃ c,
    (callMachine againServices 0).run (twoBytes true) writeTwoBytes = some c ∧
      c.task.pc = .returned 2 ∧ c.holds = false := by
  have hmeets :
      (callMachine againServices 0).Meets Call.Undisturbed (twoBytes true) writeTwoBytes := by
    decide +kernel
  obtain ⟨c, hrun, hreach, hpc⟩ := Machine.Reach.exists_of_run (.init (twoBytes_init true)) hmeets
    (P := (·.task.pc = .returned 2)) (by decide +kernel)
  exact ⟨c, hrun, hpc, (call_lock_balanced hreach).1 2 hpc⟩

end QemuAndroid.GoldfishPipe
