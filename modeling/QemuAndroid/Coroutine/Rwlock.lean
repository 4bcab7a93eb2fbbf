import QemuAndroid.Lib.Intrusive
import QemuAndroid.Lib.Machine
import QemuAndroid.Lib.Prog

/-!
# Coroutines that share a reader/writer lock

`qemu_coroutine_enter` is an ordinary call: it switches to the coroutine, comes back when that one
yields or terminates, and then enters every coroutine on its wake-up list before it returns.  The
calls that have not returned form a stack, with the running coroutine on top; a coroutine has a
`caller` as long as its call has not come back, and keeps it if it terminates.

`CoRwlock` (`qemu-coroutine-lock.c`) keeps a queue of coroutines that wait for the lock.  An unlock
only moves waiters to the wake-up list of the coroutine that unlocks; a waiter that is entered tests
the lock again.

A coroutine that has terminated is deleted when its call returns.  Its memory is kept in a pool, or
freed if the pools are full, which depends on all the coroutines of the process and is left to the
environment.  The user code of the coroutines is arbitrary, as long as unlocks match locks; a
coroutine on one of the queues is entered by nobody else.
-/

namespace QemuAndroid.Coroutine

open Lib Function

/-! ## The lock -/

/-- The two ways to hold the lock. -/
inductive Mode
  | read
  | write
deriving DecidableEq

structure CoRwlock where
  writer : Bool
  reader : Int
  queue : List Addr

/-- The condition of the loops of `qemu_co_rwlock_rdlock` and `qemu_co_rwlock_wrlock`. -/
def CoRwlock.busy (l : CoRwlock) : Mode → Bool
  | .read => l.writer
  | .write => l.writer || l.reader != 0

/-- What the two functions do after their loop. -/
def CoRwlock.take (l : CoRwlock) : Mode → CoRwlock
  | .read => { l with reader := l.reader + 1 }
  | .write => { l with writer := true }

/-! ## Coroutines -/

inductive Phase
  /-- in the code of its user -/
  | idle
  /-- in `qemu_co_queue_wait`, called for the lock -/
  | waiting (m : Mode)
  /-- entered again, and about to test the lock -/
  | woken (m : Mode)
deriving DecidableEq

/-- What has become of the memory of a coroutine. -/
inductive Memory
  | freed
  /-- on one of the free lists of `qemu_coroutine_create` -/
  | pooled
  | live
deriving DecidableEq

/-- How a coroutine comes back to its caller. -/
inductive CoroutineAction
  | yield
  | terminate
deriving DecidableEq

/-- A call of `qemu_coroutine_enter` that has not returned. -/
inductive Frame
  /-- the coroutine runs, or is itself waiting for a call to return -/
  | run (co : Addr)
  /-- the call is in `qemu_co_queue_run_restart` -/
  | restart (co : Addr) (ret : CoroutineAction)
deriving DecidableEq

def Frame.co : Frame → Addr
  | .run c => c
  | .restart c _ => c

/-- The coroutine of the call, if it has a `caller`. -/
def Frame.entered : Frame → Option Addr
  | .run c => some c
  | .restart _ .yield => none
  | .restart c .terminate => some c

/-- A thread, its coroutines and the lock. -/
structure CoState where
  lock : CoRwlock
  /-- `co_queue_wakeup` -/
  wakeup : Addr → List Addr
  phase : Addr → Phase
  memory : Addr → Memory
  stack : List Frame
  /-- the calls of `rdlock` and `wrlock` that have returned and not been unlocked -/
  holds : List (Addr × Mode)
  halt : Option Halt

namespace CoState

/-- The coroutines with a `caller`. -/
def entered (s : CoState) : List Addr := s.stack.filterMap Frame.entered

/-- One turn of the loop of `qemu_co_rwlock_rdlock` or `qemu_co_rwlock_wrlock`. -/
def lockTest (s : CoState) (co : Addr) (m : Mode) (rest : List Frame) : CoState :=
  if s.lock.busy m then
    -- `qemu_co_queue_wait`
    { s with
      lock := { s.lock with queue := s.lock.queue ++ [co] }
      phase := update s.phase co (.waiting m)
      stack := .restart co .yield :: rest }
  else
    { s with
      lock := s.lock.take m
      phase := update s.phase co .idle
      holds := (co, m) :: s.holds }

/-- `qemu_co_queue_next`. -/
def queueNext (s : CoState) (self : Addr) : CoState :=
  match s.lock.queue with
  | [] => s
  | next :: queue =>
    { s with
      lock := { s.lock with queue := queue }
      wakeup := update s.wakeup self (s.wakeup self ++ [next]) }

/-- `qemu_co_queue_restart_all`. -/
def queueRestartAll (s : CoState) (self : Addr) : CoState :=
  { s with
    lock := { s.lock with queue := [] }
    wakeup := update s.wakeup self (s.wakeup self ++ s.lock.queue) }

/-- `qemu_co_rwlock_unlock`. -/
def rwlockUnlock (s : CoState) (self : Addr) : CoState :=
  if s.lock.writer then
    { s with lock := { s.lock with writer := false } }.queueRestartAll self
  else if s.lock.reader - 1 < 0 then
    { s with lock := { s.lock with reader := s.lock.reader - 1 }, halt := some .assertion }
  else if s.lock.reader - 1 = 0 then
    { s with lock := { s.lock with reader := s.lock.reader - 1 } }.queueNext self
  else
    { s with lock := { s.lock with reader := s.lock.reader - 1 } }

/-- A waiter that is entered goes on with its loop. -/
def resume : Phase → Phase
  | .idle => .idle
  | .waiting m => .woken m
  | .woken m => .woken m

/-- `qemu_coroutine_enter`, up to the switch. -/
def coroutineEnter (s : CoState) (co : Addr) : CoState :=
  if co ∈ s.entered then { s with halt := some .assertion }
  else
    { s with
      phase := update s.phase co (resume (s.phase co))
      stack := .run co :: s.stack }

/-- One turn of the loop of `qemu_co_queue_run_restart`, and the end of `qemu_coroutine_enter` when
the loop is over. -/
def runRestart (s : CoState) (co : Addr) (ret : CoroutineAction) (rest : List Frame)
    (keep : Bool) : CoState :=
  if s.memory co = .freed then { s with halt := some .undefined }
  else match s.wakeup co with
    | next :: wakeup =>
      { s with wakeup := update s.wakeup co wakeup }.coroutineEnter next
    | [] =>
      match ret with
      | .yield => { s with stack := rest }
      -- `coroutine_delete`
      | .terminate =>
        { s with
          stack := rest
          memory := update s.memory co (if keep then .pooled else .freed) }

end CoState

/-! ## Runs -/

/-- What the running code does next. -/
inductive CoEvent
  | create (co : Addr)
  | enter (co : Addr)
  | yield
  | terminate
  | lock (m : Mode)
  /-- a waiter that has been entered tests the lock again -/
  | retest
  | unlock (m : Mode)
  /-- `keep` if a pool has room for a deleted coroutine -/
  | restart (keep : Bool)

/-- User code runs, in a coroutine or outside. -/
def CoState.inUserCode (s : CoState) : Bool :=
  match s.stack with
  | [] => true
  | .run co :: _ => s.phase co == .idle
  | .restart _ _ :: _ => false

/-- One event, `none` when it cannot happen. -/
def coNext (s : CoState) : CoEvent → Option CoState
  | .create co =>
    if s.inUserCode ∧ s.memory co ≠ .live then
      some { s with
        memory := update s.memory co .live
        wakeup := update s.wakeup co []
        phase := update s.phase co .idle }
    else none
  | .enter co =>
    if s.inUserCode ∧ s.memory co = .live ∧ s.phase co = .idle ∧ co ∉ s.entered then
      some (s.coroutineEnter co)
    else none
  | .yield =>
    match s.stack with
    | .run co :: rest =>
      if s.phase co = .idle then some { s with stack := .restart co .yield :: rest } else none
    | _ => none
  | .terminate =>
    match s.stack with
    | .run co :: rest =>
      if s.phase co = .idle ∧ ∀ hold ∈ s.holds, hold.1 ≠ co then
        some { s with stack := .restart co .terminate :: rest }
      else none
    | _ => none
  | .lock m =>
    match s.stack with
    | .run co :: rest => if s.phase co = .idle then some (s.lockTest co m rest) else none
    | _ => none
  | .retest =>
    match s.stack with
    | .run co :: rest =>
      match s.phase co with
      | .woken m => some (s.lockTest co m rest)
      | _ => none
    | _ => none
  | .unlock m =>
    match s.stack with
    | .run co :: _ =>
      if s.phase co = .idle ∧ (co, m) ∈ s.holds then
        some { s.rwlockUnlock co with holds := s.holds.erase (co, m) }
      else none
    | _ => none
  | .restart keep =>
    match s.stack with
    | .restart co ret :: rest => some (s.runRestart co ret rest keep)
    | _ => none

/-- The lock has just been initialised, and no coroutine has been created to use it. -/
structure CoState.Initial (s : CoState) : Prop where
  lock : s.lock = ⟨false, 0, []⟩
  wakeup : ∀ co, s.wakeup co = []
  phase : ∀ co, s.phase co = .idle
  memory : ∀ co, s.memory co ≠ .live
  stack : s.stack = []
  holds : s.holds = []
  halt : s.halt = none

/-- Any events, as long as the program has not come to a halt. -/
def coMachine : Machine CoState CoEvent where
  init := CoState.Initial
  step s e := if s.halt.isSome then none else coNext s e

end QemuAndroid.Coroutine
