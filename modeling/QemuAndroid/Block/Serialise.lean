import QemuAndroid.Block.Request
import QemuAndroid.Lib.Machine

/-!
# Requests that wait for each other

Requests to one device run as coroutines.  A coroutine runs until it waits for another request, for
the driver, or for a debugger, so between these points the code of a request is one step.  What a
request does is a list of instructions (`Instr`): those of `bdrv_co_do_preadv`, `bdrv_co_do_pwritev`
and `bdrv_co_do_zero_pwritev` that concern other requests.

A request is known by its address.  Addresses are used again after a request has ended, while a
woken request still has the old one in its `waiting_for`.
-/

namespace QemuAndroid.Block

open Lib

/-! ## What requests do -/

/-- The assertion behind a call of `wait_serialising_requests`. -/
inductive WaitCheck
  | none
  /-- `assert(!waited || !req->serialising)` -/
  | notSerialising
  /-- `assert(!waited || !use_local_qiov)` -/
  | notLocal (useLocalQiov : Bool)
deriving DecidableEq

def WaitCheck.holds (check : WaitCheck) (waited : Bool) (req : TrackedRequest) : Bool :=
  match check with
  | .none => true
  | .notSerialising => !waited || !req.serialising
  | .notLocal useLocalQiov => !waited || !useLocalQiov

inductive Instr
  | mark (align : Nat)
  | wait (check : WaitCheck)
  /-- the calls of the driver, which may fail -/
  | io
  /-- `BLKDBG_EVENT`, where a debugger may hold the request -/
  | debugEvent
deriving DecidableEq

/-- The alignment of the device, and what `bdrv_get_cluster_size` returns. -/
structure TrackConfig where
  align : Nat
  clusterSize : Nat

variable (cfg : TrackConfig)

def alignedPreadv (copyOnRead : Bool) : List Instr :=
  (if copyOnRead then [.mark cfg.clusterSize] else []) ++ [.wait .none, .io]

def alignedPwritev : List Instr := [.wait .notSerialising, .io, .debugEvent]

/-- The read of a read-modify-write cycle. -/
def rmwRead (check : WaitCheck) : List Instr :=
  [.mark cfg.align, .wait check, .debugEvent] ++ alignedPreadv cfg false ++ [.debugEvent]

inductive Call
  | read (offset bytes : Nat) (copyOnRead : Bool)
  | write (offset bytes : Nat)
  | writeZeroes (offset bytes : Nat)

/-- The bytes of a read, with its padding. -/
def paddedBytes (align offset bytes : Nat) : Nat :=
  let bytes := (bytes + offset % align) % 2 ^ 32
  if (alignDown offset align + bytes) % align ≠ 0 then roundUp bytes align % 2 ^ 32 else bytes

def Call.begin : Call → TrackedRequest
  | .read offset bytes _ =>
    trackedRequestBegin (alignDown offset cfg.align) (paddedBytes cfg.align offset bytes) false
  | .write offset bytes => trackedRequestBegin offset bytes true
  | .writeZeroes offset bytes => trackedRequestBegin offset bytes true

/-- `bdrv_co_do_pwritev` of data. -/
def pwritevScript (offset bytes : Nat) : List Instr :=
  let useLocalQiov : Bool := offset % cfg.align ≠ 0
  (if useLocalQiov then rmwRead cfg .none else []) ++
    (if (offset + bytes) % cfg.align ≠ 0 then rmwRead cfg (.notLocal useLocalQiov) else []) ++
    alignedPwritev

def zeroPwritevScript (offset bytes : Nat) : List Instr :=
  let headPaddingBytes := offset % cfg.align
  let zeroBytes := if headPaddingBytes ≠ 0 then min bytes (cfg.align - headPaddingBytes) else 0
  let left := bytes - zeroBytes
  (if headPaddingBytes ≠ 0 then rmwRead cfg .none ++ alignedPwritev else []) ++
    (if cfg.align ≤ left then alignedPwritev else []) ++
    (if left - alignDown left cfg.align ≠ 0 then rmwRead cfg .none ++ alignedPwritev else [])

/-- What a request does behind `tracked_request_begin`. -/
def Call.script : Call → List Instr
  | .read _ _ copyOnRead => alignedPreadv cfg copyOnRead
  | .write offset bytes => pwritevScript cfg offset bytes
  | .writeZeroes offset bytes => zeroPwritevScript cfg offset bytes

/-! ## Coroutines -/

/-- A request in `bs->tracked_requests`. -/
structure Tracked where
  id : Nat
  req : TrackedRequest
  waitingFor : Option Nat
  /-- the request it waited for has ended, and its coroutine will be entered -/
  woken : Bool
  /-- what it stands at, and what it has left to do -/
  prog : List Instr

/-- One request must not run at the same time as the other. -/
def Tracked.conflicts (self : TrackedRequest) (r : Tracked) : Bool :=
  (r.req.serialising || self.serialising) && r.req.overlaps self.overlapOffset self.overlapBytes

/-- The loop of `wait_serialising_requests`: the request that it waits for. -/
def findBlocker (self : TrackedRequest) (others : List Tracked) : Option Nat :=
  (others.find? fun r => r.conflicts self && r.waitingFor.isNone).map Tracked.id

/-- How a coroutine gives up control. -/
inductive Outcome
  | yield (self : Tracked) (inFlight : Nat)
  /-- it comes to `tracked_request_end` -/
  | finish (self : Tracked) (inFlight : Nat)
  | abort

def exec (others : List Tracked) : List Instr → Tracked → Nat → Outcome
  | [], self, inFlight => .finish self inFlight
  | .mark align :: prog, self, inFlight =>
    exec others prog { self with req := self.req.markSerialising align }
      (if self.req.serialising then inFlight else inFlight + 1)
  | .wait check :: prog, self, inFlight =>
    match if inFlight = 0 then none else findBlocker self.req others with
    | some r => .yield { self with waitingFor := some r, prog := .wait check :: prog } inFlight
    | none => if check.holds false self.req then exec others prog self inFlight else .abort
  | .io :: prog, self, inFlight => .yield { self with prog := .io :: prog } inFlight
  | .debugEvent :: prog, self, inFlight => .yield { self with prog := .debugEvent :: prog } inFlight

/-- A coroutine comes back from `qemu_co_queue_wait`. -/
def execWoken (others : List Tracked) (check : WaitCheck) (prog : List Instr) (self : Tracked)
    (inFlight : Nat) : Outcome :=
  match findBlocker self.req others with
  | some r => .yield { self with waitingFor := some r, prog := .wait check :: prog } inFlight
  | none => if check.holds true self.req then exec others prog self inFlight else .abort

/-! ## The device -/

/-- The part of a `BlockDriverState` that requests share. -/
structure TrackState where
  inFlight : Nat
  reqs : List Tracked
  aborted : Bool

/-- The requests other than the one at an address. -/
def TrackState.others (s : TrackState) (id : Nat) : List Tracked := s.reqs.filter (·.id ≠ id)

/-- `qemu_co_queue_restart_all`, of the queue of the request at an address. -/
def Tracked.wake (id : Nat) (r : Tracked) : Tracked :=
  if r.waitingFor = some id then { r with woken := true } else r

/-- `tracked_request_end`. -/
def TrackState.endRequest (s : TrackState) (self : Tracked) (inFlight : Nat) : TrackState :=
  { s with
    inFlight := if self.req.serialising then inFlight - 1 else inFlight
    reqs := (s.others self.id).map (Tracked.wake self.id) }

/-- The state after a coroutine gave up control. -/
def TrackState.after (s : TrackState) : Outcome → TrackState
  | .yield self inFlight =>
    { s with
      inFlight := inFlight
      reqs := s.reqs.map fun r => if r.id = self.id then self else r }
  | .finish self inFlight => s.endRequest self inFlight
  | .abort => { s with aborted := true }

def TrackState.find (s : TrackState) (id : Nat) : Option Tracked := s.reqs.find? (·.id = id)

inductive TrackEvent
  /-- a caller makes a request, which is tracked at a free address -/
  | call (id : Nat) (call : Call)
  /-- the driver has served a request -/
  | ioDone (id : Nat) (ok : Bool)
  | debugResume (id : Nat)
  /-- the coroutine of a woken request is entered -/
  | resume (id : Nat)

def trackStep (s : TrackState) (e : TrackEvent) : Option TrackState :=
  if s.aborted then none
  else
    match e with
    | .call id call =>
      if s.find id |>.isSome then none
      else
        let self : Tracked := ⟨id, call.begin cfg, none, false, call.script cfg⟩
        let s := { s with reqs := self :: s.reqs }
        some (s.after (exec (s.others id) (call.script cfg) self s.inFlight))
    | .ioDone id ok =>
      match s.find id with
      | some self =>
        match self.prog with
        | .io :: prog =>
          if ok then some (s.after (exec (s.others id) prog self s.inFlight))
          else some (s.endRequest self s.inFlight)
        | _ => none
      | none => none
    | .debugResume id =>
      match s.find id with
      | some self =>
        match self.prog with
        | .debugEvent :: prog => some (s.after (exec (s.others id) prog self s.inFlight))
        | _ => none
      | none => none
    | .resume id =>
      match s.find id with
      | some self =>
        match self.woken, self.prog with
        | true, .wait check :: prog =>
          let self := { self with waitingFor := none, woken := false }
          some (s.after (execWoken (s.others id) check prog self s.inFlight))
        | _, _ => none
      | none => none

def trackMachine : Machine TrackState TrackEvent where
  init s := s = ⟨0, [], false⟩
  step := trackStep cfg

end QemuAndroid.Block
