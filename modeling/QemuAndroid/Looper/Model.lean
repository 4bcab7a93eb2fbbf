import QemuAndroid.Lib.Intrusive
import QemuAndroid.Lib.Machine

/-!
# The looper on top of the main event loop

`android/looper-qemu.c` gives users one callback with a mask of ready events, where the main event
loop has one handler for reads and one for writes.  The handlers only collect the events in
`io->ready` and put the io on a pending list; a bottom half empties the list and calls the users.

The ios are heap blocks on two intrusive lists.  A function returns `none` when the C code would
follow a pointer to a freed io or never leave a loop.

The handlers are those of `qemu_set_fd_handler`, one record for a file descriptor.  A user callback
is whatever happens between one turn of the loop in the bottom half and the next: it may call any of
the functions for any io that has not been freed, and it may even run the main loop again.
-/

namespace QemuAndroid.Looper

open Lib

/-! ## Ios -/

def loopIoRead : BitVec 32 := 1#32

def loopIoWrite : BitVec 32 := 2#32

structure QLoopIo where
  fd : Nat
  wanted : BitVec 32
  ready : BitVec 32
  pendingNext : Ptr
  next : Ptr

/-- The list of all ios runs through `next`. -/
def nextLink : Link QLoopIo := ⟨QLoopIo.next, fun p n => { n with next := p }, fun _ _ => rfl⟩

/-- The pending list runs through `pendingNext`. -/
def pendingLink : Link QLoopIo :=
  ⟨QLoopIo.pendingNext, fun p n => { n with pendingNext := p }, fun _ _ => rfl⟩

/-- What the main event loop calls for a file descriptor. -/
structure FdHandler where
  fdRead : Bool
  fdWrite : Bool
  /-- `opaque` -/
  io : Addr

structure QLooper where
  /-- the ios that have not been freed -/
  ios : Heap QLoopIo
  ioList : Ptr
  ioPending : Ptr
  /-- whether `io_bh` is scheduled -/
  scheduled : Bool
  handlers : Nat → Option FdHandler

namespace QLooper

variable (l : QLooper)

def setFdHandler (fd : Nat) (fdRead fdWrite : Bool) (io : Addr) : QLooper :=
  { l with
    handlers := Function.update l.handlers fd
      (if !fdRead && !fdWrite then none else some ⟨fdRead, fdWrite, io⟩) }

variable (io : Addr)

def addIo : Option QLooper := do
  let ios ← l.ios.modify io fun n => { n with next := l.ioList }
  some { l with ios := ios, ioList := some io }

def delIo : Option QLooper := do
  let (pnode, found) ← findp nextLink l.ios (fun b _ => b == io) l.ios.fuel .head l.ioList
  match found with
  | none => some l
  | some io => do
      let n ← l.ios.lookup io
      let (ioList, ios) ← pnode.store nextLink n.next l.ioList l.ios
      let ios ← ios.modify io fun n => { n with next := none }
      some { l with ios := ios, ioList := ioList }

def addPendingIo : Option QLooper := do
  let ios ← l.ios.modify io fun n => { n with pendingNext := l.ioPending }
  some { l with
    ios := ios
    ioPending := some io
    -- `qemu_bh_schedule` if the list was empty
    scheduled := l.scheduled || l.ioPending.isNone }

def delPendingIo : Option QLooper := do
  let (pnode, found) ← findp pendingLink l.ios (fun b _ => b == io) l.ios.fuel .head l.ioPending
  let (ioPending, ios) ← match found with
    | none => some (l.ioPending, l.ios)
    | some io => do
        let n ← l.ios.lookup io
        pnode.store pendingLink n.pendingNext l.ioPending l.ios
  let ios ← ios.modify io fun n => { n with pendingNext := none }
  some { l with ios := ios, ioPending := ioPending }

/-- `qloopio_new`, in the block that `g_malloc` returns. -/
def ioNew (fd : Nat) : Option QLooper :=
  { l with ios := l.ios.insert io ⟨fd, 0#32, 0#32, none, none⟩ }.addIo io

/-- `qloopio_removePending`. -/
def removePending : Option QLooper := do
  let n ← l.ios.lookup io
  if n.ready ≠ 0#32 then do
    let l ← l.delPendingIo io
    let ios ← l.ios.modify io fun n => { n with ready := 0#32 }
    some { l with ios := ios }
  else some l

def setReady (flag : BitVec 32) : Option QLooper := do
  let n ← l.ios.lookup io
  let l ← if n.ready = 0#32 then l.addPendingIo io else some l
  let ios ← l.ios.modify io fun n => { n with ready := n.ready ||| flag }
  some { l with ios := ios }

def ioModify (wanted : BitVec 32) : Option QLooper := do
  let n ← l.ios.lookup io
  if wanted = n.wanted then some l
  else do
    let l ← if n.ready ≠ 0#32 ∧ n.ready &&& wanted = 0#32 then l.removePending io else some l
    let l := l.setFdHandler n.fd (wanted &&& loopIoRead ≠ 0#32) (wanted &&& loopIoWrite ≠ 0#32) io
    let ios ← l.ios.modify io fun n => { n with wanted := wanted }
    some { l with ios := ios }

/-- `qloopio_free`. -/
def ioFree : Option QLooper := do
  let n ← l.ios.lookup io
  let l ← if n.ready ≠ 0#32 then l.removePending io else some l
  let l ← l.delIo io
  let l := l.setFdHandler n.fd false false io
  some { l with ios := l.ios.erase io }

/-- One turn of the loop of `qlooper_handle_io_bh`, with the io for which the user is called, and
the events that it is told of. -/
def handleIo : Option (Option (Addr × BitVec 32) × QLooper) :=
  match l.ioPending with
  | none => some (none, l)
  | some io => do
      let n ← l.ios.lookup io
      let ios ← l.ios.modify io fun n => { n with pendingNext := none, ready := 0#32 }
      some (some (io, n.ready), { l with ios := ios, ioPending := n.pendingNext })

end QLooper

/-! ## Runs -/

/-- What can happen, also while a user callback runs. -/
inductive LooperEvent
  | new (io : Addr) (fd : Nat)
  /-- the main loop calls `qloopio_handleRead` -/
  | handleRead (fd : Nat)
  /-- the main loop calls `qloopio_handleWrite` -/
  | handleWrite (fd : Nat)
  | wantRead (io : Addr)
  | wantWrite (io : Addr)
  | dontWantRead (io : Addr)
  | dontWantWrite (io : Addr)
  | free (io : Addr)
  /-- the main loop runs the bottom half -/
  | runBh
  /-- `qlooper_handle_io_bh` looks at the list again -/
  | handleIo

/-- A looper, with the number of runs of its bottom half that have not returned. -/
structure LooperState where
  looper : QLooper
  draining : Nat
  /-- a pointer to a freed io has been followed -/
  fault : Bool

/-- The state after a function has been called. -/
def LooperState.after (s : LooperState) : Option QLooper → LooperState
  | none => { s with fault := true }
  | some l => { s with looper := l }

/-- `qloopio_wantRead` and the like, for an io that has not been freed. -/
def LooperState.modifyWanted (s : LooperState) (io : Addr) (f : BitVec 32 → BitVec 32) :
    Option LooperState :=
  (s.looper.ios.lookup io).map fun n => s.after (s.looper.ioModify io (f n.wanted))

/-- One event, `none` when it cannot happen. -/
def looperNext (s : LooperState) : LooperEvent → Option LooperState
  | .new io fd =>
    if io ∈ s.looper.ios then none else some (s.after (s.looper.ioNew io fd))
  | .handleRead fd =>
    (s.looper.handlers fd).bind fun h =>
      if h.fdRead then some (s.after (s.looper.setReady h.io loopIoRead)) else none
  | .handleWrite fd =>
    (s.looper.handlers fd).bind fun h =>
      if h.fdWrite then some (s.after (s.looper.setReady h.io loopIoWrite)) else none
  | .wantRead io => s.modifyWanted io (· ||| loopIoRead)
  | .wantWrite io => s.modifyWanted io (· ||| loopIoWrite)
  | .dontWantRead io => s.modifyWanted io (· &&& ~~~loopIoRead)
  | .dontWantWrite io => s.modifyWanted io (· &&& ~~~loopIoWrite)
  | .free io =>
    if io ∈ s.looper.ios then some (s.after (s.looper.ioFree io)) else none
  | .runBh =>
    if s.looper.scheduled then
      some { s with looper := { s.looper with scheduled := false }, draining := s.draining + 1 }
    else none
  | .handleIo =>
    if s.draining = 0 then none
    else match s.looper.handleIo with
      | none => some { s with fault := true }
      | some (none, l) => some { s with looper := l, draining := s.draining - 1 }
      | some (some _, l) => some { s with looper := l }

def looperNewCore : LooperState where
  looper := ⟨∅, none, none, false, fun _ => none⟩
  draining := 0
  fault := false

/-- Any events, one after the other, unless a freed io has been used. -/
def looperMachine : Machine LooperState LooperEvent where
  init s := s = looperNewCore
  step s e := if s.fault then none else looperNext s e

end QemuAndroid.Looper
