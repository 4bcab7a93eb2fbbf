import QemuAndroid.Lib.Counter
import QemuAndroid.Lib.Machine

/-!
# Handles of the renderer

A `FrameBuffer` keeps color buffers, render contexts and window surfaces in three maps, and takes
the handles of all three from one counter.  `genHandle` passes over the handles of contexts and
windows, but not over those of color buffers: once the counter has wrapped around, it returns the
handle of a color buffer that is still alive.
-/

universe u

namespace QemuAndroid.Render

open Lib Function Option

abbrev HandleType := BitVec 32

structure ColorBufferRef (Obj : Type u) where
  cb : Obj
  refcount : BitVec 32

/-- The handles of a `FrameBuffer`; `Obj` are its objects. -/
structure FrameBuffer (Obj : Type u) where
  nextHandle : HandleType
  contexts : HandleType → Option Obj
  windows : HandleType → Option Obj
  colorbuffers : HandleType → Option (ColorBufferRef Obj)

variable {Obj : Type u}

namespace FrameBuffer

variable (fb : FrameBuffer Obj)

/-- The handles that `genHandle` passes over. -/
def skips (id : HandleType) : Bool :=
  id == 0#32 || (fb.contexts id).isSome || (fb.windows id).isSome

/-- `FrameBuffer::genHandle`, `none` if it never returns. -/
def genHandle : Option HandleType :=
  nextFree fb.skips (2 ^ 32) fb.nextHandle

/-- `FrameBuffer::createColorBuffer`, where `ColorBuffer::create` has returned `cb`. -/
def createColorBuffer : Option Obj → Option (HandleType × FrameBuffer Obj)
  | none => some (0#32, fb)
  | some cb => fb.genHandle.map fun ret =>
    (ret, { fb with
      nextHandle := ret
      colorbuffers := update fb.colorbuffers ret (some ⟨cb, 1#32⟩) })

/-- `FrameBuffer::createRenderContext`, where `RenderContext::create` returns `rctx`. -/
def createRenderContext (share : HandleType) (rctx : Option Obj) :
    Option (HandleType × FrameBuffer Obj) :=
  if share ≠ 0#32 ∧ fb.contexts share = none then some (0#32, fb)
  else match rctx with
    | none => some (0#32, fb)
    | some rctx => fb.genHandle.map fun ret =>
      (ret, { fb with
        nextHandle := ret
        contexts := update fb.contexts ret (some rctx) })

/-- `FrameBuffer::createWindowSurface`, where `WindowSurface::create` has returned `win`. -/
def createWindowSurface : Option Obj → Option (HandleType × FrameBuffer Obj)
  | none => some (0#32, fb)
  | some win => fb.genHandle.map fun ret =>
    (ret, { fb with
      nextHandle := ret
      windows := update fb.windows ret (some win) })

def destroyRenderContext (context : HandleType) : FrameBuffer Obj :=
  { fb with contexts := update fb.contexts context none }

def destroyWindowSurface (surface : HandleType) : FrameBuffer Obj :=
  { fb with windows := update fb.windows surface none }

def openColorBuffer (colorbuffer : HandleType) : FrameBuffer Obj :=
  match fb.colorbuffers colorbuffer with
  | none => fb
  | some c =>
    { fb with
      colorbuffers := update fb.colorbuffers colorbuffer
        (some { c with refcount := c.refcount + 1#32 }) }

def closeColorBuffer (colorbuffer : HandleType) : FrameBuffer Obj :=
  match fb.colorbuffers colorbuffer with
  | none => fb
  | some c =>
    { fb with
      colorbuffers := update fb.colorbuffers colorbuffer
        (if c.refcount - 1#32 = 0#32 then none
        else some { c with refcount := c.refcount - 1#32 }) }

end FrameBuffer

/-! ## Runs -/

/-- The calls, with the objects that are made for them. -/
inductive FbEvent (Obj : Type u)
  | createColorBuffer (cb : Option Obj)
  | createRenderContext (share : HandleType) (rctx : Option Obj)
  | createWindowSurface (win : Option Obj)
  | destroyRenderContext (context : HandleType)
  | destroyWindowSurface (surface : HandleType)
  | openColorBuffer (colorbuffer : HandleType)
  | closeColorBuffer (colorbuffer : HandleType)

namespace FrameBuffer

/-- One call, with the handle that a create returns. -/
def call (fb : FrameBuffer Obj) : FbEvent Obj → Option (HandleType × FrameBuffer Obj)
  | .createColorBuffer cb => fb.createColorBuffer cb
  | .createRenderContext share rctx => fb.createRenderContext share rctx
  | .createWindowSurface win => fb.createWindowSurface win
  | .destroyRenderContext context => some (0#32, fb.destroyRenderContext context)
  | .destroyWindowSurface surface => some (0#32, fb.destroyWindowSurface surface)
  | .openColorBuffer colorbuffer => some (0#32, fb.openColorBuffer colorbuffer)
  | .closeColorBuffer colorbuffer => some (0#32, fb.closeColorBuffer colorbuffer)

def Makes (fb : FrameBuffer Obj) : FbEvent Obj → Prop
  | .createColorBuffer cb => cb.isSome = true
  | .createRenderContext share rctx =>
    rctx.isSome = true ∧ (share = 0#32 ∨ fb.contexts share ≠ none)
  | .createWindowSurface win => win.isSome = true
  | .destroyRenderContext _ => False
  | .destroyWindowSurface _ => False
  | .openColorBuffer _ => False
  | .closeColorBuffer _ => False

/-- No two objects have the same handle, and none has the handle 0. -/
structure Distinct (fb : FrameBuffer Obj) : Prop where
  zero : fb.contexts 0#32 = none ∧ fb.windows 0#32 = none ∧ fb.colorbuffers 0#32 = none
  context : ∀ h, fb.contexts h ≠ none → fb.windows h = none ∧ fb.colorbuffers h = none
  window : ∀ h, fb.windows h ≠ none → fb.colorbuffers h = none

end FrameBuffer

/-- Any calls, one after the other. -/
def fbMachine (Obj : Type u) : Machine (FrameBuffer Obj) (FbEvent Obj) where
  init fb := fb = ⟨0#32, fun _ => none, fun _ => none, fun _ => none⟩
  step fb e := (fb.call e).map Prod.snd

/-- A `FrameBuffer` with its history: how often its counter has been incremented, and how often it
had been when the object of a handle was made. -/
structure History (Obj : Type u) where
  fb : FrameBuffer Obj
  increments : Nat
  madeAt : HandleType → Nat

/-- The history after a call that has returned `ret`, which is 0 if the counter was not used. -/
def History.next (s : History Obj) (ret : HandleType) (fb' : FrameBuffer Obj) : History Obj :=
  if ret = 0#32 then { s with fb := fb' }
  else
    let n := s.increments + ((ret - s.fb.nextHandle - 1#32).toNat + 1)
    ⟨fb', n, update s.madeAt ret n⟩

/-- Any calls, one after the other, with their history. -/
def historyMachine (Obj : Type u) : Machine (History Obj) (FbEvent Obj) where
  init s := (fbMachine Obj).init s.fb ∧ s.increments = 0
  step s e := (s.fb.call e).map fun r => s.next r.1 r.2

/-- When an object is made, the counter is not about to come round to a color buffer: since the
buffer was made it has been incremented less than `2 ^ 32` times, even if it now passes over 0 and
over the handle of every context and window. -/
def Young (s : History Obj) (e : FbEvent Obj) : Prop :=
  s.fb.Makes e → ∃ live : List HandleType,
    (∀ id, s.fb.contexts id ≠ none ∨ s.fb.windows id ≠ none → id ∈ live) ∧
    ∀ id, s.fb.colorbuffers id ≠ none → s.increments + live.length + 2 < s.madeAt id + 2 ^ 32

/-! ## Freshness -/

namespace FrameBuffer

variable {fb fb' : FrameBuffer Obj} {ret id n : HandleType}

theorem skips_eq_false :
    fb.skips id = false ↔ id ≠ 0#32 ∧ fb.contexts id = none ∧ fb.windows id = none := by
  unfold skips
  rw [Bool.or_eq_false_iff, Bool.or_eq_false_iff, isSome_eq_false_iff, isSome_eq_false_iff,
    isNone_iff_eq_none, isNone_iff_eq_none, beq_eq_false_iff_ne, and_assoc]

variable {e : FbEvent Obj}

/-- A call that makes an object takes its handle from `genHandle`. -/
theorem call_of_makes (hmakes : fb.Makes e) (h : fb.call e = some (ret, fb')) :
    fb.genHandle = some ret ∧ ((∃ c, fb' = { fb with
          nextHandle := ret, colorbuffers := update fb.colorbuffers ret (some c) }) ∨
        (∃ c, fb' = { fb with nextHandle := ret, contexts := update fb.contexts ret (some c) }) ∨
        ∃ c, fb' = { fb with nextHandle := ret, windows := update fb.windows ret (some c) }) := by
  cases e with
  | createColorBuffer cb =>
    cases cb with
    | none => cases hmakes
    | some cb =>
      obtain ⟨ret', hret, heq⟩ := map_eq_some_iff.1 h
      cases heq
      exact ⟨hret, .inl ⟨_, rfl⟩⟩
  | createRenderContext share rctx =>
    cases rctx with
    | none => cases hmakes.1
    | some rctx =>
      have hshare : ¬(share ≠ 0#32 ∧ fb.contexts share = none) := by
        rintro ⟨hne, hnone⟩
        rcases hmakes.2 with hzero | hsome
        · exact hne hzero
        · exact hsome hnone
      change fb.createRenderContext share (some rctx) = _ at h
      rw [createRenderContext, if_neg hshare] at h
      obtain ⟨ret', hret, heq⟩ := map_eq_some_iff.1 h
      cases heq
      exact ⟨hret, .inr (.inl ⟨_, rfl⟩)⟩
  | createWindowSurface win =>
    cases win with
    | none => cases hmakes
    | some win =>
      obtain ⟨ret', hret, heq⟩ := map_eq_some_iff.1 h
      cases heq
      exact ⟨hret, .inr (.inr ⟨_, rfl⟩)⟩
  | destroyRenderContext context => cases hmakes
  | destroyWindowSurface surface => cases hmakes
  | openColorBuffer colorbuffer => cases hmakes
  | closeColorBuffer colorbuffer => cases hmakes

/-- A call returns as long as a handle is left. -/
theorem exists_call (hid : fb.skips id = false) (e : FbEvent Obj) : ∃ r, fb.call e = some r := by
  obtain ⟨ret, hret⟩ : ∃ ret, fb.genHandle = some ret :=
    exists_nextFree (BitVec.isLt _) (by rwa [add_ofNat_sub fb.nextHandle id])
  cases e with
  | createColorBuffer obj | createWindowSurface obj =>
    cases obj with
    | none => exact ⟨_, rfl⟩
    | some obj => exact ⟨_, congrArg (Option.map _) hret⟩
  | createRenderContext share rctx =>
    show ∃ r, fb.createRenderContext share rctx = some r
    unfold createRenderContext
    split
    · exact ⟨_, rfl⟩
    cases rctx with
    | none => exact ⟨_, rfl⟩
    | some rctx => exact ⟨_, congrArg (Option.map _) hret⟩
  | _ => exact ⟨_, rfl⟩

/-- The objects of `fb'` have the handles of objects of `fb`, and the counter is the same. -/
structure Within (fb' fb : FrameBuffer Obj) : Prop where
  nextHandle : fb'.nextHandle = fb.nextHandle
  contexts : ∀ id, fb.contexts id = none → fb'.contexts id = none
  windows : ∀ id, fb.windows id = none → fb'.windows id = none
  colorbuffers : ∀ id, fb.colorbuffers id = none → fb'.colorbuffers id = none

theorem Within.refl (fb : FrameBuffer Obj) : fb.Within fb :=
  ⟨rfl, fun _ h => h, fun _ h => h, fun _ h => h⟩

/-- An update to none, or where there is an object, adds no handle. -/
theorem update_eq_none {α : Type u} {m : HandleType → Option α} {v : Option α}
    (hv : m id = none → v = none) (id' : HandleType) (h : m id' = none) :
    update m id v id' = none := by
  by_cases hid : id' = id
  · subst hid
    rw [update_self]
    exact hv h
  · rw [update_of_ne hid]
    exact h

theorem update_within {c : ColorBufferRef Obj} (hc : fb.colorbuffers id = some c)
    (v : Option (ColorBufferRef Obj)) :
    Within { fb with colorbuffers := update fb.colorbuffers id v } fb := by
  refine ⟨rfl, fun _ h => h, fun _ h => h, update_eq_none fun hnone => ?_⟩
  rw [hc] at hnone
  cases hnone

/-- Every other call returns 0 and adds no handle. -/
theorem call_of_not_makes (hmakes : ¬fb.Makes e) (h : fb.call e = some (ret, fb')) :
    ret = 0#32 ∧ fb'.Within fb := by
  cases e with
  | createColorBuffer obj | createWindowSurface obj =>
    cases obj with
    | none =>
      cases h
      exact ⟨rfl, Within.refl fb⟩
    | some obj => exact absurd rfl hmakes
  | createRenderContext share rctx =>
    change fb.createRenderContext share rctx = _ at h
    unfold createRenderContext at h
    split at h
    · cases h
      exact ⟨rfl, Within.refl fb⟩
    rename_i hshare
    cases rctx with
    | none =>
      cases h
      exact ⟨rfl, Within.refl fb⟩
    | some rctx =>
      refine absurd ⟨rfl, ?_⟩ hmakes
      by_contra hor
      rw [not_or, not_not] at hor
      exact hshare hor
  | destroyRenderContext context =>
    cases h
    exact ⟨rfl, rfl, update_eq_none fun _ => rfl, fun _ h => h, fun _ h => h⟩
  | destroyWindowSurface surface =>
    cases h
    exact ⟨rfl, rfl, fun _ h => h, update_eq_none fun _ => rfl, fun _ h => h⟩
  | openColorBuffer colorbuffer =>
    cases h
    refine ⟨rfl, ?_⟩
    unfold openColorBuffer
    split
    · exact Within.refl fb
    · exact update_within ‹_› _
  | closeColorBuffer colorbuffer =>
    cases h
    refine ⟨rfl, ?_⟩
    unfold closeColorBuffer
    split
    · exact Within.refl fb
    · exact update_within ‹_› _

theorem Distinct.of_within (h : fb.Distinct) (hw : fb'.Within fb) : fb'.Distinct where
  zero := ⟨hw.contexts _ h.zero.1, hw.windows _ h.zero.2.1, hw.colorbuffers _ h.zero.2.2⟩
  context id hne := have hctx := h.context id fun hnone => hne (hw.contexts id hnone)
    ⟨hw.windows id hctx.1, hw.colorbuffers id hctx.2⟩
  window id hne := hw.colorbuffers id (h.window id fun hnone => hne (hw.windows id hnone))

/-- A handle that no object has may be given to one. -/
theorem Distinct.of_makes (h : fb.Distinct) (hmakes : fb.Makes e) (hret : fb.skips ret = false)
    (hbuffer : fb.colorbuffers ret = none) (hcall : fb.call e = some (ret, fb')) :
    fb'.Distinct := by
  obtain ⟨-, hfb'⟩ := call_of_makes hmakes hcall
  obtain ⟨hret, hcontext, hwindow⟩ := skips_eq_false.1 hret
  have hzero : 0#32 ≠ ret := hret.symm
  have hcontext' : ∀ id, fb.contexts id ≠ none → id ≠ ret := fun id hne hid =>
    hne (hid ▸ hcontext)
  have hwindow' : ∀ id, fb.windows id ≠ none → id ≠ ret := fun id hne hid => hne (hid ▸ hwindow)
  rcases hfb' with ⟨c, rfl⟩ | ⟨c, rfl⟩ | ⟨c, rfl⟩
  · constructor
    · exact ⟨h.zero.1, h.zero.2.1, (update_of_ne hzero _ _).trans h.zero.2.2⟩
    · intro id hne
      exact ⟨(h.context id hne).1, (update_of_ne (hcontext' id hne) _ _).trans (h.context id hne).2⟩
    · intro id hne
      exact (update_of_ne (hwindow' id hne) _ _).trans (h.window id hne)
  · constructor
    · exact ⟨(update_of_ne hzero _ _).trans h.zero.1, h.zero.2⟩
    · intro id hne
      by_cases hid : id = ret
      · rw [hid]
        exact ⟨hwindow, hbuffer⟩
      · exact h.context id fun hnone => hne ((update_of_ne hid _ _).trans hnone)
    · exact h.window
  constructor
  · exact ⟨h.zero.1, (update_of_ne hzero _ _).trans h.zero.2.1, h.zero.2.2⟩
  · intro id hne
    exact ⟨(update_of_ne (hcontext' id hne) _ _).trans (h.context id hne).1, (h.context id hne).2⟩
  intro id hne
  by_cases hid : id = ret
  · rw [hid]
    exact hbuffer
  · exact h.window id fun hnone => hne ((update_of_ne hid _ _).trans hnone)

end FrameBuffer

namespace History

variable {s : History Obj} {e : FbEvent Obj} {ret : HandleType} {fb' : FrameBuffer Obj}

/-- The counter and the handles of color buffers are numbers of increments, modulo `2 ^ 32`. -/
structure Counted (s : History Obj) : Prop where
  counter : s.fb.nextHandle = BitVec.ofNat 32 s.increments
  buffer : ∀ id, s.fb.colorbuffers id ≠ none →
    id = BitVec.ofNat 32 (s.madeAt id) ∧ s.madeAt id ≤ s.increments

/-- A new handle is not that of a color buffer. -/
theorem Counted.fresh (h : s.Counted) (hmakes : s.fb.Makes e) (hyoung : Young s e)
    (hcall : s.fb.call e = some (ret, fb')) :
    s.fb.skips ret = false ∧ s.fb.colorbuffers ret = none := by
  obtain ⟨live, hlive, hyoung⟩ := hyoung hmakes
  have hskips : ∀ id, s.fb.skips id = true → id ∈ 0#32 :: live := by
    intro id hid
    by_contra hnot
    rw [List.mem_cons, not_or] at hnot
    have hfree : s.fb.skips id = false := FrameBuffer.skips_eq_false.2 ⟨hnot.1,
      by_contra fun hc => hnot.2 (hlive id (.inl hc)),
      by_contra fun hw => hnot.2 (hlive id (.inr hw))⟩
    exact absurd (hid.symm.trans hfree) nofun
  obtain ⟨hfree, k, hk, hret⟩ :=
    nextFree_eq_some_of_taken (le_refl _) hskips (FrameBuffer.call_of_makes hmakes hcall).1
  refine ⟨hfree, by_contra fun hbuffer => ?_⟩
  obtain ⟨hid, hmade⟩ := h.buffer ret hbuffer
  have hlt := hyoung ret hbuffer
  rw [h.counter, ← BitVec.ofNat_add] at hret
  have hnat := congrArg BitVec.toNat (hid.symm.trans hret)
  rw [BitVec.toNat_ofNat, BitVec.toNat_ofNat] at hnat
  rw [List.length_cons] at hk
  omega

theorem Counted.of_within (h : s.Counted) (hw : fb'.Within s.fb) :
    Counted { s with fb := fb' } :=
  ⟨hw.nextHandle.trans h.counter, fun id hne => h.buffer id fun hnone =>
    hne (hw.colorbuffers id hnone)⟩

/-- An object that is made has the new number of increments. -/
theorem Counted.of_makes (h : s.Counted) (hmakes : s.fb.Makes e) (hret : ret ≠ 0#32)
    (hcall : s.fb.call e = some (ret, fb')) : (s.next ret fb').Counted := by
  obtain ⟨-, hfb'⟩ := FrameBuffer.call_of_makes hmakes hcall
  have hother : fb'.nextHandle = ret ∧
      ∀ id, id ≠ ret → fb'.colorbuffers id = s.fb.colorbuffers id := by
    rcases hfb' with ⟨c, rfl⟩ | ⟨c, rfl⟩ | ⟨c, rfl⟩
    · exact ⟨rfl, fun id hid => update_of_ne hid _ _⟩
    · exact ⟨rfl, fun _ _ => rfl⟩
    · exact ⟨rfl, fun _ _ => rfl⟩
  have hnum : ret = BitVec.ofNat 32 (s.increments +
      ((ret - s.fb.nextHandle - 1#32).toNat + 1)) := by
    rw [BitVec.ofNat_add, ← h.counter, add_ofNat_sub]
  rw [next, if_neg hret]
  refine ⟨hother.1.trans hnum, fun id hne => ?_⟩
  by_cases hid : id = ret
  · subst hid
    show id = BitVec.ofNat 32 (update s.madeAt id _ id) ∧ update s.madeAt id _ id ≤ _
    rw [update_self]
    exact ⟨hnum, le_refl _⟩
  · show id = BitVec.ofNat 32 (update s.madeAt ret _ id) ∧ update s.madeAt ret _ id ≤ _
    rw [update_of_ne hid]
    obtain ⟨hbuffer, hle⟩ := h.buffer id (hother.2 id hid ▸ hne)
    exact ⟨hbuffer, hle.trans (Nat.le_add_right _ _)⟩

/-- Along a run in which the counter comes round to no color buffer. -/
theorem inv_of_reach (h : (historyMachine Obj).Reach Young s) : s.fb.Distinct ∧ s.Counted := by
  refine h.invariant ?_ ?_
  · rintro ⟨fb, n, madeAt⟩ ⟨rfl, rfl⟩
    exact ⟨⟨⟨rfl, rfl, rfl⟩, fun _ hne => absurd rfl hne, fun _ hne => absurd rfl hne⟩,
      rfl, fun _ hne => absurd rfl hne⟩
  intro s e s' _ ⟨hdistinct, hcounted⟩ hyoung hstep
  obtain ⟨⟨ret, fb'⟩, hcall, rfl⟩ := map_eq_some_iff.1 hstep
  by_cases hmakes : s.fb.Makes e
  · obtain ⟨hfree, hbuffer⟩ := hcounted.fresh hmakes hyoung hcall
    have hret := (FrameBuffer.skips_eq_false.1 hfree).1
    have hdistinct' := hdistinct.of_makes hmakes hfree hbuffer hcall
    refine ⟨?_, hcounted.of_makes hmakes hret hcall⟩
    rw [next, if_neg hret]
    exact hdistinct'
  · obtain ⟨rfl, hw⟩ := FrameBuffer.call_of_not_makes hmakes hcall
    exact ⟨hdistinct.of_within hw, hcounted.of_within hw⟩

end History

/-- Handles are fresh as long as the counter does not come round to a color buffer: all objects have
handles of their own, and the handle of a new object is not 0 and is that of no other object.  A
call returns if there is a handle, other than 0, that no context and no window has. -/
theorem handle_fresh {s : History Obj} (h : (historyMachine Obj).Reach Young s) :
    s.fb.Distinct ∧ (∀ (e : FbEvent Obj) (ret : HandleType) (fb' : FrameBuffer Obj), s.fb.Makes e →
      Young s e → s.fb.call e = some (ret, fb') → ret ≠ 0#32 ∧ s.fb.contexts ret = none ∧
        s.fb.windows ret = none ∧ s.fb.colorbuffers ret = none) ∧
      ((∃ id, s.fb.skips id = false) → ∀ e, ∃ r, s.fb.call e = some r) := by
  obtain ⟨hdistinct, hcounted⟩ := History.inv_of_reach h
  refine ⟨hdistinct, fun e ret fb' hmakes hyoung hcall => ?_, fun ⟨id, hid⟩ => s.fb.exists_call hid⟩
  obtain ⟨hfree, hbuffer⟩ := hcounted.fresh hmakes hyoung hcall
  obtain ⟨hret, hcontext, hwindow⟩ := FrameBuffer.skips_eq_false.1 hfree
  exact ⟨hret, hcontext, hwindow, hbuffer⟩

/-! ## A counter that has wrapped around -/

def oneBuffer (n : HandleType) : FrameBuffer Nat where
  nextHandle := n
  contexts := fun _ => none
  windows := fun _ => none
  colorbuffers := update (fun _ => none) 1#32 (some ⟨0, 1#32⟩)

/-- With no contexts and windows, the next handle is the next number, except 0. -/
theorem genHandle_oneBuffer {n : HandleType} (h : n + 1#32 ≠ 0#32) :
    (oneBuffer n).genHandle = some (n + 1#32) :=
  nextFree_of_free (Nat.two_pow_pos _) (FrameBuffer.skips_eq_false.2 ⟨h, rfl, rfl⟩)

/-- A window surface that is created and destroyed moves the counter on. -/
theorem reachable_oneBuffer_succ {n : HandleType} (h : n + 1#32 ≠ 0#32)
    (hn : (fbMachine Nat).Reachable (oneBuffer n)) :
    (fbMachine Nat).Reachable (oneBuffer (n + 1#32)) := by
  let win : FrameBuffer Nat :=
    { oneBuffer n with
      nextHandle := n + 1#32
      windows := update (fun _ => none) (n + 1#32) (some 0) }
  have hcreate : (fbMachine Nat).step (oneBuffer n) (.createWindowSurface (some 0)) = some win := by
    show ((oneBuffer n).createWindowSurface (some 0)).map Prod.snd = _
    unfold FrameBuffer.createWindowSurface
    rw [genHandle_oneBuffer h]
    rfl
  have hdestroy : (fbMachine Nat).step win (.destroyWindowSurface (n + 1#32)) =
      some (oneBuffer (n + 1#32)) := by
    show some { win with windows := update win.windows (n + 1#32) none } = _
    have hwindows : update win.windows (n + 1#32) none = fun _ => none := by
      rw [update_idem]
      exact update_eq_self (n + 1#32) fun _ => none
    rw [hwindows]
    rfl
  exact .step (.step hn trivial hcreate) trivial hdestroy

theorem step_oneBuffer : (fbMachine Nat).step ⟨0#32, fun _ => none, fun _ => none, fun _ => none⟩
    (.createColorBuffer (some 0)) = some (oneBuffer 1#32) := by
  rfl

/-- A color buffer and then a window surface. -/
theorem handle_fresh_oneBuffer : ∃ s : History Nat, (historyMachine Nat).Reach Young s ∧
    s.fb = oneBuffer 1#32 ∧ ∃ fb', s.fb.call (.createWindowSurface (some 0)) = some (2#32, fb') ∧
      s.fb.colorbuffers 2#32 = none := by
  have hinit : (historyMachine Nat).init
      ⟨⟨0#32, fun _ => none, fun _ => none, fun _ => none⟩, 0, fun _ => 0⟩ := ⟨rfl, rfl⟩
  have hstep : (historyMachine Nat).step
      ⟨⟨0#32, fun _ => none, fun _ => none, fun _ => none⟩, 0, fun _ => 0⟩
      (.createColorBuffer (some 0)) = some ⟨oneBuffer 1#32, 1, update (fun _ => 0) 1#32 1⟩ := rfl
  have hreach : (historyMachine Nat).Reach Young
      ⟨oneBuffer 1#32, 1, update (fun _ => 0) 1#32 1⟩ := by
    refine .step (.init hinit) (fun _ => ⟨[], fun _ h => ?_, fun _ hne => absurd rfl hne⟩) hstep
    rcases h with hne | hne <;> exact absurd rfl hne
  obtain ⟨fb', hcall⟩ : ∃ fb', (oneBuffer 1#32).call (.createWindowSurface (some 0)) =
      some (2#32, fb') := ⟨_, rfl⟩
  refine ⟨_, hreach, rfl, fb', hcall, ?_⟩
  refine ((handle_fresh hreach).2.1 (.createWindowSurface (some 0)) _ fb' rfl (fun _ => ?_)
    hcall).2.2.2
  refine ⟨[], fun _ h => ?_, fun id _ => Nat.lt_add_left _ (by decide)⟩
  rcases h with hne | hne <;> exact absurd rfl hne

theorem reachable_oneBuffer (k : Nat) (h : k + 1 < 2 ^ 32) :
    (fbMachine Nat).Reachable (oneBuffer (BitVec.ofNat 32 (k + 1))) := by
  induction k with
  | zero => exact .step (.init rfl) trivial step_oneBuffer
  | succ k ih =>
    have hne : BitVec.ofNat 32 (k + 1) + 1#32 ≠ 0#32 := by
      rw [← BitVec.ofNat_add]
      intro hzero
      have := congrArg BitVec.toNat hzero
      rw [BitVec.toNat_ofNat, Nat.mod_eq_of_lt h] at this
      cases this
    have := reachable_oneBuffer_succ hne (ih (Nat.lt_of_succ_lt h))
    rwa [← BitVec.ofNat_add] at this

/-- After 2^32 handles, `createColorBuffer` returns the handle of a color buffer that is alive, and
replaces it. -/
theorem live_buffer_replaced : ∃ fb fb' : FrameBuffer Nat, (fbMachine Nat).Reachable fb ∧
    fb.colorbuffers 1#32 = some ⟨0, 1#32⟩ ∧
    fb.call (.createColorBuffer (some 1)) = some (1#32, fb') ∧
    fb'.colorbuffers 1#32 = some ⟨1, 1#32⟩ := by
  have hreach := reachable_oneBuffer (2 ^ 32 - 2) (by decide)
  -- the counter passes over 0 and comes to 1
  have hgen : (oneBuffer (BitVec.ofNat 32 (2 ^ 32 - 2 + 1))).genHandle = some 1#32 := by
    rfl
  let fb := oneBuffer (BitVec.ofNat 32 (2 ^ 32 - 2 + 1))
  refine ⟨fb, { fb with
    nextHandle := 1#32
    colorbuffers := update fb.colorbuffers 1#32 (some ⟨1, 1#32⟩) }, hreach, rfl, ?_, rfl⟩
  show Option.map _ fb.genHandle = _
  rw [hgen]
  rfl

end QemuAndroid.Render
