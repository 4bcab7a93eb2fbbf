import QemuAndroid.Lib.Machine
import QemuAndroid.Virtio.Queue

/-!
# Interrupts of a virtqueue

`virtqueue_flush` makes elements visible in the used ring, and `vring_notify` decides whether the
guest gets an interrupt for them.  With `VIRTIO_RING_F_EVENT_IDX` the guest asks for one by the
index of a used element, `used_event`; the device compares it with the elements since
`s->signalled_used`, in 16 bits.  Since these comparisons know nothing of a distance of 2^15 and
more, `signalled_used_valid` has to be false by then.
-/

namespace QemuAndroid.Virtio

open Lib BitVec

/-- What a `VirtQueue` has for the used ring.  Its index is in guest memory, where only the device
writes it. -/
structure UsedQueue where
  num : Nat
  usedIdx : BitVec 16
  signalledUsed : BitVec 16
  signalledUsedValid : Bool
  inuse : BitVec 32
  lastAvailIdx : BitVec 16
  num_le : num ≤ virtqueueMaxSize

structure NotifyFeatures where
  notifyOnEmpty : Bool
  /-- `VIRTIO_RING_F_EVENT_IDX` -/
  eventIdx : Bool

/-- What `vring_notify` reads of the avail ring. -/
structure AvailRead where
  availIdx : BitVec 16
  availFlags : BitVec 16
  usedEvent : BitVec 16

def virtqueueFlush (vq : UsedQueue) (count : Nat) : UsedQueue :=
  let old := vq.usedIdx
  let new := old + BitVec.ofNat 16 count
  { vq with
    usedIdx := new
    inuse := vq.inuse - BitVec.ofNat 32 count
    -- an `int16_t` is compared with a `uint16_t`, both as `int`
    signalledUsedValid :=
      if (new - vq.signalledUsed).toInt < ((new - old).toNat : Int) then false
      else vq.signalledUsedValid }

def vringNeedEvent (eventIdx newIdx old : BitVec 16) : Bool :=
  (newIdx - eventIdx - 1#16).toNat < (newIdx - old).toNat

def AvailRead.noInterrupt (g : AvailRead) : Bool := g.availFlags &&& 1#16 ≠ 0#16

def vringNotify (f : NotifyFeatures) (g : AvailRead) (vq : UsedQueue) : Bool × UsedQueue :=
  if f.notifyOnEmpty ∧ vq.inuse = 0#32 ∧ g.availIdx = vq.lastAvailIdx then (true, vq)
  else if !f.eventIdx then (!g.noInterrupt, vq)
  else
    (!vq.signalledUsedValid || vringNeedEvent g.usedEvent vq.usedIdx vq.signalledUsed,
      { vq with signalledUsedValid := true, signalledUsed := vq.usedIdx })

/-! ## The comparison -/

/-- Counted from `old`, an event is due exactly if it is before the new index. -/
theorem vringNeedEvent_iff (old : BitVec 16) {j k : Nat} (hj : j < 2 ^ 16) (hk : k < 2 ^ 16) :
    vringNeedEvent (old + BitVec.ofNat 16 j) (old + BitVec.ofNat 16 k) old = true ↔ j < k := by
  have hevent : (old + BitVec.ofNat 16 k - (old + BitVec.ofNat 16 j) - 1#16).toNat =
      (k + (2 ^ 16 - j) + (2 ^ 16 - 1)) % 2 ^ 16 := by
    simp only [toNat_sub, toNat_add, toNat_ofNat]
    omega
  have hnew : (old + BitVec.ofNat 16 k - old).toNat = k := by
    simp only [toNat_sub, toNat_add, toNat_ofNat]
    omega
  unfold vringNeedEvent
  rw [decide_eq_true_iff]
  omega

/-! ## Runs -/

inductive NotifyEvent
  | flush (count : Nat)
  | notify (g : AvailRead)
  /-- `virtqueue_pop` takes an element -/
  | pop

/-- A queue, and what has been added to its used ring since the last `vring_notify`. -/
structure NotifyState where
  vq : UsedQueue
  /-- `vring_used_idx` then -/
  old : BitVec 16
  added : Nat

def notifyNext (f : NotifyFeatures) (s : NotifyState) : NotifyEvent → Option NotifyState
  | .flush count =>
    if 1 ≤ count ∧ count ≤ s.vq.num then
      some { s with vq := virtqueueFlush s.vq count, added := s.added + count }
    else none
  | .notify g => some ⟨(vringNotify f g s.vq).2, s.vq.usedIdx, 0⟩
  | .pop =>
    some { s with
      vq := { s.vq with lastAvailIdx := s.vq.lastAvailIdx + 1#16, inuse := s.vq.inuse + 1#32 } }

/-- Any calls, one after the other, since the device has been reset. -/
def notifyMachine (f : NotifyFeatures) : Machine NotifyState NotifyEvent where
  init s := s.vq.signalledUsedValid = false ∧ s.old = s.vq.usedIdx ∧ s.added = 0
  step := notifyNext f

/-- While `signalled_used` is valid, less than 2^15 elements have been added since. -/
structure NotifyInv (s : NotifyState) : Prop where
  used : s.vq.usedIdx = s.old + BitVec.ofNat 16 s.added
  near : s.vq.signalledUsedValid = true → ∃ k, s.added ≤ k ∧ k < 2 ^ 15 ∧
    s.vq.usedIdx = s.vq.signalledUsed + BitVec.ofNat 16 k

/-- The valid flag goes when the distance gets to 2^15. -/
theorem near_of_flush {vq : UsedQueue} {count k : Nat} (hcount : count ≤ vq.num) (hk : k < 2 ^ 15)
    (hused : vq.usedIdx = vq.signalledUsed + BitVec.ofNat 16 k)
    (hvalid : (virtqueueFlush vq count).signalledUsedValid = true) : k + count < 2 ^ 15 := by
  by_contra hfar
  have hnum := vq.num_le
  unfold virtqueueMaxSize at hnum
  have hold : (vq.usedIdx + BitVec.ofNat 16 count - vq.usedIdx).toNat = count := by
    simp only [toNat_sub, toNat_add, toNat_ofNat]
    omega
  have hdist : (vq.usedIdx + BitVec.ofNat 16 count - vq.signalledUsed).toNat = k + count := by
    rw [hused]
    simp only [toNat_sub, toNat_add, toNat_ofNat]
    omega
  have hneg : (vq.usedIdx + BitVec.ofNat 16 count - vq.signalledUsed).toInt <
      ((vq.usedIdx + BitVec.ofNat 16 count - vq.usedIdx).toNat : Int) := by
    rw [toInt_eq_toNat_cond]
    omega
  unfold virtqueueFlush at hvalid
  dsimp only at hvalid
  rw [if_pos hneg] at hvalid
  cases hvalid

variable {s : NotifyState}

theorem NotifyInv.flush (h : NotifyInv s) {count : Nat}
    (hcount : count ≤ s.vq.num) :
    NotifyInv { s with vq := virtqueueFlush s.vq count, added := s.added + count } := by
  constructor
  · show s.vq.usedIdx + BitVec.ofNat 16 count = s.old + BitVec.ofNat 16 (s.added + count)
    rw [h.used, ofNat_add, add_assoc]
  intro hvalid
  have hbefore : s.vq.signalledUsedValid = true := by
    change (if _ then false else s.vq.signalledUsedValid) = true at hvalid
    split at hvalid
    · cases hvalid
    · exact hvalid
  obtain ⟨k, hle, hk, hused⟩ := h.near hbefore
  refine ⟨k + count, Nat.add_le_add_right hle count, near_of_flush hcount hk hused hvalid, ?_⟩
  show s.vq.usedIdx + BitVec.ofNat 16 count = s.vq.signalledUsed + BitVec.ofNat 16 (k + count)
  rw [hused, ofNat_add, add_assoc]

theorem NotifyInv.notify (h : NotifyInv s) (f : NotifyFeatures) (g : AvailRead) :
    NotifyInv ⟨(vringNotify f g s.vq).2, s.vq.usedIdx, 0⟩ := by
  -- where the queue is left alone, `signalled_used` stays where it is
  have hsame : NotifyInv ⟨s.vq, s.vq.usedIdx, 0⟩ := by
    refine ⟨(add_zero _).symm, fun hvalid => ?_⟩
    obtain ⟨k, -, hk, hused⟩ := h.near hvalid
    exact ⟨k, Nat.zero_le _, hk, hused⟩
  unfold vringNotify
  split
  · exact hsame
  · split
    · exact hsame
    · exact ⟨(add_zero _).symm, fun _ => ⟨0, Nat.le_refl _, Nat.two_pow_pos _, (add_zero _).symm⟩⟩

theorem NotifyInv.of_reachable {f : NotifyFeatures}
    (h : (notifyMachine f).Reachable s) : NotifyInv s := by
  refine h.invariant ?_ ?_
  · rintro s ⟨hvalid, hold, hadded⟩
    refine ⟨?_, fun hv => ?_⟩
    · rw [hadded, hold]
      exact (add_zero _).symm
    · rw [hvalid] at hv
      cases hv
  intro s e s' _ hs _ hstep
  cases e with
  | flush count =>
    change (if _ then _ else _) = _ at hstep
    split at hstep
    · rename_i hcount
      cases hstep
      exact hs.flush hcount.2
    · cases hstep
  | notify g =>
    cases hstep
    exact hs.notify f g
  | pop =>
    cases hstep
    exact ⟨hs.used, hs.near⟩

/-- No interrupt is lost: if the guest asks for one at an element that has been added since the last
`vring_notify`, the next `vring_notify` returns true, for any number of elements. -/
theorem vringNotify_of_usedEvent (f : NotifyFeatures) (hf : f.eventIdx = true) {s : NotifyState}
    (h : (notifyMachine f).Reachable s) (g : AvailRead) {i : Nat} (hi : i < s.added)
    (hevent : g.usedEvent = s.old + BitVec.ofNat 16 i) : (vringNotify f g s.vq).1 = true := by
  have hinv := NotifyInv.of_reachable h
  unfold vringNotify
  split
  · rfl
  rw [hf]
  cases hvalid : s.vq.signalledUsedValid with
  | false => rfl
  | true =>
    obtain ⟨k, hle, hk, hused⟩ := hinv.near hvalid
    -- counted from `signalled_used`, the event is at `k - added + i`
    have hold : s.old = s.vq.signalledUsed + BitVec.ofNat 16 (k - s.added) := by
      have hsum := hinv.used
      rw [hused, show k = k - s.added + s.added by omega, ofNat_add, ← add_assoc]
        at hsum
      exact ((add_left_inj _).1 hsum).symm
    rw [hevent, hold, hused, add_assoc, ← ofNat_add]
    exact (vringNeedEvent_iff _ (by omega) (by omega)).2 (by omega)

/-- A queue of four elements whose used index is about to wrap around. -/
def nearWrap : NotifyState where
  vq :=
    { num := 4
      usedIdx := 65534#16
      signalledUsed := 0#16
      signalledUsedValid := false
      inuse := 4#32
      lastAvailIdx := 2#16
      num_le := by decide }
  old := 65534#16
  added := 0

/-- Three elements from index 65534 on, and an event at index 0. -/
theorem vringNotify_nearWrap : ∃ s, (notifyMachine ⟨false, true⟩).Reachable s ∧
    s.vq.signalledUsedValid = true ∧ s.old = 65534#16 ∧ s.added = 3 ∧
    (vringNotify ⟨false, true⟩ ⟨2#16, 0#16, 0#16⟩ s.vq).1 = true := by
  have hrun : ((notifyMachine ⟨false, true⟩).run nearWrap
      [.notify ⟨2#16, 0#16, 0#16⟩, .flush 1, .flush 2]).map
      (fun s => (s.vq.signalledUsedValid, s.old, s.added)) = some (true, 65534#16, 3) := by
    decide +kernel
  obtain ⟨s, hs, heq⟩ := Option.map_eq_some_iff.1 hrun
  obtain ⟨hvalid, hpair⟩ := Prod.mk.inj heq
  obtain ⟨hold, hadded⟩ := Prod.mk.inj hpair
  have hreach := Machine.Reachable.of_run (.init (show (notifyMachine ⟨false, true⟩).init nearWrap
    from ⟨rfl, rfl, rfl⟩)) hs
  refine ⟨s, hreach, hvalid, hold, hadded, vringNotify_of_usedEvent _ rfl hreach _ (i := 2) ?_ ?_⟩
  · rw [hadded]
    decide
  · rw [hold]
    decide

end QemuAndroid.Virtio
