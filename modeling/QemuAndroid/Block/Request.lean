import Mathlib.Data.BitVec

/-!
# Tracked requests

Every request to a block device is tracked from its beginning to its end.  A request that must not
run at the same time as others on the same blocks is marked as serialising, with a range that is
rounded to whole blocks.
-/

namespace QemuAndroid.Block

open Nat

/-- `x & ~(align - 1)`, for a power of two. -/
def alignDown (x align : Nat) : Nat := x - x % align

def roundUp (n align : Nat) : Nat := (n + align - 1) / align * align

/-- A `BdrvTrackedRequest`, without its place in the lists. -/
structure TrackedRequest where
  offset : Nat
  bytes : Nat
  isWrite : Bool
  serialising : Bool
  overlapOffset : Nat
  /-- an `unsigned int` -/
  overlapBytes : Nat
deriving DecidableEq

def trackedRequestBegin (offset bytes : Nat) (isWrite : Bool) : TrackedRequest where
  offset := offset
  bytes := bytes
  isWrite := isWrite
  serialising := false
  overlapOffset := offset
  overlapBytes := bytes

/-- `mark_request_serialising`. -/
def TrackedRequest.markSerialising (req : TrackedRequest) (align : Nat) : TrackedRequest :=
  let overlapOffset := alignDown req.offset align
  let overlapBytes := (roundUp (req.offset + req.bytes) align - overlapOffset) % 2 ^ 32
  { req with
    serialising := true
    overlapOffset := min req.overlapOffset overlapOffset
    overlapBytes := max req.overlapBytes overlapBytes }

def TrackedRequest.overlaps (req : TrackedRequest) (offset bytes : Nat) : Bool :=
  if req.overlapOffset + req.overlapBytes ≤ offset then false
  else if offset + bytes ≤ req.overlapOffset then false
  else true

/-! ## Rounding -/

section Rounding

variable {x n align : Nat}

theorem alignDown_le (x align : Nat) : alignDown x align ≤ x := sub_le _ _

theorem alignDown_add_mod (x align : Nat) : alignDown x align + x % align = x :=
  Nat.sub_add_cancel (mod_le x align)

theorem dvd_alignDown (x align : Nat) : align ∣ alignDown x align := dvd_sub_mod x

theorem dvd_roundUp (n align : Nat) : align ∣ roundUp n align := dvd_mul_left _ _

theorem le_roundUp (n : Nat) (h : 0 < align) : n ≤ roundUp n align := by
  have hdiv := div_add_mod (n + align - 1) align
  have hlt := mod_lt (n + align - 1) h
  rw [roundUp, mul_comm]
  omega

theorem roundUp_lt (n : Nat) (h : 0 < align) : roundUp n align < n + align := by
  have hle := div_mul_le_self (n + align - 1) align
  rw [roundUp]
  omega

theorem roundUp_of_dvd (h : 0 < align) (hdvd : align ∣ n) : roundUp n align = n := by
  obtain ⟨k, rfl⟩ := hdvd
  rw [roundUp, Nat.add_sub_assoc h, mul_add_div h, div_eq_of_lt (sub_lt h Nat.one_pos),
    add_zero, mul_comm]

theorem roundUp_of_not_dvd (h : 0 < align) (hmod : n % align ≠ 0) :
    roundUp n align = alignDown n align + align := by
  obtain ⟨k, hk⟩ := dvd_roundUp n align
  obtain ⟨j, hj⟩ := dvd_alignDown n align
  have hle := le_roundUp n h
  have hlt := roundUp_lt n h
  have hsum := alignDown_add_mod n align
  have hmodlt := mod_lt n h
  have hgt : align * j < align * k := by omega
  have hltk : align * k < align * (j + 2) := by
    rw [mul_add]
    omega
  obtain rfl : k = j + 1 := by
    have h₁ := Nat.lt_of_mul_lt_mul_left hgt
    have h₂ := Nat.lt_of_mul_lt_mul_left hltk
    omega
  rw [hk, hj, mul_add, mul_one]

theorem alignDown_of_dvd (hdvd : align ∣ x) : alignDown x align = x := by
  rw [alignDown, mod_eq_zero_of_dvd hdvd, Nat.sub_zero]

theorem roundUp_add (h : 0 < align) (hdvd : align ∣ x) (n : Nat) :
    roundUp (x + n) align = x + roundUp n align := by
  obtain ⟨k, rfl⟩ := hdvd
  have hsub : align * k + n + align - 1 = align * k + (n + align - 1) := by omega
  rw [roundUp, roundUp, hsub, mul_add_div h, add_mul, mul_comm k align]

theorem add_mod_of_dvd (hdvd : align ∣ x) (n : Nat) : (x + n) % align = n % align := by
  obtain ⟨k, rfl⟩ := hdvd
  exact mul_add_mod align k n

theorem alignDown_add (hdvd : align ∣ x) (n : Nat) :
    alignDown (x + n) align = x + alignDown n align := by
  rw [alignDown, add_mod_of_dvd hdvd, alignDown, Nat.add_sub_assoc (mod_le n align)]

theorem alignDown_of_lt (h : x < align) : alignDown x align = 0 := by
  rw [alignDown, mod_eq_of_lt h, Nat.sub_self]

/-- Whole blocks from one that starts before a position to the one that it is in. -/
theorem alignDown_add_le_roundUp (h : 0 < align) (hlt : alignDown x align < n) :
    alignDown x align + align ≤ roundUp n align := by
  obtain ⟨j, hj⟩ := dvd_alignDown x align
  obtain ⟨k, hk⟩ := dvd_roundUp n align
  have hle := le_roundUp n h
  have hjk : j < k := Nat.lt_of_mul_lt_mul_left (a := align) (by omega)
  rw [hj, hk]
  exact mul_le_mul_left align hjk

/-- The bytes up to the next multiple. -/
theorem roundUp_sub (h : 0 < align) (hmod : n % align ≠ 0) :
    roundUp n align - n = align - n % align := by
  rw [roundUp_of_not_dvd h hmod]
  have hsum := alignDown_add_mod n align
  omega

end Rounding

/-! ## Serialising a request -/

def TrackedRequest.Covers (req : TrackedRequest) (offset bytes : Nat) : Prop :=
  req.overlapOffset ≤ offset ∧ offset + bytes ≤ req.overlapOffset + req.overlapBytes

theorem TrackedRequest.Covers.mono {req : TrackedRequest} {offset bytes offset' bytes' : Nat}
    (h : req.Covers offset bytes) (hlo : offset ≤ offset')
    (hhi : offset' + bytes' ≤ offset + bytes) : req.Covers offset' bytes' :=
  ⟨le_trans h.1 hlo, le_trans hhi h.2⟩

/-- A request for some bytes, whose range was at most rounded to whole blocks. -/
structure TrackedRequest.For (req : TrackedRequest) (align offset bytes : Nat) : Prop where
  offset_eq : req.offset = offset
  bytes_eq : req.bytes = bytes
  le_overlapOffset : alignDown offset align ≤ req.overlapOffset
  covers : req.Covers offset bytes

theorem trackedRequestBegin_for (align offset bytes : Nat) (isWrite : Bool) :
    (trackedRequestBegin offset bytes isWrite).For align offset bytes where
  offset_eq := rfl
  bytes_eq := rfl
  le_overlapOffset := alignDown_le offset align
  covers := ⟨le_refl _, le_refl _⟩

section Mark

variable {req : TrackedRequest} {align offset bytes : Nat}

/-- A serialising request covers the whole blocks that it touches. -/
theorem TrackedRequest.For.covers_mark (h : req.For align offset bytes)
    (hsmall : roundUp (offset + bytes) align - alignDown offset align < 2 ^ 32) :
    (req.markSerialising align).Covers (alignDown offset align)
      (roundUp (offset + bytes) align - alignDown offset align) := by
  have hoff := h.offset_eq
  have hbytes := h.bytes_eq
  have hle := h.le_overlapOffset
  subst hoff
  subst hbytes
  unfold TrackedRequest.Covers TrackedRequest.markSerialising
  simp only [mod_eq_of_lt hsmall, min_eq_right hle]
  exact ⟨Nat.le_refl _, Nat.add_le_add_left (Nat.le_max_right _ _) _⟩

theorem TrackedRequest.For.mark (h : req.For align offset bytes) (hpos : 0 < align)
    (hsmall : roundUp (offset + bytes) align - alignDown offset align < 2 ^ 32) :
    (req.markSerialising align).For align offset bytes where
  offset_eq := h.offset_eq
  bytes_eq := h.bytes_eq
  le_overlapOffset := by
    show alignDown offset align ≤ min req.overlapOffset (alignDown req.offset align)
    rw [h.offset_eq]
    exact Nat.le_min.2 ⟨h.le_overlapOffset, Nat.le_refl _⟩
  covers := by
    have hcovers := h.covers_mark hsmall
    have hdown := alignDown_le offset align
    have hup := le_roundUp (offset + bytes) hpos
    exact ⟨le_trans hcovers.1 hdown, by have := hcovers.2; omega⟩

end Mark

end QemuAndroid.Block
