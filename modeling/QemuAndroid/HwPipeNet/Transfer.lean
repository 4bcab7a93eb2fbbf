import QemuAndroid.HwPipeNet.Model

/-!
# What a network pipe transfers

The loops of `netPipe_sendBuffers` and `netPipe_recvBuffers` with their cursor.  What stands in the
buffers is a parameter: for a send it is the bytes that go to the socket, for a receive the places
that the bytes from the socket go to.
-/

namespace QemuAndroid.HwPipeNet

open GoldfishPipe List

variable {α : Type}

/-- A socket: what each call answers, by its number and the size asked for. -/
structure Socket where
  answer : Nat → Nat → SockResult
  moved_le : ∀ k avail len, answer k avail = .moved len → 0 < len ∧ len ≤ avail

/-- The loop, with the buffers from the cursor on: the first one is `buff` without its first
`buffStart` bytes.  `count` bytes are left, `ret` are moved, and `moved` is what the calls of the
socket have been given.  `none` past the last buffer, and when the loop goes on after `fuel`
calls. -/
def cursorLoop (sock : Socket) : Nat → List (List α) → Nat → Nat → List α →
    Option (BitVec 32 × List α)
  | _, _, 0, ret, moved => some (BitVec.ofNat 32 ret, moved)
  | fuel + 1, buff :: buffers, count + 1, ret, moved =>
    match sock.answer fuel buff.length with
    | .moved len =>
      cursorLoop sock fuel (if buff.length ≤ len then buffers else buff.drop len :: buffers)
        (count + 1 - len) (ret + len) (moved ++ buff.take len)
    | .closed => some (if ret = 0 then pipeErrorIo else BitVec.ofNat 32 ret, moved)
    | .again => some (if 0 < ret then BitVec.ofNat 32 ret else pipeErrorAgain, moved)
    | .error => some (if 0 < ret then BitVec.ofNat 32 ret else pipeErrorIo, moved)
  | _, _, _ + 1, _, _ => none

def netPipeRecv (sock : Socket) (buffers : List (List α)) : Option (BitVec 32 × List α) :=
  let count := (buffers.map length).sum
  cursorLoop sock count buffers count 0 []

def netPipeSend (sock : Socket) (pipe : NetPipe) (buffers : List (List α)) :
    Option (BitVec 32 × List α) :=
  let ret := netPipeReadySend pipe
  if ret ≠ 0 then some (ret, []) else
    let count := (buffers.map length).sum
    cursorLoop sock count buffers count 0 []

/-- The bytes of `all` have been moved up to an end or an error. -/
def Outcome (all : List α) (r : BitVec 32) (moved : List α) : Prop :=
  moved <+: all ∧ (r = BitVec.ofNat 32 moved.length ∧ (moved = [] → all = []) ∨
    r.toInt < 0 ∧ moved = [] ∧ all ≠ [])

/-- The loop ends before its count, with the error `e` if nothing has been moved. -/
theorem Outcome.stopped {all moved rest : List α} {count : Nat} (h : moved ++ rest = all)
    (hrest : rest.length = count + 1) {e : BitVec 32} (he : e.toInt < 0) :
    Outcome all (if moved.length = 0 then e else BitVec.ofNat 32 moved.length) moved := by
  refine ⟨⟨rest, h⟩, ?_⟩
  split
  · next hzero =>
    refine .inr ⟨he, length_eq_zero_iff.mp hzero, fun hnil => ?_⟩
    rw [(append_eq_nil_iff.mp (h.trans hnil)).2] at hrest
    cases hrest
  · next hne => exact .inl ⟨rfl, fun hnil => absurd (congrArg length hnil) hne⟩

variable {buffers : List (List α)}

/-- What is left of the buffers is what is left to move; the return value is the sum of the positive
answers, which is the number of bytes moved. -/
theorem cursorLoop_spec (sock : Socket) {all : List α} {fuel count ret : Nat}
    {moved : List α} (hne : ∀ buff ∈ buffers, buff ≠ []) (hall : moved ++ buffers.flatten = all)
    (hcount : buffers.flatten.length = count) (hret : moved.length = ret) (hfuel : count ≤ fuel) :
    ∃ r moved', cursorLoop sock fuel buffers count ret moved = some (r, moved') ∧
      Outcome all r moved' := by
  fun_induction cursorLoop sock fuel buffers count ret moved with
  | case1 fuel buffers ret moved =>
    rw [length_eq_zero_iff.mp hcount, append_nil] at hall
    subst hret hall
    exact ⟨_, moved, rfl, prefix_rfl, .inl ⟨rfl, id⟩⟩
  | case2 fuel buff buffers count ret moved len hans ih =>
    obtain ⟨hpos, hle⟩ := sock.moved_le _ _ _ hans
    -- both branches leave the cursor at the same byte
    have hrest : (if buff.length ≤ len then buffers else buff.drop len :: buffers).flatten =
        buff.drop len ++ buffers.flatten := by
      split
      · next hend => rw [drop_eq_nil_of_le hend, nil_append]
      · rfl
    have hne' : ∀ b ∈ (if buff.length ≤ len then buffers else buff.drop len :: buffers),
        b ≠ [] := by
      split
      · exact fun b hb => hne b (mem_cons_of_mem _ hb)
      · next hend =>
        rintro b (_ | ⟨_, hb⟩)
        · exact fun h => hend (drop_eq_nil_iff.mp h)
        · exact hne b (mem_cons_of_mem _ hb)
    rw [flatten_cons] at hall hcount
    exact ih hne'
      (by rwa [hrest, append_assoc, ← append_assoc (buff.take len), take_append_drop])
      (by rw [length_append] at hcount; rw [hrest, length_append, length_drop]; omega)
      (by rw [length_append, length_take_of_le hle, hret]) (by omega)
  | case3 fuel buff buffers count ret moved hans =>
    subst hret
    exact ⟨_, moved, rfl, .stopped hall hcount (by decide)⟩
  | case4 fuel buff buffers count ret moved hans =>
    subst hret
    refine ⟨_, moved, rfl, ?_⟩
    simpa only [Nat.pos_iff_ne_zero, ite_not] using Outcome.stopped hall hcount (by decide)
  | case5 fuel buff buffers count ret moved hans =>
    subst hret
    refine ⟨_, moved, rfl, ?_⟩
    simpa only [Nat.pos_iff_ne_zero, ite_not] using Outcome.stopped hall hcount (by decide)
  | case6 fuel buffers count ret moved hnone =>
    cases fuel with
    | zero => cases hfuel
    | succ fuel =>
      cases buffers with
      | nil => cases hcount
      | cons buff buffers => exact absurd rfl (hnone fuel buff buffers rfl)

theorem netPipeRecv_spec (sock : Socket) (hne : ∀ buff ∈ buffers, buff ≠ [])
    (htotal : (buffers.map length).sum < 2 ^ 31) :
    ∃ r moved, netPipeRecv sock buffers = some (r, moved) ∧
      moved = buffers.flatten.take r.toInt.toNat ∧ (r.toInt < 0 ↔ moved = [] ∧ buffers ≠ []) := by
  obtain ⟨r, moved, hloop, hpre, hr⟩ :=
    cursorLoop_spec sock hne (nil_append _) length_flatten rfl le_rfl
  refine ⟨r, moved, hloop, ?_⟩
  have hflat : buffers.flatten = [] ↔ buffers = [] := by
    refine ⟨fun h => eq_nil_iff_forall_not_mem.mpr fun b hb =>
      hne b hb (flatten_eq_nil_iff.mp h b hb), ?_⟩
    rintro rfl
    rfl
  rcases hr with ⟨rfl, hall⟩ | ⟨hneg, rfl, hall⟩
  · have hint : (BitVec.ofNat 32 moved.length).toInt = moved.length := by
      have hle := hpre.length_le.trans_eq length_flatten
      rw [BitVec.toInt_eq_toNat_of_lt] <;> rw [BitVec.toNat_ofNat] <;> omega
    rw [hint]
    refine ⟨prefix_iff_eq_take.mp hpre, fun h => by omega, ?_⟩
    rintro ⟨hnil, hbuffers⟩
    exact absurd (hflat.mp (hall hnil)) hbuffers
  · rw [Int.toNat_of_nonpos hneg.le]
    exact ⟨rfl, fun _ => ⟨rfl, fun h => hall (hflat.mpr h)⟩, fun _ => hneg⟩

/-- A socket that moves one byte at a time and would block on its last call. -/
def slowSocket : Socket where
  answer k avail := if k = 0 ∨ avail = 0 then .again else .moved 1
  moved_le k avail len h := by
    split at h
    · cases h
    · next hk =>
      cases h
      exact ⟨Nat.one_pos, Nat.pos_of_ne_zero fun h0 => hk (.inr h0)⟩

end QemuAndroid.HwPipeNet
