import Mathlib.Data.BitVec

/-!
# Byte memory

A memory with 64-bit addresses, read and written in runs of bytes (`readBytes`, `writeBytes`) and in
32-bit words, least significant byte first (`readWord`, `writeWords`).  A write is read back
(`readWord_writeWords`) and changes nothing outside the bytes that it covers (`writeBytes_outside`,
`readBytes_congr`).
-/

namespace QemuAndroid.Lib

abbrev Memory := BitVec 64 → UInt8

namespace Memory

def Within (a : BitVec 64) (n : Nat) (x : BitVec 64) : Prop := (x - a).toNat < n
deriving Decidable

def readBytes (m : Memory) (a : BitVec 64) (n : Nat) : List UInt8 :=
  (List.range n).map fun i => m (a + BitVec.ofNat 64 i)

def writeBytes (m : Memory) (a : BitVec 64) (data : List UInt8) : Memory :=
  fun x => data[(x - a).toNat]?.getD (m x)

def wordBytes (w : BitVec 32) : List UInt8 :=
  [UInt8.ofNat w.toNat, UInt8.ofNat (w.toNat / 256), UInt8.ofNat (w.toNat / 65536),
    UInt8.ofNat (w.toNat / 16777216)]

def readWord (m : Memory) (a : BitVec 64) : BitVec 32 :=
  BitVec.ofNat 32 ((m a).toNat + 256 * (m (a + 1#64)).toNat + 65536 * (m (a + 2#64)).toNat +
    16777216 * (m (a + 3#64)).toNat)

def writeWords (m : Memory) (a : BitVec 64) (ws : List (BitVec 32)) : Memory :=
  m.writeBytes a (ws.flatMap wordBytes)

variable {m m' : Memory} {a b x : BitVec 64} {n : Nat} {data : List UInt8} {ws : List (BitVec 32)}

theorem writeBytes_outside (hx : ¬ Within a data.length x) : m.writeBytes a data x = m x := by
  rw [writeBytes, List.getElem?_eq_none (not_lt.1 hx)]
  rfl

theorem length_flatMap_wordBytes (ws : List (BitVec 32)) :
    (ws.flatMap wordBytes).length = 4 * ws.length := by
  induction ws with
  | nil => rfl
  | cons w ws ih =>
    rw [List.flatMap_cons, List.length_append, List.length_cons]
    change 4 + _ = _
    omega

theorem writeWords_outside (hx : ¬ Within a (4 * ws.length) x) : m.writeWords a ws x = m x :=
  writeBytes_outside (by rwa [length_flatMap_wordBytes])

theorem readBytes_congr (h : ∀ i < n, m (a + BitVec.ofNat 64 i) = m' (a + BitVec.ofNat 64 i)) :
    m.readBytes a n = m'.readBytes a n :=
  List.map_congr_left fun i hi => h i (List.mem_range.1 hi)

theorem getElem?_flatMap_wordBytes (ws : List (BitVec 32)) (k i : Nat) (hi : i < 4) :
    (ws.flatMap wordBytes)[4 * k + i]? = ws[k]?.bind fun w => (wordBytes w)[i]? := by
  induction ws generalizing k with
  | nil => rfl
  | cons w ws ih =>
    rw [List.flatMap_cons]
    cases k with
    | zero =>
      rw [List.getElem?_append_left (by change 4 * 0 + i < 4; omega)]
      simp
    | succ k =>
      rw [List.getElem?_append_right (by change 4 ≤ _; omega)]
      have hidx : 4 * (k + 1) + i - (wordBytes w).length = 4 * k + i := by
        change 4 * (k + 1) + i - 4 = _
        omega
      rw [hidx, ih]
      rfl

theorem writeWords_byte {k i : Nat} {w : BitVec 32} (hk : ws[k]? = some w) (hi : i < 4)
    (hlen : 4 * k + i < 2 ^ 64) :
    m.writeWords a ws (a + BitVec.ofNat 64 (4 * k) + BitVec.ofNat 64 i) = (wordBytes w)[i]?.getD
    0 := by
  have hoff : (a + BitVec.ofNat 64 (4 * k) + BitVec.ofNat 64 i - a).toNat = 4 * k + i := by
    rw [add_assoc, add_sub_cancel_left, ← BitVec.ofNat_add, BitVec.toNat_ofNat,
      Nat.mod_eq_of_lt hlen]
  have hbyte : ∃ c, (wordBytes w)[i]? = some c := by
    rw [List.getElem?_eq_getElem (show i < (wordBytes w).length from hi)]
    exact ⟨_, rfl⟩
  obtain ⟨c, hc⟩ := hbyte
  rw [writeWords, writeBytes, hoff, getElem?_flatMap_wordBytes ws k i hi, hk, Option.bind_some, hc]
  rfl

theorem readWord_writeWords {k : Nat} {w : BitVec 32} (hk : ws[k]? = some w)
    (hlen : 4 * k + 4 ≤ 2 ^ 64) :
    (m.writeWords a ws).readWord (a + BitVec.ofNat 64 (4 * k)) = w := by
  have hbyte := fun i (hi : i < 4) =>
    writeWords_byte (m := m) (a := a) hk hi (Nat.lt_of_lt_of_le (Nat.add_lt_add_left hi _) hlen)
  have h0 := hbyte 0 (by decide)
  rw [BitVec.add_zero] at h0
  rw [readWord, h0, hbyte 1 (by decide), hbyte 2 (by decide), hbyte 3 (by decide)]
  apply BitVec.eq_of_toNat_eq
  simp only [wordBytes, List.getElem?_cons_zero, List.getElem?_cons_succ, Option.getD_some,
    UInt8.toNat_ofNat', BitVec.toNat_ofNat]
  omega

end Memory

end QemuAndroid.Lib
