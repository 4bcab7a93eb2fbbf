import QemuAndroid.Lib.Buffer

/-!
# The XBZRLE codec

`xbzrle_encode_buffer` describes a page by the runs in which it differs from an older
copy of the page: a run of equal bytes (`zrun`) of which only the length is written,
then a run of new bytes (`nzrun`), which are written after their length, and so on.
Lengths take at most two bytes.  The last run of equal bytes is left out.

The encoder looks for the ends of the runs a word at a time.  A `long` has `sizeofLong`
bytes, 4 or 8, and is little endian.  A function is `none` where an assertion fails, or where a loop
without a bound of its own leaves the word it works in.
-/

namespace QemuAndroid.Migration

open Lib

/-! ## Lengths -/

/-- `uleb128_encode_small`, which writes to `out` at `d`. -/
def uleb128EncodeSmall (out : Buffer) (d n : Nat) : Option (Buffer × Nat) :=
  if 0x3fff < n then none
  else if n < 0x80 then some (out.set d (.ofNat n), 1)
  else some ((out.set d (.ofNat (n &&& 0x7f ||| 0x80))).set (d + 1) (.ofNat (n >>> 7)), 2)

/-- `uleb128_decode_small`: the number and how many bytes it takes, `none` for `-1`. -/
def uleb128DecodeSmall (src : Buffer) (i : Nat) : Option (Nat × Nat) :=
  if src i &&& 0x80 = 0 then some ((src i).toNat, 1)
  else if src (i + 1) &&& 0x80 ≠ 0 then none
  else some ((src i).toNat &&& 0x7f ||| (src (i + 1)).toNat <<< 7, 2)

/-! ## Runs of equal bytes -/

/-- `while (res && old_buf[i] == new_buf[i])`: what is left of `res`, and `i`. -/
def zrunHead (oldBuf newBuf : Buffer) : Nat → Nat → Nat × Nat
  | 0, i => (0, i)
  | res + 1, i => if oldBuf i = newBuf i then zrunHead oldBuf newBuf res (i + 1) else (res + 1, i)

/-- `*(long *)(buf + i)`. -/
def longAt (buf : Buffer) : (sizeofLong : Nat) → Nat → BitVec (8 * sizeofLong)
  | 0, _ => 0#0
  | n + 1, i => longAt buf n (i + 1) ++ (buf i).toBitVec

variable (sizeofLong : Nat) (oldBuf newBuf : Buffer)

/-- The loop over equal words. -/
def zrunWords (slen : Nat) : Nat → Nat → Nat
  | 0, i => i
  | fuel + 1, i =>
    if i < slen ∧ longAt oldBuf sizeofLong i = longAt newBuf sizeofLong i then
      zrunWords slen fuel (i + sizeofLong)
    else i

/-- The loop over the rest of the equal bytes. -/
def zrunRest (oldBuf newBuf : Buffer) (slen : Nat) : Nat → Nat → Nat
  | 0, i => i
  | fuel + 1, i =>
    if i < slen ∧ oldBuf i = newBuf i then zrunRest oldBuf newBuf slen fuel (i + 1) else i

/-- The end of the run of equal bytes from `i` on. -/
def zrun (slen i : Nat) : Nat :=
  let (res, i) := zrunHead oldBuf newBuf ((slen - i) % sizeofLong) i
  if res = 0 then
    zrunRest oldBuf newBuf slen slen (zrunWords sizeofLong oldBuf newBuf slen slen i)
  else i

/-! ## Runs of new bytes -/

/-- `while (res && old_buf[i] != new_buf[i])`: what is left of `res`, and `i`. -/
def nzrunHead (oldBuf newBuf : Buffer) : Nat → Nat → Nat × Nat
  | 0, i => (0, i)
  | res + 1, i => if oldBuf i ≠ newBuf i then nzrunHead oldBuf newBuf res (i + 1) else (res + 1, i)

/-- `while (old_buf[i] != new_buf[i])`, for the rest of a word. -/
def nzrunEnd (oldBuf newBuf : Buffer) : Nat → Nat → Option Nat
  | 0, _ => none
  | fuel + 1, i => if oldBuf i ≠ newBuf i then nzrunEnd oldBuf newBuf fuel (i + 1) else some i

def hasZeroByte {sizeofLong : Nat} (xor : BitVec (8 * sizeofLong)) : Bool :=
  let mask := BitVec.ofNat (8 * sizeofLong) 0x0101010101010101
  (xor - mask) &&& ~~~xor &&& (mask <<< 7) ≠ 0#(8 * sizeofLong)

/-- The loop over words without equal bytes. -/
def nzrunWords (slen : Nat) : Nat → Nat → Option Nat
  | 0, i => some i
  | fuel + 1, i =>
    if i < slen then
      if hasZeroByte (longAt oldBuf sizeofLong i ^^^ longAt newBuf sizeofLong i) then
        nzrunEnd oldBuf newBuf sizeofLong i
      else nzrunWords slen fuel (i + sizeofLong)
    else some i

/-- The end of the run of new bytes from `i` on. -/
def nzrun (slen i : Nat) : Option Nat :=
  let (res, i) := nzrunHead oldBuf newBuf ((slen - i) % sizeofLong) i
  if res = 0 then nzrunWords sizeofLong oldBuf newBuf slen slen i else some i

/-! ## Encoding -/

/-- The loop of `xbzrle_encode_buffer`: the result and the destination.  The result is `-1` when
the encoding does not fit in `dlen` bytes and 0 when the buffers are the same. -/
def encodeLoop (slen dlen : Nat) : Nat → Nat → Nat → Buffer → Option (Int × Buffer)
  | 0, _, _, _ => none
  | fuel + 1, i, d, dst =>
    if slen ≤ i then some (d, dst)
    else if dlen < d + 2 then some (-1, dst)
    else
      let j := zrun sizeofLong oldBuf newBuf slen i
      if j - i = slen then some (0, dst)
      else if j = slen then some (d, dst)
      else do
        let (dst, n) ← uleb128EncodeSmall dst d (j - i)
        let d := d + n
        if dlen < d + 2 then some (-1, dst)
        else
          let k ← nzrun sizeofLong oldBuf newBuf slen j
          let (dst, n) ← uleb128EncodeSmall dst d (k - j)
          let d := d + n
          if dlen < d + (k - j) then some (-1, dst)
          else
            let dst := memcpy dst d newBuf j (k - j)
            encodeLoop slen dlen fuel k (d + (k - j)) dst

def xbzrleEncodeBuffer (slen : Nat) (dst : Buffer) (dlen : Nat) : Option (Int × Buffer) :=
  if slen % sizeofLong = 0 then encodeLoop sizeofLong oldBuf newBuf slen dlen (slen + 1) 0 0 dst
  else none

/-! ## Decoding -/

/-- The loop of `xbzrle_decode_buffer`: the result, `-1` for an error, and the destination.  `d` is
an `int` that counts are added to, so it may wrap to a negative number. -/
def decodeLoop (src : Buffer) (slen dlen : Nat) : Nat → Nat → Nat → Buffer → Int × Buffer
  | 0, _, _, dst => (-1, dst)
  | fuel + 1, i, d, dst =>
    if slen ≤ i then (d, dst)
    else if slen - i < 2 then (-1, dst)
    else
      match uleb128DecodeSmall src i with
      | none => (-1, dst)
      | some (count, ret) =>
        if i ≠ 0 ∧ count = 0 then (-1, dst)
        else
          let i := i + ret
          let d := (d + count) % 2 ^ 32
          if d < 2 ^ 31 ∧ dlen < d then (-1, dst)
          else if slen - i < 2 then (-1, dst)
          else
            match uleb128DecodeSmall src i with
            | none => (-1, dst)
            | some (count, ret) =>
              if count = 0 then (-1, dst)
              else
                let i := i + ret
                if dlen < (d + count) % 2 ^ 32 ∨ slen < i + count then (-1, dst)
                else decodeLoop src slen dlen fuel (i + count) (d + count)
                  (memcpy dst d src i count)

def xbzrleDecodeBuffer (src : Buffer) (slen : Nat) (dst : Buffer) (dlen : Nat) : Int × Buffer :=
  decodeLoop src slen dlen (slen + 1) 0 0 dst

end QemuAndroid.Migration
