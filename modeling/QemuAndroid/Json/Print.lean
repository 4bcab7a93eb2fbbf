import QemuAndroid.Json.Object
import Mathlib.Data.Nat.Digits.Defs

/-!
# Printing objects

`to_json` of `qobject/qjson.c`, for the compact and for the pretty format, and `mod_utf8_codepoint`
of `util/unicode.c`, by which it takes strings apart.
-/

namespace QemuAndroid.Json

/-! ## Code points -/

/-- The loop over the leading ones of a byte: their number, and the mask behind them. -/
def leadingOnes : Nat → Nat → Nat → Nat → Nat × Nat
  | 0, _, mask, len => (len, mask)
  | fuel + 1, byte, mask, len =>
    if byte &&& mask ≠ 0 then leadingOnes fuel byte (mask >>> 1) (len + 1) else (len, mask)

/-- The loop over the continuation bytes: `left` of them are expected, `n` may be read.  The result
is `none` when one is missing. -/
def continuation : Nat → Nat → Nat → List UInt8 → Option Nat × List UInt8
  | 0, _, cp, p => (some cp, p)
  | left + 1, n, cp, p =>
    let byte := if n = 0 then 0 else (p.headD 0).toNat
    if byte &&& 0xc0 ≠ 0x80 then (none, p)
    else continuation left (n - 1) (cp <<< 6 ||| (byte &&& 0x3f)) p.tail

def minCp (len : Nat) : Nat := [0x80, 0x800, 0x10000, 0x200000, 0x4000000].getD (len - 2) 0

/-- The checks on a well-formed sequence. -/
def checkedCp (len cp : Nat) : Int :=
  if cp > 0x10ffff then -1
  else if (0xfdd0 ≤ cp ∧ cp ≤ 0xfdef) ∨ cp &&& 0xfffe = 0xfffe then -1
  else if 0xd800 ≤ cp ∧ cp ≤ 0xdfff then -1
  else if cp < minCp len ∧ ¬(cp = 0 ∧ len = 2) then -1
  else cp

/-- `mod_utf8_codepoint`: the code point or -1, and what follows the sequence. -/
def modUtf8Codepoint (s : List UInt8) (n : Nat) : Int × List UInt8 :=
  match s with
  | [] => (-1, [])
  | byte :: p =>
    if n = 0 ∨ byte = 0 then (-1, s)
    else if byte.toNat < 0x80 then (byte.toNat, p)
    else if byte.toNat ≥ 0xfe then (-1, p)
    else if byte.toNat &&& 0x40 = 0 then (-1, p)
    else
      let (len, mask) := leadingOnes 8 byte.toNat 0x80 0
      match continuation (len - 1) (n - 1) (byte.toNat &&& (mask - 1)) p with
      | (none, rest) => (-1, rest)
      | (some cp, rest) => (checkedCp len cp, rest)

/-! ## Strings -/

def hexDigit (n : Nat) : UInt8 := UInt8.ofNat (if n < 10 then 48 + n else 55 + n)

/-- The four digits of `%04X` for a number below 0x10000. -/
def hex4 (n : Nat) : List UInt8 :=
  [hexDigit (n / 4096 % 16), hexDigit (n / 256 % 16), hexDigit (n / 16 % 16), hexDigit (n % 16)]

/-- `\uXXXX`. -/
def ucode (n : Nat) : List UInt8 := 0x5c :: 0x75 :: hex4 n

/-- The text of a code point that has no escape of its own. -/
def plainCp (cp : Nat) : List UInt8 :=
  if cp > 0xffff then
    ucode (0xd800 + (cp - 0x10000) >>> 10) ++ ucode (0xdc00 + ((cp - 0x10000) &&& 0x3ff))
  else if cp < 0x20 ∨ cp ≥ 0x7f then ucode cp
  else [UInt8.ofNat cp]

/-- The text of a code point. -/
def escapeCp (cp : Int) : List UInt8 :=
  if cp = 0x22 then [0x5c, 0x22]
  else if cp = 0x5c then [0x5c, 0x5c]
  else if cp = 0x08 then [0x5c, 0x62]
  else if cp = 0x0c then [0x5c, 0x66]
  else if cp = 0x0a then [0x5c, 0x6e]
  else if cp = 0x0d then [0x5c, 0x72]
  else if cp = 0x09 then [0x5c, 0x74]
  else plainCp (if cp < 0 then 0xfffd else cp.toNat)

/-- The loop over the characters of a string. -/
def escapeLoop : Nat → List UInt8 → List UInt8
  | 0, _ => []
  | fuel + 1, ptr =>
    if ptr.headD 0 = 0 then []
    else
      let (cp, rest) := modUtf8Codepoint ptr 6
      escapeCp cp ++ escapeLoop fuel rest

/-- The text of a string.  Each character takes at least one byte, so the length is enough fuel. -/
def stringToJson (string : List UInt8) : List UInt8 :=
  0x22 :: (escapeLoop string.length string ++ [0x22])

/-! ## Numbers -/

def decimal (n : Nat) : List UInt8 :=
  if n = 0 then [0x30] else (Nat.digits 10 n).reverse.map fun digit => UInt8.ofNat (48 + digit)

def intToJson (value : Int) : List UInt8 :=
  if value < 0 then 0x2d :: decimal value.natAbs else decimal value.natAbs

/-- The text of a double: zeros at the end go, and then a dot. -/
def floatToJson (buffer : List UInt8) : List UInt8 :=
  let stripped := (buffer.reverse.dropWhile (· = 0x30)).reverse
  if stripped.getLast? = some 0x2e then stripped.dropLast else stripped

/-! ## Objects -/

def newLine (pretty : Bool) (indent : Nat) : List UInt8 :=
  if pretty then 0x0a :: List.replicate (4 * indent) 0x20 else []

/-- What separates an item from the one before it: `count` items have been printed. -/
def separator (pretty : Bool) (indent count : Nat) : List UInt8 :=
  (if count = 0 then [] else if pretty then [0x2c] else [0x2c, 0x20]) ++ newLine pretty indent

section ToJson

variable {δ : Type} (libc : Libc δ) (pretty : Bool)

mutual

def toJson : QObject δ → Nat → List UInt8
  | .qnull, _ => bytes "null"
  | .qint value, _ => intToJson value.toInt
  | .qstring string, _ => stringToJson string
  | .qdict entries, indent =>
    0x7b :: (toJsonDictIter entries (indent + 1) 0 ++ newLine pretty indent ++ [0x7d])
  | .qlist objs, indent =>
    0x5b :: (toJsonListIter objs (indent + 1) 0 ++ newLine pretty indent ++ [0x5d])
  | .qfloat value, _ => floatToJson (libc.format value)
  | .qbool value, _ => if value then bytes "true" else bytes "false"

def toJsonDictIter : List (List UInt8 × QObject δ) → Nat → Nat → List UInt8
  | [], _, _ => []
  | (key, obj) :: entries, indent, count =>
    separator pretty indent count ++ stringToJson key ++ [0x3a, 0x20] ++ toJson obj indent ++
      toJsonDictIter entries indent (count + 1)

def toJsonListIter : List (QObject δ) → Nat → Nat → List UInt8
  | [], _, _ => []
  | obj :: objs, indent, count =>
    separator pretty indent count ++ toJson obj indent ++ toJsonListIter objs indent (count + 1)

end

end ToJson

def qobjectToJson {δ : Type} (libc : Libc δ) (obj : QObject δ) : List UInt8 :=
  toJson libc false obj 0

def qobjectToJsonPretty {δ : Type} (libc : Libc δ) (obj : QObject δ) : List UInt8 :=
  toJson libc true obj 0

end QemuAndroid.Json
