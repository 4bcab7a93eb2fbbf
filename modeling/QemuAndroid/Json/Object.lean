import Mathlib.Data.BitVec

/-!
# QObjects

The objects of `qobject/`.  A string is its bytes without the final zero.  The doubles are those of
the C library and stay a parameter, as do the two functions on them that the JSON code calls.

A `QDict` is a table of 512 buckets; `qdict_iter` visits them in order, and in each the latest entry
first.  It is modelled by the entries in that order.
-/

namespace QemuAndroid.Json

/-- The functions of the C library on doubles. -/
structure Libc (δ : Type) where
  /-- `strtod` -/
  strtod : List UInt8 → δ
  /-- `snprintf` with the format `%f` -/
  format : δ → List UInt8

inductive QObject (δ : Type) : Type
  | qnull
  | qbool (value : Bool)
  | qint (value : BitVec 64)
  | qfloat (value : δ)
  | qstring (string : List UInt8)
  | qlist (objs : List (QObject δ))
  | qdict (entries : List (List UInt8 × QObject δ))

def bytes (text : String) : List UInt8 := text.toList.map fun c => UInt8.ofNat c.toNat

/-! ## Dictionaries -/

section QDict

variable {α : Type}

def qdictBucketMax : Nat := 512

def tdbHashLoop : Nat → BitVec 32 → List UInt8 → BitVec 32
  | _, value, [] => value
  | i, value, ch :: name =>
    tdbHashLoop (i + 1) (value + BitVec.ofNat 32 ch.toNat <<< (i * 5 % 24)) name

def tdbHash (name : List UInt8) : BitVec 32 :=
  1103515243 * tdbHashLoop 0 (0x238f13af * BitVec.ofNat 32 name.length) name + 12345

def bucket (key : List UInt8) : Nat := (tdbHash key).toNat % qdictBucketMax

def qdictGet (entries : List (List UInt8 × α)) (key : List UInt8) : Option α := entries.lookup key

/-- A new entry becomes the head of its bucket. -/
def insertHead (key : List UInt8) (value : α) : List (List UInt8 × α) → List (List UInt8 × α)
  | [] => [(key, value)]
  | entry :: entries =>
    if bucket entry.1 < bucket key then entry :: insertHead key value entries
    else (key, value) :: entry :: entries

def qdictPutObj (entries : List (List UInt8 × α)) (key : List UInt8) (value : α) :
    List (List UInt8 × α) :=
  if (qdictGet entries key).isSome then
    entries.map fun entry => if entry.1 = key then (key, value) else entry
  else insertHead key value entries

end QDict

end QemuAndroid.Json
