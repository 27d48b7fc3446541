import ThreadedForth.Cell
import ThreadedForth.Text.Utf8

/-!
# Number literals

A token is a number if it reads as an optional sign, an optional base mark (`#` decimal, `$`
hexadecimal, `%` binary; the sign may stand before or after it), then digits in the base. Any of the
points `, . + - / :` among the digits makes the number a double, and the digits after the last point
are counted. A byte between single quotes is the number of that byte.

Digits are accumulated in 64 bits, and a single keeps the low half.
-/

namespace ThreadedForth

/-- A number as a program writes it: in one cell or in two. -/
inductive Number where
  | single (value : Cell)
  | double (value : DoubleCell)
  deriving DecidableEq, Repr

namespace Number

/-- The value of a digit, in either case, if it is one in the base. -/
def digit? (base : Nat) (byte : UInt8) : Option Nat :=
  let n := byte.toNat
  let value? :=
    if 48 ≤ n ∧ n ≤ 57 then some (n - 48)
    else if 97 ≤ n ∧ n ≤ 122 then some (n - 87)
    else if 65 ≤ n ∧ n ≤ 90 then some (n - 55)
    else none
  value?.filter (· < base)

def markedBase? (byte : UInt8) : Option Nat :=
  if byte = 35 then some 10 else if byte = 36 then some 16 else if byte = 37 then some 2 else none

/-- One of `, . + - / :`. -/
def isPoint (byte : UInt8) : Bool :=
  byte == 44 || byte == 46 || byte == 43 || byte == 45 || byte == 47 || byte == 58

def takeMinus : List UInt8 → Bool × List UInt8
  | 45 :: rest => (true, rest)
  | bytes => (false, bytes)

def takeMark : List UInt8 → Option Nat × List UInt8
  | [] => (none, [])
  | byte :: rest =>
    match markedBase? byte with
    | some base => (some base, rest)
    | none => (none, byte :: rest)

/-- The digits read so far: their value, how many there are, and how many of them stand after the
last point, which is negative before the first one. -/
structure Digits where
  value : UInt64
  count : Nat
  afterPoint : Cell
  deriving DecidableEq, Repr

namespace Digits

def empty : Digits := ⟨0, 0, -1⟩

def next? (base : Nat) (digits : Digits) (byte : UInt8) : Option Digits :=
  match digit? base byte with
  | some d => some {
      value := digits.value * UInt64.ofNat base + UInt64.ofNat d
      count := digits.count + 1
      afterPoint := if 0 ≤ digits.afterPoint then digits.afterPoint + 1 else digits.afterPoint }
  | none => if isPoint byte then some { digits with afterPoint := 0 } else none

def read? (base : Nat) (bytes : List UInt8) : Option Digits := bytes.foldlM (next? base) empty

def number (digits : Digits) (negative : Bool) : Number :=
  if 0 ≤ digits.afterPoint then
    let value := digits.value.toInt64
    .double (if negative then -value else value)
  else
    let value := digits.value.toUInt32.toInt32
    .single (if negative then -value else value)

end Digits

/-- Read the bytes of a token in a base. The second part of the answer is the number of digits after
the last point, or -1 if there is no point. -/
def readBytes? (base : Nat) (bytes : List UInt8) : Option (Number × Cell) :=
  match bytes with
  | [39, byte, 39] => some (.single byte.toUInt32.toInt32, -1)
  | _ =>
    let (before, rest) := takeMinus bytes
    let (mark, rest) := takeMark rest
    let (after, rest) := if before then (false, rest) else takeMinus rest
    match Digits.read? (mark.getD base) rest with
    | some digits =>
      if digits.count = 0 then none else some (digits.number (before || after), digits.afterPoint)
    | none => none

def read? (base : Nat) (token : String) : Option (Number × Cell) :=
  readBytes? base (Utf8.encode token)

/-- A token that is no number was meant to be one if a decimal digit follows the optional signs and
base mark. -/
def looksNumeric (token : String) : Bool :=
  let (_, rest) := takeMinus (Utf8.encode token)
  let (_, rest) := takeMark rest
  let (_, rest) := takeMinus rest
  match rest with
  | [] => false
  | byte :: _ => 48 ≤ byte && byte ≤ 57

end Number

end ThreadedForth
