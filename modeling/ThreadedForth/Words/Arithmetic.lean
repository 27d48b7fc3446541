import ThreadedForth.Division
import ThreadedForth.Machine.Basic

/-!
# Arithmetic words

Single-cell and double arithmetic wraps. Division checks its divisor and its results.
-/

namespace ThreadedForth

open WordM

namespace CellWord

def unary (f : Cell → Cell) : WordM Unit := do push (f (← pop))

def binary (f : Cell → Cell → Cell) : WordM Unit := do
  need 2
  let b ← pop
  let a ← pop
  push (f a b)

def compare (relation : Cell → Cell → Bool) : WordM Unit :=
  binary fun a b => Cell.ofBool (relation a b)

def test (property : Cell → Bool) : WordM Unit := unary fun a => Cell.ofBool (property a)

/-- Shift left by a number of bits. A shift by the width of a cell or more leaves nothing. -/
def shiftedLeft (value bits : Cell) : Cell :=
  if 0 ≤ bits ∧ bits < 32 then (value.toUInt32 <<< bits.toUInt32).toInt32 else 0

/-- Shift right by a number of bits, filling with zeros. -/
def shiftedRight (value bits : Cell) : Cell :=
  if 0 ≤ bits ∧ bits < 32 then (value.toUInt32 >>> bits.toUInt32).toInt32 else 0

/-- `n` lies from `low` up to, but not at, `high`, on the circle of cells. -/
def isWithin (n low high : Cell) : Bool := (n - low).toUInt32 < (high - low).toUInt32

def divide : WordM (Cell × Cell) := do
  need 2
  let d ← pop
  let n ← pop
  ask fun _ => Division.toCells (Division.floored n.toInt d.toInt)

/-- Pop a divisor and two factors, and divide their full product. -/
def scale : WordM (Cell × Cell) := do
  need 3
  let d ← pop
  let b ← pop
  let a ← pop
  ask fun _ => Division.toCells (Division.floored (a.toInt * b.toInt) d.toInt)

def perform : CellWord → WordM Unit
  | plus => binary (· + ·)
  | minus => binary (· - ·)
  | star => binary (· * ·)
  | slash => do push (← divide).2
  | mod => do push (← divide).1
  | slashMod => do
    let (remainder, quotient) ← divide
    push remainder
    push quotient
  | starSlash => do push (← scale).2
  | starSlashMod => do
    let (remainder, quotient) ← scale
    push remainder
    push quotient
  | onePlus => unary (· + 1)
  | oneMinus => unary (· - 1)
  | negate => unary (-·)
  | abs => unary Int32.abs
  | min => binary fun a b => if a ≤ b then a else b
  | max => binary fun a b => if a ≤ b then b else a
  | bitAnd => binary (· &&& ·)
  | bitOr => binary (· ||| ·)
  | bitXor => binary (· ^^^ ·)
  | invert => unary (~~~·)
  | shiftLeft => binary shiftedLeft
  | shiftRight => binary shiftedRight
  | twoStar => unary (· <<< 1)
  | twoSlash => unary (· >>> 1)
  | equal => compare (· == ·)
  | notEqual => compare (· != ·)
  | less => compare (· < ·)
  | greater => compare (· > ·)
  | unsignedLess => compare fun a b => a.toUInt32 < b.toUInt32
  | zeroEqual => test (· == 0)
  | zeroNotEqual => test (· != 0)
  | zeroLess => test (· < 0)
  | zeroGreater => test (· > 0)
  | within => do
    need 3
    let high ← pop
    let low ← pop
    let n ← pop
    pushFlag (isWithin n low high)
  | trueFlag => pushFlag true
  | falseFlag => pushFlag false

end CellWord

namespace DoubleWord

def multiply (f : Cell → Cell → DoubleCell) : WordM Unit := do
  need 2
  let b ← pop
  let a ← pop
  pushDouble (f a b)

/-- Pop two doubles, the second given first. -/
def popDoubles : WordM (DoubleCell × DoubleCell) := do
  need 4
  let b ← popDouble
  let a ← popDouble
  return (a, b)

def binary (f : DoubleCell → DoubleCell → DoubleCell) : WordM Unit := do
  let (a, b) ← popDoubles
  pushDouble (f a b)

def compare (relation : DoubleCell → DoubleCell → Bool) : WordM Unit := do
  let (a, b) ← popDoubles
  pushFlag (relation a b)

/-- Divide a double by a cell, leaving remainder and quotient. -/
def divide (f : DoubleCell → Cell → Except Fault (Cell × Cell)) : WordM Unit := do
  need 3
  let d ← pop
  let n ← popDouble
  let (remainder, quotient) ← ask fun _ => f n d
  push remainder
  push quotient

def perform : DoubleWord → WordM Unit
  | mStar => multiply fun a b => a.toInt64 * b.toInt64
  | umStar => multiply fun a b => (a.toUInt32.toUInt64 * b.toUInt32.toUInt64).toInt64
  | umSlashMod => divide fun n d => Division.unsigned n.toUInt64 d.toUInt32
  | fmSlashMod => divide fun n d => Division.toCells (Division.floored n.toInt d.toInt)
  | smSlashRem => divide fun n d => Division.toCells (Division.symmetric n.toInt d.toInt)
  | dPlus => binary (· + ·)
  | dMinus => binary (· - ·)
  | dNegate => do pushDouble (-(← popDouble))
  | dAbs => do pushDouble (← popDouble).abs
  | sToD => do pushDouble (← pop).toInt64
  | dToS => do push (DoubleCell.low (← popDouble))
  | dEqual => compare (· == ·)
  | dLess => compare (· < ·)
  | dZeroEqual => do pushFlag ((← popDouble) == 0)
  | mPlus => do
    need 3
    let n ← pop
    let d ← popDouble
    pushDouble (d + n.toInt64)

end DoubleWord

end ThreadedForth
