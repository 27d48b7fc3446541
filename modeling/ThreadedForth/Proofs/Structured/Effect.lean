
import ThreadedForth.Number.Literal
import ThreadedForth.Words.Arithmetic

/-!
# Stack effects

What the words that work on the data stack alone do to its items, with no memory and no cursor. Each
word takes its operands from the front of a list and leaves its results there.
-/

namespace ThreadedForth

open Division DoubleCell

/-- The items of the data stack, the top one first. -/
abbrev Items := List Cell

namespace Items

def underflow : Except Fault Items := .error (.stackUnderflow .data)

def push (value : Cell) (items : Items) : Except Fault Items :=
  if items.length < Layout.dataCells then .ok (value :: items) else .error (.stackOverflow .data)

/-- A double on top of the items, the high cell first. -/
def double (value : DoubleCell) (items : Items) : Items :=
  DoubleCell.high value :: DoubleCell.low value :: items

def pushDouble (value : DoubleCell) (items : Items) : Except Fault Items :=
  if items.length + 2 ≤ Layout.dataCells then .ok (double value items)
  else .error (.stackOverflow .data)

def pushNumber : Number → Items → Except Fault Items
  | .single value => push value
  | .double value => pushDouble value

end Items

open Items

/-! ### Rearranging -/

/-- The stack words that leave the return stack alone. -/
inductive Shuffle where
  | dup | drop | swap | over_ | rot | minusRot | nip | tuck | questionDup | pick | roll | depth
  | twoDup | twoDrop | twoSwap | twoOver | clear
  deriving DecidableEq, Repr

namespace Shuffle

def word : Shuffle → StackWord
  | dup => .dup
  | drop => .drop
  | swap => .swap
  | over_ => .over_
  | rot => .rot
  | minusRot => .minusRot
  | nip => .nip
  | tuck => .tuck
  | questionDup => .questionDup
  | pick => .pick
  | roll => .roll
  | depth => .depth
  | twoDup => .twoDup
  | twoDrop => .twoDrop
  | twoSwap => .twoSwap
  | twoOver => .twoOver
  | clear => .clear

/-- A copy of the item at depth `n`. -/
def picked (n : Cell) (items : Items) : Except Fault Items :=
  if n < 0 then .error .outOfRange
  else
    match items[n.toNatClampNeg]? with
    | some value => .ok (value :: items)
    | none => underflow

/-- The item at depth `n` brought to the top. There need not be one if nothing has to move. -/
def rolled (n : Cell) (items : Items) : Except Fault Items :=
  if n < 0 then .error .outOfRange
  else if n.toNatClampNeg = 0 then .ok items
  else
    match items[n.toNatClampNeg]? with
    | some value => .ok (value :: items.eraseIdx n.toNatClampNeg)
    | none => underflow

def effect : Shuffle → Items → Except Fault Items
  | dup, a :: rest => push a (a :: rest)
  | drop, _ :: rest => .ok rest
  | swap, b :: a :: rest => .ok (a :: b :: rest)
  | over_, b :: a :: rest => push a (b :: a :: rest)
  | rot, c :: b :: a :: rest => .ok (a :: c :: b :: rest)
  | minusRot, c :: b :: a :: rest => .ok (b :: a :: c :: rest)
  | nip, b :: _ :: rest => .ok (b :: rest)
  | tuck, b :: a :: rest => push b (a :: b :: rest)
  | questionDup, a :: rest => if a = 0 then .ok (a :: rest) else push a (a :: rest)
  | pick, n :: rest => picked n rest
  | roll, n :: rest => rolled n rest
  | depth, items => push (Cell.ofNat items.length) items
  | twoDup, b :: a :: rest => do push b (← push a (b :: a :: rest))
  | twoDrop, _ :: _ :: rest => .ok rest
  | twoSwap, d :: c :: b :: a :: rest => .ok (b :: a :: d :: c :: rest)
  | twoOver, d :: c :: b :: a :: rest => do push b (← push a (d :: c :: b :: a :: rest))
  | clear, _ => .ok []
  | _, _ => underflow

end Shuffle

/-! ### Single cells -/

namespace Items

def unary (f : Cell → Cell) : Items → Except Fault Items
  | a :: rest => .ok (f a :: rest)
  | _ => underflow

def binary (f : Cell → Cell → Cell) : Items → Except Fault Items
  | b :: a :: rest => .ok (f a b :: rest)
  | _ => underflow

def test (property : Cell → Bool) : Items → Except Fault Items := unary fun a => Cell.ofBool (property a)

def compare (relation : Cell → Cell → Bool) : Items → Except Fault Items :=
  binary fun a b => Cell.ofBool (relation a b)

/-- Divide, and leave what is wanted of remainder and quotient. -/
def divide (leave : Cell → Cell → List Cell) : Items → Except Fault Items
  | d :: n :: rest => do
    let (remainder, quotient) ← toCells (floored n.toInt d.toInt)
    return leave remainder quotient ++ rest
  | _ => underflow

/-- Divide a product, and leave what is wanted of remainder and quotient. -/
def scale (leave : Cell → Cell → List Cell) : Items → Except Fault Items
  | d :: b :: a :: rest => do
    let (remainder, quotient) ← toCells (floored (a.toInt * b.toInt) d.toInt)
    return leave remainder quotient ++ rest
  | _ => underflow

def within : Items → Except Fault Items
  | high :: low :: n :: rest => .ok (Cell.ofBool (CellWord.isWithin n low high) :: rest)
  | _ => underflow

end Items

def CellWord.effect : CellWord → Items → Except Fault Items
  | plus => Items.binary (· + ·)
  | minus => Items.binary (· - ·)
  | star => Items.binary (· * ·)
  | slash => Items.divide fun _ quotient => [quotient]
  | mod => Items.divide fun remainder _ => [remainder]
  | slashMod => Items.divide fun remainder quotient => [quotient, remainder]
  | starSlash => Items.scale fun _ quotient => [quotient]
  | starSlashMod => Items.scale fun remainder quotient => [quotient, remainder]
  | onePlus => Items.unary (· + 1)
  | oneMinus => Items.unary (· - 1)
  | negate => Items.unary (-·)
  | abs => Items.unary Int32.abs
  | min => Items.binary fun a b => if a ≤ b then a else b
  | max => Items.binary fun a b => if a ≤ b then b else a
  | bitAnd => Items.binary (· &&& ·)
  | bitOr => Items.binary (· ||| ·)
  | bitXor => Items.binary (· ^^^ ·)
  | invert => Items.unary (~~~·)
  | shiftLeft => Items.binary shiftedLeft
  | shiftRight => Items.binary shiftedRight
  | twoStar => Items.unary (· <<< 1)
  | twoSlash => Items.unary (· >>> 1)
  | equal => Items.compare (· == ·)
  | notEqual => Items.compare (· != ·)
  | less => Items.compare (· < ·)
  | greater => Items.compare (· > ·)
  | unsignedLess => Items.compare fun a b => a.toUInt32 < b.toUInt32
  | zeroEqual => Items.test (· == 0)
  | zeroNotEqual => Items.test (· != 0)
  | zeroLess => Items.test (· < 0)
  | zeroGreater => Items.test (· > 0)
  | within => Items.within
  | trueFlag => Items.push (Cell.ofBool true)
  | falseFlag => Items.push (Cell.ofBool false)

/-! ### Doubles -/

namespace Items

def multiply (f : Cell → Cell → DoubleCell) : Items → Except Fault Items
  | b :: a :: rest => .ok (double (f a b) rest)
  | _ => underflow

def onDouble (f : DoubleCell → Items → Except Fault Items) : Items → Except Fault Items
  | high :: low :: rest => f (join low high) rest
  | _ => underflow

def onDoubles (f : DoubleCell → DoubleCell → Items → Except Fault Items) : Items → Except Fault Items
  | bHigh :: bLow :: aHigh :: aLow :: rest =>
    f (join aLow aHigh) (join bLow bHigh) rest
  | _ => underflow

def divideDouble (f : DoubleCell → Cell → Except Fault (Cell × Cell)) : Items → Except Fault Items
  | d :: high :: low :: rest => do
    let (remainder, quotient) ← f (join low high) d
    return quotient :: remainder :: rest
  | _ => underflow

def addToDouble : Items → Except Fault Items
  | n :: high :: low :: rest => .ok (double (join low high + n.toInt64) rest)
  | _ => underflow

def extend : Items → Except Fault Items
  | a :: rest => pushDouble a.toInt64 rest
  | _ => underflow

end Items

def DoubleWord.effect : DoubleWord → Items → Except Fault Items
  | mStar => Items.multiply fun a b => a.toInt64 * b.toInt64
  | umStar => Items.multiply fun a b => (a.toUInt32.toUInt64 * b.toUInt32.toUInt64).toInt64
  | umSlashMod => Items.divideDouble fun n d => Division.unsigned n.toUInt64 d.toUInt32
  | fmSlashMod => Items.divideDouble fun n d => Division.toCells (Division.floored n.toInt d.toInt)
  | smSlashRem => Items.divideDouble fun n d => Division.toCells (Division.symmetric n.toInt d.toInt)
  | dPlus => onDoubles fun a b rest => .ok (double (a + b) rest)
  | dMinus => onDoubles fun a b rest => .ok (double (a - b) rest)
  | dNegate => onDouble fun a rest => .ok (double (-a) rest)
  | dAbs => onDouble fun a rest => .ok (double a.abs rest)
  | sToD => extend
  | dToS => onDouble fun a rest => .ok (DoubleCell.low a :: rest)
  | dEqual => onDoubles fun a b rest => .ok (Cell.ofBool (a == b) :: rest)
  | dLess => onDoubles fun a b rest => .ok (Cell.ofBool (a < b) :: rest)
  | dZeroEqual => onDouble fun a rest => .ok (Cell.ofBool (a == 0) :: rest)
  | mPlus => addToDouble

/-! ### Data words -/

/-- The words that work on the data stack alone. -/
inductive DataWord where
  | shuffle (word : Shuffle)
  | cell (word : CellWord)
  | double (word : DoubleWord)
  deriving DecidableEq, Repr

namespace DataWord

def prim : DataWord → Prim
  | shuffle word => .stack word.word
  | cell word => .cell word
  | double word => .double word

def effect : DataWord → Items → Except Fault Items
  | shuffle word => word.effect
  | cell word => word.effect
  | double word => word.effect

end DataWord

end ThreadedForth
