import ThreadedForth.Cell
import ThreadedForth.Fault

/-!
# Division

Signed division comes in two kinds: floored, where the remainder has the sign of the divisor, and
symmetric, where it has the sign of the dividend. Both give the remainder first. Division by zero
fails, and so does a result that does not fit the cell it is meant for.
-/

namespace ThreadedForth.Division

/-- Remainder and quotient, the quotient rounded down. -/
def floored (n d : Int) : Except Fault (Int × Int) :=
  if d = 0 then .error .divisionByZero else .ok (n.fmod d, n.fdiv d)

/-- Remainder and quotient, the quotient rounded toward zero. -/
def symmetric (n d : Int) : Except Fault (Int × Int) :=
  if d = 0 then .error .divisionByZero else .ok (n.tmod d, n.tdiv d)

def toCell (n : Int) : Except Fault Cell :=
  if -0x80000000 ≤ n ∧ n < 0x80000000 then .ok (Int32.ofInt n) else .error .outOfRange

/-- Fit remainder and quotient into cells, the remainder first. -/
def toCells (result : Except Fault (Int × Int)) : Except Fault (Cell × Cell) := do
  let (remainder, quotient) ← result
  let remainder ← toCell remainder
  let quotient ← toCell quotient
  return (remainder, quotient)

/-- Unsigned division of a double by a cell: remainder and quotient. The quotient must fit a cell. -/
def unsigned (n : UInt64) (d : UInt32) : Except Fault (Cell × Cell) :=
  if d = 0 then .error .divisionByZero
  else
    let quotient := n.toNat / d.toNat
    if quotient < 0x100000000 then .ok (Cell.ofNat (n.toNat % d.toNat), Cell.ofNat quotient)
    else .error .outOfRange

end ThreadedForth.Division
