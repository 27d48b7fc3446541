import ThreadedForth.Number.Literal

/-!
# Numerals

The text of a number in a base: its digits with no leading zero, letters in upper case, a minus sign
before a negative number. A double written so that it reads back as a double ends in a point.
-/

namespace ThreadedForth.Number

def digitChar (d : Nat) : Char := Char.ofNat (if d < 10 then 48 + d else 55 + d)

/-- Put the digits of `n` before `rest`. Each step divides by the base, so `n` steps are enough. -/
def digitsOnto (base : Nat) : Nat → Nat → List Char → List Char
  | 0, n, rest => digitChar (n % base) :: rest
  | steps + 1, n, rest =>
    let rest := digitChar (n % base) :: rest
    if n / base = 0 then rest else digitsOnto base steps (n / base) rest

def unsigned (base n : Nat) : String := String.ofList (digitsOnto base n n [])

def signed (base : Nat) (n : Int) : String :=
  if n < 0 then "-" ++ unsigned base n.natAbs else unsigned base n.natAbs

/-- The text that reads back as the same number. -/
def render (base : Nat) : Number → String
  | single value => signed base value.toInt
  | double value => signed base value.toInt ++ "."

end ThreadedForth.Number
