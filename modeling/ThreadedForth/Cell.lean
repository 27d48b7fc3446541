/-!
# Cells

A cell is the machine's unit of data: a 32-bit two's complement number, stored as four bytes with
the lowest first. Addresses are natural numbers; a cell that is used as an address is sign-extended
to 64 bits first, so a negative cell names an address far above any memory.
-/

namespace ThreadedForth

/-- One stack item or one stored number. Arithmetic on cells wraps. -/
abbrev Cell := Int32

abbrev DoubleCell := Int64

namespace Cell

def width : Nat := 4

/-- The canonical truth values: all bits set for true, none for false. -/
def ofBool (truth : Bool) : Cell := if truth then -1 else 0

def ofBytes (b0 b1 b2 b3 : UInt8) : Cell :=
  (b0.toUInt32 ||| (b1.toUInt32 <<< 8) ||| (b2.toUInt32 <<< 16) ||| (b3.toUInt32 <<< 24)).toInt32

/-- Byte `i` of a cell, counted from the lowest. -/
def byte (value : Cell) (i : UInt32) : UInt8 := (value.toUInt32 >>> (8 * i)).toUInt8

/-- The address a cell names: itself, or `2 ^ 64` more when it is negative. -/
def toAddress (value : Cell) : Nat :=
  if value < 0 then (value.toInt + 0x10000000000000000).toNat else value.toNatClampNeg

/-- The low 32 bits of an address or a count. -/
def ofNat (n : Nat) : Cell := Int32.ofNat n

end Cell

namespace DoubleCell

def low (value : DoubleCell) : Cell := value.toInt32

def high (value : DoubleCell) : Cell := (value >>> 32).toInt32

def join (low high : Cell) : DoubleCell :=
  (high.toInt64 <<< 32) ||| low.toUInt32.toUInt64.toInt64

end DoubleCell

/-- The next multiple of the cell width, or the number itself if it is one. -/
def aligned (address : Nat) : Nat := (address + 3) / 4 * 4

/-- A 64-bit address read as a signed number, which is how faults show it. -/
def signedAddress (address : Nat) : Int :=
  if address < 0x8000000000000000 then address else (address : Int) - 0x10000000000000000

end ThreadedForth
