import ThreadedForth.Cell
import ThreadedForth.Prim.Basic

/-!
# Code cells

The code cell of a header says what the word does when it is executed: one of four behaviours that
words defined by a program share, or a primitive. The four are negative cells, a primitive is its
place in the order.
-/

namespace ThreadedForth

inductive Code where
  | colon
  | pushBody
  | pushCell
  /-- Push the address of the body, then run the code behind `DOES>`. -/
  | does
  | prim (prim : Prim)
  deriving DecidableEq, Repr

namespace Code

def toCell : Code → Cell
  | colon => -1
  | pushBody => -2
  | pushCell => -3
  | does => -4
  | prim p => Cell.ofNat p.index

def ofCell? (cell : Cell) : Option Code :=
  if 0 ≤ cell then (Prim.ofIndex? cell.toNatClampNeg).map prim
  else if cell = -1 then some colon
  else if cell = -2 then some pushBody
  else if cell = -3 then some pushCell
  else if cell = -4 then some does
  else none

theorem ofCell?_toCell (code : Code) : ofCell? code.toCell = some code := by
  cases code with
  | prim p =>
    have hbound : p.index < 180 := p.index_lt_count
    have hvalue : (Cell.ofNat p.index).toInt = p.index := by
      unfold Cell.ofNat
      rw [Int32.toInt_ofNat_of_lt (by omega)]
    have hnat : (Cell.ofNat p.index).toNatClampNeg = p.index := by
      simp [Int32.toNatClampNeg, hvalue]
    have hsign : (0 : Cell) ≤ Cell.ofNat p.index := by
      rw [Int32.le_iff_toInt_le, hvalue]
      simp
    simp [toCell, ofCell?, hsign, hnat, Prim.ofIndex?_index]
  | colon => rfl
  | pushBody => rfl
  | pushCell => rfl
  | does => rfl

end Code

end ThreadedForth
