import ThreadedForth.Dictionary.Header
import ThreadedForth.Prim.Basic

/-!
# Memory layout

The unused null cell, the user cells and the buffers lie at the bottom of memory and the stacks at
the top. The dictionary has all that is left between them. Its first entries are the primitives, one
header each, so their execution tokens are known in advance.
-/

namespace ThreadedForth

namespace Layout

def memorySize : Nat := 1048576

/-! ### User cells -/

def state : Nat := 4

def base : Nat := state + 4

/-- The offset of the next character in the current source. -/
def toIn : Nat := base + 4

/-- Digits after the last point of the last number read, or -1. -/
def pointCount : Nat := toIn + 4

/-! ### Buffers -/

def inputBuffer : Nat := pointCount + 4

def inputBufferSize : Nat := 1024

/-- Text quoted outside a definition. -/
def pad : Nat := inputBuffer + inputBufferSize

def padSize : Nat := 256

def numberBuffer : Nat := pad + padSize

def numberBufferSize : Nat := 128

/-! ### Stacks -/

def dataCells : Nat := 256

def returnCells : Nat := 256

/-- Room for 64 markers of two cells. -/
def controlCells : Nat := 128

def dataStack : Nat := memorySize - dataCells * 4

def returnStack : Nat := dataStack - returnCells * 4

def controlStack : Nat := returnStack - controlCells * 4

/-! ### Dictionary -/

def dictionaryStart : Nat := numberBuffer + numberBufferSize

def dictionaryEnd : Nat := controlStack

end Layout

namespace Prim

def token (prim : Prim) : Nat :=
  Header.token (Layout.dictionaryStart + Header.size * prim.index)

/-- The primitive a cell is the execution token of. -/
def ofToken? (cell : Cell) : Option Prim :=
  let first := Header.token Layout.dictionaryStart
  let token := cell.toNatClampNeg
  if first ≤ token ∧ (token - first) % Header.size = 0 then ofIndex? ((token - first) / Header.size)
  else none

end Prim

end ThreadedForth
