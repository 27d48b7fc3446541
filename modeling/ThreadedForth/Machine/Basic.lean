import ThreadedForth.Dictionary.Basic
import ThreadedForth.Disk
import ThreadedForth.Machine.Layout
import ThreadedForth.Marker
import ThreadedForth.Prim.Code
import ThreadedForth.Stack

/-!
# The machine

Memory, three stacks in it, the dictionary's cursors, the instruction pointer, the state of the
input and what has been printed. A word is an action on the machine that may fail; the machine it
leaves is known either way, because a failure does not undo what was done before it.
-/

namespace ThreadedForth

structure Source where
  address : Nat
  length : Nat
  deriving DecidableEq, Repr

/-- A source that waits for a nested one to end, and how far it has been read. -/
structure Suspended where
  source : Source
  toIn : Cell
  deriving DecidableEq, Repr

/-- A stream of lines that is being read, and how many lines it has given. -/
structure Reader where
  name : String
  line : Nat
  deriving DecidableEq, Repr

structure Machine where
  memory : Memory
  data : Stack
  returns : Stack
  control : Stack
  dictionary : Dictionary
  /-- Address of the next cell to execute, zero when idle. -/
  ip : Nat
  source : Source
  /-- Sources set aside, the one to resume first at the front. -/
  suspended : List Suspended
  /-- Streams being read, the innermost at the front. -/
  readers : List Reader
  disk : Disk
  /-- Paths asked for that are not on the disk, the last one at the front. -/
  unknownPaths : List String
  output : Array UInt8
  /-- All that was reported to the user, line by line. -/
  reports : Array String
  verbose : Bool
  /-- Set once the program has asked to end. -/
  exiting : Bool
  /-- Show the stack after each line of the console. -/
  showStack : Bool
  tracing : Bool

abbrev WordM := EStateM Fault Machine

namespace Machine

/-- The source when there is nothing to interpret. -/
def idleSource : Source := ⟨Layout.inputBuffer, 0⟩

/-- Memory with the user cells set up and all regions but the dictionary's handed out. -/
def initialMemory : Memory :=
  let memory := Memory.ofSize Layout.memorySize
  { ((memory.setCell Layout.base 10).setCell Layout.pointCount (-1)) with
    low := Layout.dictionaryStart, high := Layout.dictionaryEnd }

def new (disk : Disk) (verbose : Bool) : Machine where
  memory := initialMemory
  data := Stack.new .data Layout.dataStack Layout.dataCells
  returns := Stack.new .return Layout.returnStack Layout.returnCells
  control := Stack.new .control Layout.controlStack Layout.controlCells
  dictionary := Dictionary.new Layout.dictionaryStart Layout.dictionaryEnd
  ip := 0
  source := idleSource
  suspended := []
  readers := [⟨"stdin", 0⟩]
  disk
  unknownPaths := []
  output := #[]
  reports := #[]
  verbose
  exiting := false
  showStack := false
  tracing := false

/-- The base of number input and output, which must lie between 2 and 36. -/
def base (machine : Machine) : Except Fault Nat := do
  let base ← machine.memory.readCell Layout.base
  if 2 ≤ base ∧ base ≤ 36 then return base.toNatClampNeg
  else throw (.invalidNumber ("base " ++ toString base.toInt))

/-- Look a name up, and read the header if it is there. -/
def findHeader? (machine : Machine) (name : String) : Except Fault (Option Header) := do
  match ← machine.dictionary.find? machine.memory name with
  | some header => return some (← Dictionary.header machine.memory header)
  | none => return none

end Machine

namespace WordM

variable {α : Type}

/-- Look something up. The machine stays as it is. -/
@[inline] def ask (question : Machine → Except Fault α) : WordM α := fun machine =>
  match question machine with
  | .ok answer => .ok answer machine
  | .error fault => .error fault machine

@[inline] def update (change : Machine → Machine) : WordM Unit := fun machine =>
  .ok () (change machine)

@[inline] def onMemory (step : MemoryM α) : WordM α := fun machine =>
  match step machine.memory with
  | .ok answer memory => .ok answer { machine with memory }
  | .error fault memory => .error fault { machine with memory }

@[inline] def onDictionary (step : Dictionary → MemoryM (α × Dictionary)) : WordM α := fun machine =>
  match step machine.dictionary machine.memory with
  | .ok (answer, dictionary) memory => .ok answer { machine with dictionary, memory }
  | .error fault memory => .error fault { machine with memory }

/-! ### Data stack -/

@[inline] def pushing (step : Stack → MemoryM Stack) : WordM Unit := fun machine =>
  match step machine.data machine.memory with
  | .ok data memory => .ok () { machine with data, memory }
  | .error fault memory => .error fault { machine with memory }

@[inline] def popping (step : Stack → Memory → Except Fault (α × Stack)) : WordM α := fun machine =>
  match step machine.data machine.memory with
  | .ok (answer, data) => .ok answer { machine with data }
  | .error fault => .error fault machine

def push (value : Cell) : WordM Unit := pushing (·.push value)

def pop : WordM Cell := popping Stack.pop

def pushDouble (value : DoubleCell) : WordM Unit := pushing (·.pushDouble value)

def popDouble : WordM DoubleCell := popping Stack.popDouble

def pushFlag (truth : Bool) : WordM Unit := push (Cell.ofBool truth)

def pushNat (n : Nat) : WordM Unit := push (Cell.ofNat n)

def top (depth : Nat) : WordM Cell := ask fun machine => machine.data.peek machine.memory depth

/-- Bring the item at `depth` to the top. -/
def rollUp (depth : Nat) : WordM Unit := pushing fun data => do data.roll depth; return data

def need (count : Nat) : WordM Unit := ask (·.data.check count)

/-- Pop a cell that must be an address inside memory. -/
def popAddress : WordM Nat := do
  let value ← pop
  ask (·.memory.address value)

/-- Pop a count, which may not be negative. -/
def popLength : WordM Nat := do
  let value ← pop
  if value < 0 then throw .outOfRange else return value.toNatClampNeg

/-! ### Return stack -/

def pushReturn (value : Cell) : WordM Unit := fun machine =>
  match machine.returns.push value machine.memory with
  | .ok returns memory => .ok () { machine with returns, memory }
  | .error fault memory => .error fault { machine with memory }

def popReturn : WordM Cell := fun machine =>
  match machine.returns.pop machine.memory with
  | .ok (value, returns) => .ok value { machine with returns }
  | .error fault => .error fault machine

def topReturn (depth : Nat) : WordM Cell :=
  ask fun machine => machine.returns.peek machine.memory depth

def pokeReturn (depth : Nat) (value : Cell) : WordM Unit := fun machine =>
  match machine.returns.poke depth value machine.memory with
  | .ok _ memory => .ok () { machine with memory }
  | .error fault memory => .error fault { machine with memory }

def needReturn (count : Nat) : WordM Unit := ask (·.returns.check count)

/-! ### Memory and user cells -/

def readCell (address : Nat) : WordM Cell := ask (·.memory.readCell address)

def readBytes (address length : Nat) : WordM (List UInt8) := ask (·.memory.readBytes address length)

def readText (address length : Nat) : WordM String := ask (·.memory.readText address length)

def writeCell (address : Nat) (value : Cell) : WordM Unit :=
  onMemory (Memory.writeCell address value)

def isCompiling : WordM Bool := return (← readCell Layout.state) != 0

def setCompiling (compiling : Bool) : WordM Unit := writeCell Layout.state (Cell.ofBool compiling)

/-! ### Compiling -/

def here : WordM Nat := ask fun machine => .ok machine.dictionary.here

def comma (value : Cell) : WordM Unit :=
  onDictionary fun dictionary => return ((), ← dictionary.comma value)

def commaByte (value : UInt8) : WordM Unit :=
  onDictionary fun dictionary => return ((), ← dictionary.commaByte value)

def moveHere (step : Dictionary → Except Fault Dictionary) : WordM Unit := fun machine =>
  match step machine.dictionary with
  | .ok dictionary => .ok () { machine with dictionary }
  | .error fault => .error fault machine

def compileToken (token : Nat) : WordM Unit := comma (Cell.ofNat token)

def compile (prim : Prim) : WordM Unit := compileToken prim.token

def compileCell (value : Cell) : WordM Unit := do
  compile (.thread .lit)
  comma value

def compileDouble (value : DoubleCell) : WordM Unit := do
  compile (.thread .twoLit)
  comma (DoubleCell.low value)
  comma (DoubleCell.high value)

/-! ### Output -/

def print (bytes : List UInt8) : WordM Unit :=
  update fun machine => { machine with output := machine.output ++ bytes }

def printText (text : String) : WordM Unit := print (Utf8.encode text)

def report (line : String) : WordM Unit :=
  update fun machine => { machine with reports := machine.reports.push line }

end WordM

end ThreadedForth
