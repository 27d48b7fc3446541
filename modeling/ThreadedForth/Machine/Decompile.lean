import ThreadedForth.Machine.Basic
import ThreadedForth.Number.Numeral
import ThreadedForth.Prim.Entry

/-!
# Decompiling

A definition is read back instruction by instruction. An instruction is a cell with the operands its
word takes from the thread. `EXIT` ends the definition unless a branch seen so far goes past it.
-/

namespace ThreadedForth

inductive Instruction where
  | cell (value : Cell)
  | double (value : DoubleCell)
  | text (content : String)
  /-- A word with an offset, counted from the offset's own cell. -/
  | jump (word : ThreadWord) (offset : Cell)
  | exit
  | call (name : String)
  | unknown (value : Cell)
  deriving DecidableEq, Repr

namespace Instruction

/-- The text of an instruction. `EXIT` is shown by its name. -/
def render (base : Nat) : Instruction → String
  | cell value => Number.signed base value.toInt
  | double value => Number.render base (.double value)
  | text content => "s\" " ++ content ++ "\""
  | jump word offset => word.entry.name ++ ":" ++ toString offset.toInt
  | exit => ThreadWord.exit.entry.name
  | call name => name
  | unknown value => "?" ++ toString value.toInt

def takesOffset : ThreadWord → Bool
  | .branch | .zeroBranch | .enterDo | .enterQuestionDo | .stepLoop | .stepPlusLoop | .testOf => true
  | _ => false

end Instruction

namespace Machine

/-- The name of the word a cell is the execution token of. -/
def wordName? (machine : Machine) (cell : Cell) : Except Fault (Option String) := do
  if cell < 0 then return none
  let token := cell.toNatClampNeg
  if ← machine.dictionary.containsToken machine.memory token then
    let header ← Dictionary.header machine.memory (Header.ofToken token)
    return some (if header.name.isEmpty then ":noname@" ++ toString token else header.name)
  else return none

/-- Read the instruction at an address. The second part of the answer is the address after it. -/
def instruction (machine : Machine) (address : Nat) : Except Fault (Instruction × Nat) := do
  let cell ← machine.memory.readCell address
  let operand := address + 4
  match Prim.ofToken? cell with
  | some (.thread .lit) => return (.cell (← machine.memory.readCell operand), operand + 4)
  | some (.thread .twoLit) =>
    let low ← machine.memory.readCell operand
    let high ← machine.memory.readCell (operand + 4)
    return (.double (DoubleCell.join low high), operand + 8)
  | some (.thread .textLit) =>
    let length := (← machine.memory.readCell operand).toNatClampNeg
    let content ← machine.memory.readText (operand + 4) length
    return (.text content, aligned (operand + 4 + length))
  | some (.thread .exit) => return (.exit, operand)
  | some (.thread word) =>
    if Instruction.takesOffset word then
      return (.jump word (← machine.memory.readCell operand), operand + 4)
    else return (.call word.entry.name, operand)
  | some prim => return (.call prim.name, operand)
  | none =>
    match ← machine.wordName? cell with
    | some name => return (.call name, operand)
    | none => return (.unknown cell, operand)

/-- The furthest address that is known to be reached, after an instruction at `address`. -/
def reach (address furthest : Nat) : Instruction → Nat
  | .jump _ offset => max furthest ((address + 4 : Int) + offset.toInt).toNat
  | _ => furthest

/-- Read instructions from `address` up to the end of the definition or of the dictionary. Each
instruction takes at least a cell, so there are fewer of them than there are bytes. -/
def instructionsFrom (machine : Machine) (base : Nat) :
    Nat → Nat → Nat → Array String → Except Fault (Array String)
  | 0, _, _, shown => .ok shown
  | steps + 1, address, furthest, shown =>
    if machine.dictionary.here ≤ address then .ok shown
    else do
      let (instruction, next) ← machine.instruction address
      if instruction = .exit ∧ furthest ≤ address then return shown.push ";"
      machine.instructionsFrom base steps next (reach address furthest instruction)
        (shown.push (instruction.render base))

def decompile (machine : Machine) (start : Nat) : Except Fault String := do
  let base ← machine.base
  let shown ← machine.instructionsFrom base (machine.dictionary.here - start) start start #[]
  return " ".intercalate shown.toList

/-- What a word is, as a user is shown it. -/
def describe (machine : Machine) (header : Header) : Except Fault String := do
  match Code.ofCell? header.code with
  | some (.prim prim) => return "Builtin: " ++ prim.entry.doc
  | some .colon =>
    let code ← machine.decompile (Header.body header.xt)
    return ": " ++ header.name ++ " " ++ code ++ (if header.isImmediate then " immediate" else "")
  | some .pushCell =>
    let value ← machine.memory.readCell (Header.body header.xt)
    return "Constant: " ++ header.name ++ " = " ++ Number.signed (← machine.base) value.toInt
  | some .pushBody =>
    let value ← machine.memory.readCell (Header.body header.xt)
    return "Variable: " ++ header.name ++ " = " ++ Number.signed (← machine.base) value.toInt
  | some .does => return "Created: " ++ header.name ++ " does> " ++ (← machine.decompile header.does)
  | none => throw (.invalidAddress (signedAddress header.xt))

def visibleNames (machine : Machine) : Except Fault (List String) := do
  let headers ← (← machine.dictionary.headers machine.memory).mapM (Dictionary.header machine.memory)
  return (headers.filter Header.isVisible).map (·.name)

end Machine

end ThreadedForth
