import ThreadedForth.Machine.Parsing
import ThreadedForth.Machine.Request
import ThreadedForth.Words.Defining

/-!
# Input words

Words that parse what follows them, and words that redirect the interpreter. Quoted text is laid
down inline while a definition is compiled:

    (s") [length] characters ... padded to a cell

Outside a definition `S"` keeps its text in the pad, where the next one overwrites it.
-/

namespace ThreadedForth.InputWord

open WordM

def quote : UInt8 := 34

def closingParen : UInt8 := 41

def pushSource (text : Source) : WordM Unit := do
  pushNat text.address
  pushNat text.length

/-- Append a text to the definition, with code that pushes it. -/
def compileText (text : Source) : WordM Unit := do
  let bytes ← readBytes text.address text.length
  compile (.thread .textLit)
  comma (Cell.ofNat text.length)
  bytes.forM commaByte
  moveHere Dictionary.align

def keepText (text : Source) : WordM Unit := do
  if Layout.padSize < text.length then throw .textOverflow
  onMemory (Memory.move text.address Layout.pad text.length)
  pushSource ⟨Layout.pad, text.length⟩

def nextChar : WordM Cell := do
  let name ← WordM.parseName
  if name.length = 0 then throw .emptyName
  return Cell.ofNat (← ask (·.memory.readByte name.address)).toNat

def perform : InputWord → WordM (Option Request)
  | evaluate => do
    let length ← popLength
    let address ← popAddress
    return some (.evaluate ⟨address, length⟩)
  | source => do
    pushSource (← ask fun machine => .ok machine.source)
    return none
  | toIn => do pushNat Layout.toIn; return none
  | base => do pushNat Layout.base; return none
  | pointCount => do pushNat Layout.pointCount; return none
  | decimal => do writeCell Layout.base 10; return none
  | hex => do writeCell Layout.base 16; return none
  | parse => do
    let delimiter ← pop
    pushSource (← WordM.parse delimiter.toUInt32.toUInt8)
    return none
  | parseName => do pushSource (← WordM.parseName); return none
  | charCode => do push (← nextChar); return none
  | bracketChar => do
    push (← nextChar)
    compileCell (← pop)
    return none
  | comment => do
    discard (WordM.parse closingParen)
    return none
  | lineComment => do
    let length ← ask fun machine => .ok machine.source.length
    writeCell Layout.toIn (Cell.ofNat length)
    return none
  | textQuote => do
    let text ← WordM.parse quote
    if ← isCompiling then compileText text else keepText text
    return none
  | dotQuote => do
    let text ← WordM.parse quote
    if ← isCompiling then
      compileText text
      compile (.output .typeText)
    else print (← readBytes text.address text.length)
    return none
  | includeFile => do return some (.load (← requireName))
  | bye => do
    update fun machine => { machine with exiting := true }
    return none
  | abort => throw .aborted
  | abortQuote => do
    compileText (← WordM.parse quote)
    compile (.thread .testAbort)
    return none

end ThreadedForth.InputWord
