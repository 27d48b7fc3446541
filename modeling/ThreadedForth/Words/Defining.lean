import ThreadedForth.Machine.Markers
import ThreadedForth.Machine.Parsing
import ThreadedForth.Machine.Reports
import ThreadedForth.Words.Arithmetic

/-!
# Defining words

A definition opened by `:` stays smudged until `;` closes it, so inside it its name still means the
older word. A name that is already taken is reported, and the older word stays where it is.
-/

namespace ThreadedForth.DefiningWord

open WordM

/-- Report a name that is about to be hidden by a new definition. -/
def warnIfTaken (name : String) : WordM Unit := do
  if (← ask fun machine => machine.dictionary.find? machine.memory name).isSome then
    reportTaken name

/-- Take a name from the source and create a word. The answer is its execution token. -/
def define (flags : Cell) (code : Code) : WordM Nat := do
  let name ← requireName
  warnIfTaken name
  onDictionary fun dictionary => dictionary.create name flags code.toCell

def needIdle : WordM Unit := do
  if (← markerDepth) ≠ 0 then throw .nesting

def openNamed : WordM Unit := do
  needIdle
  let token ← define Header.smudged .colon
  pushMarker ⟨.colon, token⟩
  setCompiling true

/-- Open a definition without a name, and push its execution token. -/
def openNameless : WordM Unit := do
  needIdle
  let token ← onDictionary fun dictionary => dictionary.createNameless Code.colon.toCell
  pushMarker ⟨.colon, token⟩
  setCompiling true
  pushNat token

/-- Close the definition that is open. All structures inside it must be closed. -/
def close : WordM Unit := do
  if (← markerDepth) ≠ 1 then throw .nesting
  let marker ← popMarker
  if marker.tag ≠ .colon then throw .nesting
  compile (.thread .exit)
  onMemory (Dictionary.clearFlag (Header.ofToken marker.address) Header.smudged)
  setCompiling false

def requireWord : WordM Header := do
  let name ← requireName
  match ← ask (·.findHeader? name) with
  | some header => return header
  | none => throw (.undefinedWord name)

/-- Append the compilation behaviour of a word: a call if it is immediate, else code that appends a
call when it runs. -/
def compileDeferred (header : Header) : WordM Unit := do
  if header.isImmediate then compileToken header.xt
  else
    compileCell (Cell.ofNat header.xt)
    compile (.defining .compileComma)

def latest : WordM Nat := ask fun machine => .ok machine.dictionary.latest

def perform : DefiningWord → WordM Unit
  | here => do pushNat (← WordM.here)
  | allot => do
    let amount ← pop
    moveHere (·.allot amount)
  | comma => do WordM.comma (← pop)
  | commaByte => do WordM.commaByte (← pop).toUInt32.toUInt8
  | align => moveHere Dictionary.align
  | unused => do pushNat (← ask fun machine => .ok machine.dictionary.unused)
  | colon => openNamed
  | nameless => openNameless
  | semicolon => close
  | create => discard (define 0 .pushBody)
  | does => compile (.thread .setDoes)
  | newConstant => do
    let value ← pop
    discard (define 0 .pushCell)
    WordM.comma value
  | newVariable => do
    discard (define 0 .pushBody)
    WordM.comma 0
  | toBody => CellWord.unary (· + 4)
  | immediate => do
    let header ← latest
    onMemory (Dictionary.setFlag header Header.immediate)
  | recurse => do compileToken (Header.token (← latest))
  | tick => do pushNat (← requireWord).xt
  | bracketTick => do
    pushNat (← requireWord).xt
    compileCell (← pop)
  | literal => do compileCell (← pop)
  | twoLiteral => do compileDouble (← popDouble)
  | compileComma => do WordM.comma (← pop)
  | postpone => do compileDeferred (← requireWord)
  | leftBracket => setCompiling false
  | rightBracket => setCompiling true
  | state => pushNat Layout.state

end ThreadedForth.DefiningWord
