import ThreadedForth.Machine.Basic
import ThreadedForth.Text.Blank

/-!
# Parsing

Words are taken from the current source, from the offset in `>IN` on. The offset is a cell that
programs may change at will, so it is brought back between zero and the length of the source before
it is used.
-/

namespace ThreadedForth.WordM

/-- Interpret the text at an address from its start. -/
def setSource (source : Source) : WordM Unit := do
  update fun machine => { machine with source }
  writeCell Layout.toIn 0

def suspendSource : WordM Unit := do
  let toIn ← readCell Layout.toIn
  update fun machine => { machine with suspended := ⟨machine.source, toIn⟩ :: machine.suspended }

/-- Go on with the source that was set aside last. -/
def resumeSource : WordM Unit := fun machine =>
  match machine.suspended with
  | [] => .ok () machine
  | ⟨source, toIn⟩ :: suspended =>
    writeCell Layout.toIn toIn { machine with source, suspended }

/-- The offset of the next character, inside the source. -/
def parseOffset : WordM Nat := ask fun machine => do
  let toIn ← machine.memory.readCell Layout.toIn
  return min toIn.toNatClampNeg machine.source.length

/-- The offset at which a run of characters that pass `test` ends, from `offset` on. The source has
to lie inside memory. -/
@[inline] def endOfRun (test : UInt8 → Bool) (offset : Nat) : WordM Nat := ask fun machine => do
  let source := machine.source
  machine.memory.check source.address source.length
  let finish := machine.memory.endOfRun test (source.address + offset) (source.length - offset)
  return finish - source.address

/-- The `length` bytes at `offset` have been parsed, and the byte that ended them is passed as well.
The answer is where they stand. -/
def advance (offset length : Nat) : WordM Source := do
  let source ← ask fun machine => .ok machine.source
  writeCell Layout.toIn (Cell.ofNat (min (offset + length + 1) source.length))
  return ⟨source.address + offset, length⟩

def parse (delimiter : UInt8) : WordM Source := do
  let offset ← parseOffset
  let finish ← endOfRun (· != delimiter) offset
  advance offset (finish - offset)

/-- Skip blanks and take the text up to the next one. At the end of the source its length is zero. -/
def parseName : WordM Source := do
  let start ← endOfRun Blank.isBlankByte (← parseOffset)
  let finish ← endOfRun (!Blank.isBlankByte ·) start
  advance start (finish - start)

def nextToken? : WordM (Option String) := do
  let name ← parseName
  if name.length = 0 then return none
  else return some (← readText name.address name.length)

def requireName : WordM String := do
  match ← nextToken? with
  | some name => return name
  | none => throw .emptyName

end ThreadedForth.WordM
