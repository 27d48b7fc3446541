import ThreadedForth.Machine.Basic
import ThreadedForth.Number.Numeral

/-!
# Output words

Numbers are converted in the current base and pass through the number buffer on their way out.
-/

namespace ThreadedForth.OutputWord

open WordM

def printNumber (text : String) : WordM Unit := do
  let bytes := Utf8.encode text
  if Layout.numberBufferSize < bytes.length then throw .outOfRange
  onMemory (Memory.writeBytes Layout.numberBuffer bytes)
  print (← readBytes Layout.numberBuffer bytes.length)
  print [32]

def printStack : WordM Unit := do
  let base ← ask Machine.base
  let items ← ask fun machine => machine.data.contents machine.memory
  let shown := items.map fun item => Number.signed base item.toInt ++ " "
  printText ("[ " ++ String.join shown ++ "] ")

def perform : OutputWord → WordM Unit
  | emit => do print [(← pop).toUInt32.toUInt8]
  | typeText => do
    let length ← popLength
    let address ← popAddress
    print (← readBytes address length)
  | cr => print [10]
  | dot => do
    let value ← pop
    printNumber (Number.signed (← ask Machine.base) value.toInt)
  | uDot => do
    let value ← pop
    printNumber (Number.unsigned (← ask Machine.base) value.toUInt32.toNat)
  | dDot => do
    let value ← popDouble
    printNumber (Number.signed (← ask Machine.base) value.toInt)
  | dotS => printStack
  | flush => pure ()

end ThreadedForth.OutputWord
