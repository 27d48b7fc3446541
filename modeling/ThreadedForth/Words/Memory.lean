import ThreadedForth.Words.Arithmetic

/-!
# Memory words
-/

namespace ThreadedForth.MemoryWord

open WordM

def perform : MemoryWord → WordM Unit
  | fetch => do push (← readCell (← popAddress))
  | store => do
    need 2
    let address ← popAddress
    let value ← pop
    writeCell address value
  | fetchByte => do
    let address ← popAddress
    pushNat (← ask (·.memory.readByte address)).toNat
  | storeByte => do
    need 2
    let address ← popAddress
    let value ← pop
    onMemory (Memory.writeByte address value.toUInt32.toUInt8)
  | plusStore => do
    need 2
    let address ← popAddress
    let amount ← pop
    onMemory (Memory.addToCell address amount)
  | twoFetch => do
    let address ← popAddress
    pushDouble (← ask (·.memory.readDouble address))
  | twoStore => do
    need 3
    let address ← popAddress
    let value ← popDouble
    onMemory (Memory.writeDouble address value)
  | cellPlus => CellWord.unary (· + 4)
  | cells => CellWord.unary (· * 4)
  | charPlus => CellWord.unary (· + 1)
  | chars => CellWord.unary id
  | aligned => do pushNat (ThreadedForth.aligned (← popLength))
  | fill => do
    need 3
    let value ← pop
    let length ← popLength
    let address ← popAddress
    onMemory (Memory.fill address length value.toUInt32.toUInt8)
  | erase => do
    need 2
    let length ← popLength
    let address ← popAddress
    onMemory (Memory.erase address length)
  | move => do
    need 3
    let length ← popLength
    let target ← popAddress
    let source ← popAddress
    onMemory (Memory.move source target length)
  | count => do
    let address ← popAddress
    let length ← ask (·.memory.readByte address)
    pushNat (address + 1)
    pushNat length.toNat

end ThreadedForth.MemoryWord
