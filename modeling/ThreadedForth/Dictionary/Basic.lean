import ThreadedForth.Dictionary.Header
import ThreadedForth.Memory

/-!
# The dictionary

The dictionary fills a region of memory from both ends. `here` moves up with headers and compiled
code, `names` moves down with the counted names. Headers form a chain from the newest, `latest`, to
the oldest, whose link is zero.
-/

namespace ThreadedForth

structure Dictionary where
  /-- Lowest address of the region. -/
  start : Nat
  /-- First free byte for headers and code. -/
  here : Nat
  /-- Lowest byte used by names. -/
  names : Nat
  /-- Address of the newest header, or zero. -/
  latest : Nat
  deriving DecidableEq, Repr

namespace Dictionary

def maxNameLength : Nat := 255

/-- An empty dictionary over the region from `start` up to `finish`. -/
def new (start finish : Nat) : Dictionary where
  start := aligned start
  here := aligned start
  names := finish
  latest := 0

def unused (dictionary : Dictionary) : Nat := dictionary.names - dictionary.here

/-! ### Adding words -/

/-- Lay down a header and its name. The answer is the new word's execution token. -/
def enter (dictionary : Dictionary) (name : List UInt8) (flags code : Cell) :
    MemoryM (Nat × Dictionary) :=
  let header := aligned dictionary.here
  let nameAddress := dictionary.names - (name.length + 1)
  if maxNameLength < name.length then throw (.nameTooLong (Utf8.decodeLossy name))
  else if dictionary.names < name.length + 1 then throw .dictionaryOverflow
  else if nameAddress ≤ header + Header.size then throw .dictionaryOverflow
  else do
    Memory.writeByte nameAddress (UInt8.ofNat name.length)
    Memory.writeBytes (nameAddress + 1) name
    Memory.writeCell (Header.linkField header) (Cell.ofNat dictionary.latest)
    Memory.writeCell (Header.nameField header) (Cell.ofNat nameAddress)
    Memory.writeCell (Header.flagsField header) flags
    Memory.writeCell (Header.doesField header) 0
    Memory.writeCell (Header.token header) code
    return (Header.token header,
      { dictionary with here := header + Header.size, names := nameAddress, latest := header })

def create (dictionary : Dictionary) (name : String) (flags code : Cell) :
    MemoryM (Nat × Dictionary) :=
  if name.isEmpty then throw .emptyName
  else dictionary.enter (Utf8.encode name) flags code

/-- Create a word with no name, which cannot be found. -/
def createNameless (dictionary : Dictionary) (code : Cell) : MemoryM (Nat × Dictionary) :=
  dictionary.enter [] Header.hidden code

/-! ### Searching

A chain with more headers than memory has cells comes back to one it has passed, so a search that
has made that many steps has seen all there is. -/

/-- Fold over the chain from `header` on, newest first, until `visit` gives an answer. -/
@[specialize] def searchFrom {α : Type} (memory : Memory) (visit : Nat → Except Fault (Option α)) :
    Nat → Nat → Except Fault (Option α)
  | 0, _ => .ok none
  | steps + 1, header =>
    if header = 0 then .ok none
    else do
      match ← visit header with
      | some answer => return some answer
      | none =>
        let link ← memory.readCell (Header.linkField header)
        searchFrom memory visit steps (Cell.toAddress link)

@[inline] def search {α : Type} (dictionary : Dictionary) (memory : Memory)
    (visit : Nat → Except Fault (Option α)) : Except Fault (Option α) :=
  searchFrom memory visit memory.size dictionary.latest

/-- Fold a letter of ASCII to lower case. -/
def foldCase (byte : UInt8) : UInt8 := if 65 ≤ byte ∧ byte ≤ 90 then byte + 32 else byte

/-- The word at `header` can be found under `name`, given as `length` bytes in lower case. -/
@[inline] def answersTo (memory : Memory) (name : List UInt8) (length header : Nat) :
    Except Fault Bool := do
  let flags ← memory.readCell (Header.flagsField header)
  if Header.lacks flags (Header.hidden ||| Header.smudged) then
    let nameAddress := Cell.toAddress (← memory.readCell (Header.nameField header))
    let nameLength ← memory.readByte nameAddress
    if nameLength.toNat = length then
      memory.check (nameAddress + 1) length
      return memory.agrees foldCase (nameAddress + 1) name
    else return false
  else return false

/-- The newest visible word called `name`, in any case. -/
def find? (dictionary : Dictionary) (memory : Memory) (name : String) : Except Fault (Option Nat) :=
  let name := (Utf8.encode name).map foldCase
  let length := name.length
  dictionary.search memory fun header => do
    return if ← answersTo memory name length header then some header else none

/-- `token` is the execution token of a word in the chain. -/
def containsToken (dictionary : Dictionary) (memory : Memory) (token : Nat) : Except Fault Bool := do
  let found ← dictionary.search memory fun header =>
    return if Header.token header = token then some () else none
  return found.isSome

/-- The headers of the chain from `header` on, newest first. -/
def chainFrom (memory : Memory) : Nat → Nat → Array Nat → Except Fault (Array Nat)
  | 0, _, headers => .ok headers
  | steps + 1, header, headers =>
    if header = 0 then .ok headers
    else do
      let link ← memory.readCell (Header.linkField header)
      chainFrom memory steps (Cell.toAddress link) (headers.push header)

def headers (dictionary : Dictionary) (memory : Memory) : Except Fault (List Nat) := do
  return (← chainFrom memory memory.size dictionary.latest #[]).toList

def header (memory : Memory) (address : Nat) : Except Fault Header := do
  let nameAddress := Cell.toAddress (← memory.readCell (Header.nameField address))
  let link := Cell.toAddress (← memory.readCell (Header.linkField address))
  let name ← memory.readCounted nameAddress
  let flags ← memory.readCell (Header.flagsField address)
  let does := Cell.toAddress (← memory.readCell (Header.doesField address))
  let code ← memory.readCell (Header.token address)
  return { address, link, name, flags, does, code }

/-! ### Changing words -/

def setFlag (header : Nat) (flag : Cell) : MemoryM Unit := fun memory =>
  match memory.readCell (Header.flagsField header) with
  | .ok flags => Memory.writeCell (Header.flagsField header) (flags ||| flag) memory
  | .error fault => .error fault memory

def clearFlag (header : Nat) (flag : Cell) : MemoryM Unit := fun memory =>
  match memory.readCell (Header.flagsField header) with
  | .ok flags => Memory.writeCell (Header.flagsField header) (flags &&& ~~~flag) memory
  | .error fault => .error fault memory

/-- Give a word new run-time behaviour: the code cell, then the address it runs. -/
def setDoes (header : Nat) (code : Cell) (does : Nat) : MemoryM Unit := do
  Memory.writeCell (Header.token header) code
  Memory.writeCell (Header.doesField header) (Cell.ofNat does)

/-! ### Adding data -/

def comma (dictionary : Dictionary) (value : Cell) : MemoryM Dictionary :=
  if dictionary.names < dictionary.here + 4 then throw .dictionaryOverflow
  else do
    Memory.writeCell dictionary.here value
    return { dictionary with here := dictionary.here + 4 }

def commaByte (dictionary : Dictionary) (value : UInt8) : MemoryM Dictionary :=
  if dictionary.names < dictionary.here + 1 then throw .dictionaryOverflow
  else do
    Memory.writeByte dictionary.here value
    return { dictionary with here := dictionary.here + 1 }

def align (dictionary : Dictionary) : Except Fault Dictionary :=
  if dictionary.names < aligned dictionary.here then .error .dictionaryOverflow
  else .ok { dictionary with here := aligned dictionary.here }

/-- Move `here` by some bytes, up or down, inside the dictionary. -/
def allot (dictionary : Dictionary) (amount : Cell) : Except Fault Dictionary :=
  let here := (dictionary.here : Int) + amount.toInt
  if here < dictionary.start ∨ (dictionary.names : Int) < here then .error .dictionaryOverflow
  else .ok { dictionary with here := here.toNat }

end Dictionary

end ThreadedForth
