import ThreadedForth.Cell
import ThreadedForth.Fault
import ThreadedForth.Text.Utf8

/-!
# Memory

A flat run of bytes, a whole number of cells long. Bytes, cells, doubles and ranges all alias the
same bytes. Every access is checked first: its range must lie inside memory, and a cell or double
must start on a cell boundary. An access that fails changes nothing.

Regions are handed out from both ends: `low` is the first free byte above the regions taken from
the bottom, `high` the lowest byte of the regions taken from the top.
-/

namespace ThreadedForth

structure Memory where
  bytes : Array UInt8
  low : Nat
  high : Nat

/-- A step that may change memory or fail. A step that fails still says what memory is left. -/
abbrev MemoryM := EStateM Fault Memory

namespace Memory

/-- Memory of `size` zero bytes, rounded down to whole cells, with no region handed out. -/
def ofSize (size : Nat) : Memory where
  bytes := Array.replicate (size / 4 * 4) 0
  low := 0
  high := size / 4 * 4

def size (memory : Memory) : Nat := memory.bytes.size

/-! ### Checks -/

def address (memory : Memory) (value : Cell) : Except Fault Nat :=
  if value < 0 ∨ memory.size ≤ value.toNatClampNeg then .error (.invalidAddress value.toInt)
  else .ok value.toNatClampNeg

/-- The `length` bytes at `address` lie inside memory. -/
@[inline] def check (memory : Memory) (address length : Nat) : Except Fault Unit :=
  if address + length ≤ memory.size then .ok () else .error (.invalidAddress (signedAddress address))

/-- As `check`, and then that the range starts on a cell boundary. -/
@[inline] def checkAligned (memory : Memory) (address length : Nat) : Except Fault Unit := do
  memory.check address length
  if address % 4 ≠ 0 then throw (.misalignedAddress (signedAddress address))

/-! ### Unchecked contents -/

/-- The byte at `address`, and zero outside memory. -/
def byteAt (memory : Memory) (address : Nat) : UInt8 := memory.bytes.getD address 0

/-- The cell at `address`, lowest byte first. -/
def cellAt (memory : Memory) (address : Nat) : Cell :=
  Cell.ofBytes (memory.byteAt address) (memory.byteAt (address + 1)) (memory.byteAt (address + 2))
    (memory.byteAt (address + 3))

/-- The `length` bytes from `address` on, as far as they lie inside memory. -/
def bytesAt (memory : Memory) (address length : Nat) : List UInt8 :=
  (memory.bytes.extract address (address + length)).toList

def setByte (memory : Memory) (address : Nat) (value : UInt8) : Memory :=
  { memory with bytes := memory.bytes.setIfInBounds address value }

def setCell (memory : Memory) (address : Nat) (value : Cell) : Memory :=
  (((memory.setByte address (Cell.byte value 0)).setByte (address + 1) (Cell.byte value 1)).setByte
    (address + 2) (Cell.byte value 2)).setByte (address + 3) (Cell.byte value 3)

def setBytes (memory : Memory) (address : Nat) : List UInt8 → Memory
  | [] => memory
  | value :: rest => (memory.setByte address value).setBytes (address + 1) rest

@[simp] theorem size_setByte (memory : Memory) (address : Nat) (value : UInt8) :
    (memory.setByte address value).size = memory.size := by
  simp [size, setByte]

@[simp] theorem size_setCell (memory : Memory) (address : Nat) (value : Cell) :
    (memory.setCell address value).size = memory.size := by
  simp [setCell]

@[simp] theorem size_setBytes (memory : Memory) (address : Nat) (values : List UInt8) :
    (memory.setBytes address values).size = memory.size := by
  induction values generalizing memory address with
  | nil => rfl
  | cons value rest ih => simp [setBytes, ih]

theorem byteAt_setByte (memory : Memory) (address other : Nat) (value : UInt8)
    (haddress : address < memory.size) :
    (memory.setByte address value).byteAt other =
      if other = address then value else memory.byteAt other := by
  have hsize : address < memory.bytes.size := haddress
  by_cases hother : other = address
  · subst hother
    simp [byteAt, setByte, hsize]
  · have hne : ¬ address = other := fun heq => hother heq.symm
    simp [byteAt, setByte, hother, hne]

/-! ### Scanning -/

/-- The address at which a run of bytes that pass `test` ends, from `address` on and within the next
`limit` bytes. -/
@[specialize] def endOfRun (memory : Memory) (test : UInt8 → Bool) (address : Nat) : Nat → Nat
  | 0 => address
  | limit + 1 =>
    if test (memory.byteAt address) then memory.endOfRun test (address + 1) limit else address

/-- The bytes from `address` on, each taken through `view`, are those of the list. -/
@[specialize] def agrees (memory : Memory) (view : UInt8 → UInt8) (address : Nat) :
    List UInt8 → Bool
  | [] => true
  | byte :: rest => view (memory.byteAt address) == byte && memory.agrees view (address + 1) rest

theorem bytesAt_succ (memory : Memory) (address limit : Nat) (haddress : address < memory.size) :
    memory.bytesAt address (limit + 1) =
      memory.byteAt address :: memory.bytesAt (address + 1) limit := by
  have hsize : address < memory.bytes.size := haddress
  have hsum : address + 1 + limit - (address + 1) = limit := by omega
  have hlength : address < memory.bytes.toList.length := by simpa using hsize
  simp [bytesAt, byteAt, List.extract_eq_take_drop, hsize, hsum, List.drop_eq_getElem_cons hlength]

theorem endOfRun_eq (memory : Memory) (test : UInt8 → Bool) (address limit : Nat)
    (hrange : address + limit ≤ memory.size) :
    memory.endOfRun test address limit =
      address + ((memory.bytesAt address limit).takeWhile test).length := by
  induction limit generalizing address with
  | zero => simp [endOfRun, bytesAt]
  | succ limit ih =>
    rw [endOfRun, bytesAt_succ memory address limit (by omega), List.takeWhile_cons]
    by_cases htest : test (memory.byteAt address)
    · rw [if_pos htest, if_pos htest, ih (address + 1) (by omega), List.length_cons]
      omega
    · rw [if_neg htest, if_neg htest]
      rfl

theorem agrees_eq (memory : Memory) (view : UInt8 → UInt8) (address : Nat) (bytes : List UInt8)
    (hrange : address + bytes.length ≤ memory.size) :
    memory.agrees view address bytes =
      ((memory.bytesAt address bytes.length).map view == bytes) := by
  induction bytes generalizing address with
  | nil => simp [agrees, bytesAt]
  | cons byte rest ih =>
    rw [List.length_cons] at hrange
    rw [agrees, ih (address + 1) (by omega), List.length_cons,
      bytesAt_succ memory address rest.length (by omega), List.map_cons, List.cons_beq_cons]

/-! ### Reading -/

@[inline] def readCell (memory : Memory) (address : Nat) : Except Fault Cell := do
  memory.checkAligned address 4
  return memory.cellAt address

@[inline] def readByte (memory : Memory) (address : Nat) : Except Fault UInt8 := do
  memory.check address 1
  return memory.byteAt address

/-- A double is stored with its high cell first. -/
def readDouble (memory : Memory) (address : Nat) : Except Fault DoubleCell := do
  memory.checkAligned address 8
  return DoubleCell.join (memory.cellAt (address + 4)) (memory.cellAt address)

def readBytes (memory : Memory) (address length : Nat) : Except Fault (List UInt8) := do
  memory.check address length
  return memory.bytesAt address length

def readText (memory : Memory) (address length : Nat) : Except Fault String := do
  return Utf8.decodeLossy (← memory.readBytes address length)

/-- The text of a counted string: a length byte, then the characters. -/
def readCounted (memory : Memory) (address : Nat) : Except Fault String := do
  let length ← memory.readByte address
  memory.readText (address + 1) length.toNat

/-! ### Writing -/

/-- Change memory by `change` if `test` passes on it. -/
@[inline] def guarded (test : Memory → Except Fault Unit) (change : Memory → Memory) :
    MemoryM Unit := fun memory =>
  match test memory with
  | .ok _ => .ok () (change memory)
  | .error fault => .error fault memory

def writeCell (address : Nat) (value : Cell) : MemoryM Unit :=
  guarded (·.checkAligned address 4) (·.setCell address value)

def writeByte (address : Nat) (value : UInt8) : MemoryM Unit :=
  guarded (·.check address 1) (·.setByte address value)

/-- Both cells of a double are checked before either is written. -/
def writeDouble (address : Nat) (value : DoubleCell) : MemoryM Unit :=
  guarded (·.checkAligned address 8) fun memory =>
    (memory.setCell address (DoubleCell.high value)).setCell (address + 4) (DoubleCell.low value)

def addToCell (address : Nat) (amount : Cell) : MemoryM Unit :=
  guarded (·.checkAligned address 4) fun memory =>
    memory.setCell address (memory.cellAt address + amount)

def writeBytes (address : Nat) (values : List UInt8) : MemoryM Unit :=
  guarded (·.check address values.length) (·.setBytes address values)

def fill (address length : Nat) (value : UInt8) : MemoryM Unit :=
  guarded (·.check address length) (·.setBytes address (List.replicate length value))

def erase (address length : Nat) : MemoryM Unit := fill address length 0

/-- Copy `length` bytes. The ranges may overlap: the bytes stored are those that stood at `source`
before the copy. -/
def move (source target length : Nat) : MemoryM Unit :=
  guarded (fun memory => do memory.check source length; memory.check target length) fun memory =>
    let values := memory.bytesAt source length
    memory.setBytes target values

/-! ### Regions -/

/-- Take a region of `size` bytes, rounded up to cells, from the bottom. -/
def allotLow (size : Nat) : MemoryM Nat := fun memory =>
  if memory.high - memory.low < aligned size then .error .memoryOverflow memory
  else
    let start := memory.low
    .ok start { memory with low := start + aligned size }

/-- Take a region of `size` bytes, rounded up to cells, from the top. -/
def allotHigh (size : Nat) : MemoryM Nat := fun memory =>
  if memory.high - memory.low < aligned size then .error .memoryOverflow memory
  else
    let start := memory.high - aligned size
    .ok start { memory with high := start }

def freeRegion (memory : Memory) : Nat × Nat := (memory.low, memory.high)

end Memory

end ThreadedForth
