import ThreadedForth.Machine.Request

/-!
# Run-time words

The words a compiler lays down between the calls of a definition. They read the cells that follow
them in the thread and move the instruction pointer.
-/

namespace ThreadedForth.ThreadWord

open WordM

/-- Adding `step` to the index of a counted loop passes the limit. That is so when the difference
between the two changes sign, and when the index starts at or beyond the limit and moves away from
it. The differences are exact. -/
def loopDone (index limit step : Cell) : Bool :=
  let before := index.toInt - limit.toInt
  let after := before + step.toInt
  let crossed := decide (before < 0) != decide (after < 0)
  let away := (0 < step && decide (0 ≤ before)) || (step < 0 && decide (before < 0))
  crossed || away

def setIp (ip : Nat) : WordM Unit := update fun machine => { machine with ip }

def skipCell : WordM Unit := update fun machine => { machine with ip := machine.ip + 4 }

/-- Read the cell at the instruction pointer and step over it. -/
def inlineCell : WordM Cell := do
  let value ← ask fun machine => machine.memory.readCell machine.ip
  skipCell
  return value

/-- Jump by the offset in the cell at the instruction pointer, counted from that cell. -/
def jump : WordM Unit := do
  let target ← ask fun machine => do
    let offset ← machine.memory.readCell machine.ip
    let target := (machine.ip : Int) + offset.toInt
    if 0 ≤ target ∧ target < machine.memory.size then return target.toNat
    else throw (.invalidAddress target)
  setIp target

def returnToCaller : WordM Unit := do
  let ip ← popReturn
  setIp (← ask (·.memory.address ip))

def discardLoop : WordM Unit := do
  needReturn 2
  discard popReturn
  discard popReturn

/-- Start a counted loop, or pass over it if it may be skipped and would not run. -/
def startLoop (maySkip : Bool) : WordM Unit := do
  let index ← pop
  let limit ← pop
  if maySkip ∧ index = limit then jump
  else
    pushReturn limit
    pushReturn index
    skipCell

/-- Step the index of a loop, and go round again or leave. -/
def advanceLoop (step : Cell) : WordM Unit := do
  let index ← topReturn 0
  let limit ← topReturn 1
  if loopDone index limit step then
    discardLoop
    skipCell
  else
    pokeReturn 0 (index + step)
    jump

def perform : ThreadWord → WordM (Option Request)
  | exit => do returnToCaller; return none
  | lit => do push (← inlineCell); return none
  | twoLit => do
    let low ← inlineCell
    let high ← inlineCell
    pushDouble (DoubleCell.join low high)
    return none
  | textLit => do
    let length ← inlineCell
    let address ← ask fun machine => .ok machine.ip
    pushNat address
    push length
    setIp (aligned (address + length.toNatClampNeg))
    return none
  | branch => do jump; return none
  | zeroBranch => do
    if (← pop) = 0 then jump else skipCell
    return none
  | enterDo => do startLoop false; return none
  | enterQuestionDo => do startLoop true; return none
  | stepLoop => do advanceLoop 1; return none
  | stepPlusLoop => do advanceLoop (← pop); return none
  | unloop => do discardLoop; return none
  | testOf => do
    let candidate ← pop
    if (← top 0) = candidate then
      discard pop
      skipCell
    else jump
    return none
  | setDoes => do
    let ip ← ask fun machine => .ok machine.ip
    let latest ← ask fun machine => .ok machine.dictionary.latest
    onMemory (Dictionary.setDoes latest Code.does.toCell ip)
    returnToCaller
    return none
  | testAbort => do
    let length ← popLength
    let address ← popAddress
    if (← pop) ≠ 0 then throw (.abortedWith (← readText address length))
    return none
  | execute => do return some (.execute (← popAddress))

end ThreadedForth.ThreadWord
