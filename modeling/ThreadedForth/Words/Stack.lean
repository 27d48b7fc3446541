import ThreadedForth.Machine.Basic

/-!
# Stack words
-/

namespace ThreadedForth.StackWord

open WordM

def swapItems : WordM Unit := do
  need 2
  let a ← pop
  let b ← pop
  push a
  push b

def copyOver : WordM Unit := do push (← top 1)

/-- Push copies of the items at depths `depth + 1` and `depth`. -/
def copyPair (depth : Nat) : WordM Unit := do
  let b ← top depth
  let a ← top (depth + 1)
  push a
  push b

def perform : StackWord → WordM Unit
  | dup => do push (← top 0)
  | drop => discard pop
  | swap => swapItems
  | over_ => copyOver
  | rot => rollUp 2
  | minusRot => do rollUp 2; rollUp 2
  | nip => do swapItems; discard pop
  | tuck => do swapItems; copyOver
  | questionDup => do
    let value ← top 0
    if value ≠ 0 then push value
  | pick => do push (← top (← popLength))
  | roll => do rollUp (← popLength)
  | depth => do pushNat (← ask fun machine => .ok machine.data.depth)
  | twoDup => copyPair 0
  | twoDrop => do need 2; discard pop; discard pop
  | twoSwap => do need 4; rollUp 3; rollUp 3
  | twoOver => copyPair 2
  | toR => do pushReturn (← pop)
  | rFrom => do push (← popReturn)
  | rFetch => do push (← topReturn 0)
  | twoToR => do
    need 2
    let b ← pop
    let a ← pop
    pushReturn a
    pushReturn b
  | twoRFrom => do
    needReturn 2
    let b ← popReturn
    let a ← popReturn
    push a
    push b
  | twoRFetch => do
    let b ← topReturn 0
    let a ← topReturn 1
    push a
    push b
  | loopIndex => do push (← topReturn 0)
  | outerIndex => do push (← topReturn 2)
  | clear => update fun machine => { machine with data := machine.data.clear }

end ThreadedForth.StackWord
