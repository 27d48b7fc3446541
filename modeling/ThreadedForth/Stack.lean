import ThreadedForth.Memory

/-!
# Stacks

A stack lives in a region of memory and grows downward from its base. The three addresses are all
that is kept outside memory; the items are the cells from `top` up to `base`.
-/

namespace ThreadedForth

structure Stack where
  kind : StackKind
  limit : Nat
  /-- One past the bottom item. -/
  base : Nat
  /-- Address of the top item; the base when the stack is empty. -/
  top : Nat
  deriving Repr

namespace Stack

def new (kind : StackKind) (start cells : Nat) : Stack where
  kind
  limit := start
  base := start + cells * 4
  top := start + cells * 4

def capacity (stack : Stack) : Nat := (stack.base - stack.limit) / 4

def depth (stack : Stack) : Nat := (stack.base - stack.top) / 4

def clear (stack : Stack) : Stack := { stack with top := stack.base }

def check (stack : Stack) (needed : Nat) : Except Fault Unit :=
  if stack.depth < needed then .error (.stackUnderflow stack.kind) else .ok ()

def push (stack : Stack) (value : Cell) : MemoryM Stack :=
  if stack.top - stack.limit < 4 then throw (.stackOverflow stack.kind)
  else do
    Memory.writeCell (stack.top - 4) value
    return { stack with top := stack.top - 4 }

def pop (stack : Stack) (memory : Memory) : Except Fault (Cell × Stack) :=
  if stack.base ≤ stack.top then .error (.stackUnderflow stack.kind)
  else do
    let value ← memory.readCell stack.top
    return (value, { stack with top := stack.top + 4 })

def peek (stack : Stack) (memory : Memory) (depth : Nat) : Except Fault Cell := do
  stack.check (depth + 1)
  memory.readCell (stack.top + depth * 4)

def poke (stack : Stack) (depth : Nat) (value : Cell) : MemoryM Unit := fun memory =>
  match stack.check (depth + 1) with
  | .ok _ => Memory.writeCell (stack.top + depth * 4) value memory
  | .error fault => .error fault memory

/-- Move the `count` items above the one at depth `count` one place deeper, deepest first. -/
def sink (top : Nat) : Nat → MemoryM Unit
  | 0 => pure ()
  | count + 1 => fun memory =>
    match memory.readCell (top + count * 4) with
    | .ok value =>
      match Memory.writeCell (top + (count + 1) * 4) value memory with
      | .ok _ memory => sink top count memory
      | .error fault memory => .error fault memory
    | .error fault => .error fault memory

/-- Bring the item at `depth` to the top; those above it sink one place. -/
def roll (stack : Stack) (depth : Nat) : MemoryM Unit := fun memory =>
  if depth = 0 then .ok () memory
  else
    match stack.peek memory depth with
    | .ok value => (do sink stack.top depth; Memory.writeCell stack.top value) memory
    | .error fault => .error fault memory

/-- Push the low cell, then the high one. Room for both is checked first. -/
def pushDouble (stack : Stack) (value : DoubleCell) : MemoryM Stack :=
  if stack.top - stack.limit < 8 then throw (.stackOverflow stack.kind)
  else do
    let stack ← stack.push (DoubleCell.low value)
    stack.push (DoubleCell.high value)

def popDouble (stack : Stack) (memory : Memory) : Except Fault (DoubleCell × Stack) := do
  stack.check 2
  let (high, stack) ← stack.pop memory
  let (low, stack) ← stack.pop memory
  return (DoubleCell.join low high, stack)

def contents (stack : Stack) (memory : Memory) : Except Fault (List Cell) :=
  (List.range stack.depth).reverse.mapM (stack.peek memory)

end Stack

end ThreadedForth
