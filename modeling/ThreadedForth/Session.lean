import ThreadedForth.Interpreter
import ThreadedForth.Prelude

/-!
# Sessions

A machine is started, given lines, texts and files to interpret, and brought back to a clean state
after a fault. At the console faults are reported and the session goes on.
-/

namespace ThreadedForth

/-- Do `action`. A fault is the answer, and running out of fuel still halts. -/
@[inline] def RunM.attempt (action : RunM Unit) : RunM (Option Fault) := fun machine =>
  match action machine with
  | .ok _ machine => .ok none machine
  | .error (.fault cause) machine => .ok (some cause) machine
  | .error .outOfFuel machine => .error .outOfFuel machine

namespace Machine

/-- The machine ready for the next line: stacks empty, interpreting, nested input abandoned. The
dictionary stays as it is, and so does a definition that was never closed. -/
def recover (machine : Machine) : Machine :=
  { machine with
    memory := (machine.memory.setCell Layout.toIn 0).setCell Layout.state 0
    data := machine.data.clear
    returns := machine.returns.clear
    control := machine.control.clear
    ip := 0
    source := idleSource
    suspended := []
    readers := machine.readers.getLast?.toList }

end Machine

namespace Session

open WordM

def interpretLine (fuel : Nat) (line : String) : RunM Unit :=
  Interpreter.interpretLine (Interpreter.serve fuel) fuel line

/-- Interpret a text line by line. The first fault ends it. -/
def interpretText (fuel : Nat) (text : String) : RunM Unit :=
  (Lines.ofText text).forM (interpretLine fuel)

def loadFile (fuel : Nat) (path : String) : RunM Unit :=
  Interpreter.loadFile (Interpreter.serve fuel) fuel path

/-! ### Starting -/

def installPrimitive (prim : Prim) : WordM Unit :=
  discard (onDictionary fun dictionary =>
    dictionary.create prim.name prim.entry.flags (Code.prim prim).toCell)

def start (fuel : Nat) (withPrelude : Bool) : RunM Unit := do
  Prim.all.forM fun prim => (installPrimitive prim : RunM Unit)
  setCompiling false
  if withPrelude then interpretText fuel preludeText

/-! ### Console -/

def reportAndRecover (fault : Fault) : WordM Unit := do
  reportFault fault
  update Machine.recover

/-- Do `action`, and report the fault it may end in. -/
def reporting (action : RunM Unit) : RunM Unit := do
  match ← RunM.attempt action with
  | some fault => reportAndRecover fault
  | none => pure ()

/-- Interpret one line of the console. After a line without fault the stack is shown, if the user
wants to see it and it can be shown. -/
def interpretConsoleLine (fuel : Nat) (line : String) : RunM Unit := do
  match ← RunM.attempt (interpretLine fuel line) with
  | some fault => reportAndRecover fault
  | none => if (← get).showStack then discard (RunM.attempt OutputWord.printStack.run)

/-- Interpret the lines of the console until they end, one of them cannot be read, or the program
asks to end. -/
def interpretConsoleLines (fuel : Nat) : List (Except DiskFault String) → RunM Unit
  | [] => pure ()
  | line :: lines => do
    if (← get).exiting then return ()
    match line with
    | .error cause => reportAndRecover (.io cause.message)
    | .ok line =>
      Interpreter.countLine
      interpretConsoleLine fuel line
      interpretConsoleLines fuel lines

def interpretConsole (fuel : Nat) (name : String) (lines : List (Except DiskFault String)) :
    RunM Unit := do
  update fun machine => { machine with readers := [⟨name, 0⟩] }
  interpretConsoleLines fuel lines

def interpretConsoleFile (fuel : Nat) (path : String) : RunM Unit := do
  let file ← Interpreter.openFile path
  interpretConsole fuel path file.lines

end Session

end ThreadedForth
