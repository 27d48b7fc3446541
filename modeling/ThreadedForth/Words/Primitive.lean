import ThreadedForth.Words.Control
import ThreadedForth.Words.Diagnostic
import ThreadedForth.Words.Input
import ThreadedForth.Words.Memory
import ThreadedForth.Words.Output
import ThreadedForth.Words.Stack
import ThreadedForth.Words.Thread

/-!
# Running a primitive
-/

namespace ThreadedForth

/-- A word that leaves nothing to the interpreter. -/
def WordM.complete (action : WordM Unit) : WordM (Option Request) := do
  action
  return none

/-- The action of a primitive, and what it asks the interpreter to run. -/
def Prim.perform : Prim → WordM (Option Request)
  | thread word => word.perform
  | stack word => WordM.complete word.perform
  | cell word => WordM.complete word.perform
  | double word => WordM.complete word.perform
  | memory word => WordM.complete word.perform
  | defining word => WordM.complete word.perform
  | control word => WordM.complete word.perform
  | input word => word.perform
  | output word => WordM.complete word.perform
  | diagnostic word => WordM.complete word.perform

end ThreadedForth
