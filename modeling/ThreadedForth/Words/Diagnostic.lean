import ThreadedForth.Machine.Decompile
import ThreadedForth.Words.Defining

/-!
# Diagnostic words
-/

namespace ThreadedForth.DiagnosticWord

open WordM

def perform : DiagnosticWord → WordM Unit
  | see => do
    let header ← DefiningWord.requireWord
    printText (← ask (·.describe header))
    print [10]
  | words => do
    let names ← ask Machine.visibleNames
    printText (" ".intercalate names)
    print [10]
  | showStack => update fun machine => { machine with showStack := true }
  | hideStack => update fun machine => { machine with showStack := false }
  | traceOn => update fun machine => { machine with tracing := true }
  | traceOff => update fun machine => { machine with tracing := false }

end ThreadedForth.DiagnosticWord
