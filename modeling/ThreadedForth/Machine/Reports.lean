import ThreadedForth.Machine.Basic
import ThreadedForth.Text.Quoted

/-!
# Reports

What the machine tells its user besides what programs print: faults, names that are redefined, and
files that are loaded or that fail.
-/

namespace ThreadedForth.WordM

def reportTaken (name : String) : WordM Unit :=
  report ("Warning: unique?: Overwriting existing definition: " ++ Quoted.encode name)

/-- A file is about to be read. Only a verbose machine says so. -/
def reportLoading (path : String) : WordM Unit := do
  if ← ask fun machine => .ok machine.verbose then
    report ("Info: include: loading: " ++ Quoted.encode path)

def reportFailed (reader : Reader) (fault : Fault) : WordM Unit :=
  report ("Error: include: " ++ reader.name ++ " line " ++ toString reader.line ++ ": " ++
    Quoted.encode fault.message)

def reportFault (fault : Fault) : WordM Unit :=
  report ("Error " ++ toString fault.code ++ ": " ++ fault.message)

end ThreadedForth.WordM
