import ThreadedForth.Options
import ThreadedForth.Session

/-!
# The program

A run of the program: read the options, start a machine, load the files, interpret the line given,
then read the console. Faults are reported and do not end the run.
-/

namespace ThreadedForth

structure Transcript where
  output : Array UInt8
  errors : String
  status : Nat

namespace Application

/-- How a run stands before the console is read: it never began, it is over, or the machine waits for
the console. -/
inductive Started where
  | refused (transcript : Transcript)
  | finished (machine : Machine)
  | waiting (machine : Machine)

def Started.machine : Started → Option Machine
  | refused _ => none
  | finished machine => some machine
  | waiting machine => some machine

def transcript (machine : Machine) : Transcript where
  output := machine.output
  errors := String.join (machine.reports.toList.map (· ++ "\n"))
  status := 0

/-- What the user sees when the arguments do not lead to a run. -/
def refusedTranscript (refusal : Options.Refusal) : Transcript :=
  if refusal.isHelp then ⟨(Utf8.encode (refusal.message ++ "\n")).toArray, "", 0⟩
  else
    let advice := "\nRun " ++ Options.programName ++ " --help for more information.\n"
    ⟨#[], refusal.message ++ advice, 1⟩

def prepare (fuel : Nat) (options : Options) : RunM Unit := do
  Session.start fuel (!options.noPrelude)
  options.files.forM fun path => Session.reporting (Session.loadFile fuel path)
  match options.line with
  | some line => Session.reporting (Session.interpretLine fuel line)
  | none => pure ()

/-- The machine after a run, however it ended. -/
def machineAfter (action : RunM Unit) (machine : Machine) : Machine :=
  match action machine with
  | .ok _ machine => machine
  | .error _ machine => machine

/-- Everything up to the console. -/
def start (fuel : Nat) (arguments : List String) (disk : Disk) : Started :=
  match Options.parse arguments with
  | .error refusal => .refused (refusedTranscript refusal)
  | .ok options =>
    let machine := machineAfter (prepare fuel options) (Machine.new disk options.verbose)
    if options.batch ∨ machine.exiting then .finished machine else .waiting machine

def readConsole (fuel : Nat) (input : List UInt8) (machine : Machine) : Machine :=
  machineAfter (Session.interpretConsole fuel "stdin" (DiskFile.regular input).lines) machine

def run (fuel : Nat) (arguments : List String) (input : List UInt8) (disk : Disk) : Transcript :=
  match start fuel arguments disk with
  | .refused transcript => transcript
  | .finished machine => transcript machine
  | .waiting machine => transcript (readConsole fuel input machine)

end Application

end ThreadedForth
