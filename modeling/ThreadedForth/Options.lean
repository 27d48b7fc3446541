/-!
# Command line

Options may be mixed in any order. `-f` and `-e` take the argument that follows, whatever it looks
like. There are no arguments without an option, so after `--` nothing is left to accept.
-/

namespace ThreadedForth

structure Options where
  files : List String := []
  noPrelude : Bool := false
  line : Option String := none
  batch : Bool := false
  verbose : Bool := false
  deriving DecidableEq, Repr

namespace Options

def programName : String := "forthvm"

def helpText : String :=
"Usage: forthvm [-f <file...>] [-n] [-e <eval>] [-b] [-v]

command line arguments for forthvm.

Options:
  -f, --file        load a source file at startup (may be repeated).
  -n, --no-core     skip loading the Forth prelude.
  -e, --eval        interpret a line of Forth after loading files.
  -b, --batch       exit after loading instead of reading from the console.
  -v, --verbose     log at debug level unless RUST_LOG says otherwise.
  --help, help      display usage information
"

inductive Refusal where
  | help
  | afterHelp
  | unrecognized (argument : String)
  | noValue (option : String)
  | duplicate (option value : String)
  deriving DecidableEq, Repr

namespace Refusal

def message : Refusal → String
  | help => helpText
  | afterHelp => "Trailing arguments are not allowed after `help`."
  | unrecognized argument => "Unrecognized argument: " ++ argument ++ "\n"
  | noValue option => "No value provided for option '" ++ option ++ "'.\n"
  | duplicate option value =>
    "Error parsing option '" ++ option ++ "' with value '" ++ value ++
      "': duplicate values provided\n"

/-- The user asked for help, and nothing is wrong. -/
def isHelp (refusal : Refusal) : Bool := refusal == .help

end Refusal

/-- Set the line to interpret, which may be given once. -/
def setLine (options : Options) (option value : String) : Except Refusal Options :=
  match options.line with
  | none => .ok { options with line := some value }
  | some _ => .error (.duplicate option value)

/-- Take arguments one by one. `asked` says that help was asked for, `ended` that no more options
are taken. -/
def parseFrom (options : Options) (asked ended : Bool) : List String → Except Refusal Options
  | [] => if asked then .error .help else .ok options
  | argument :: rest =>
    if !ended ∧ (argument = "--help" ∨ argument = "help") then parseFrom options true ended rest
    else if ended ∨ !argument.startsWith "-" then .error (.unrecognized argument)
    else if argument = "--" then parseFrom options asked true rest
    else if asked then .error .afterHelp
    else if argument = "-n" ∨ argument = "--no-core" then
      parseFrom { options with noPrelude := true } asked ended rest
    else if argument = "-b" ∨ argument = "--batch" then
      parseFrom { options with batch := true } asked ended rest
    else if argument = "-v" ∨ argument = "--verbose" then
      parseFrom { options with verbose := true } asked ended rest
    else if argument = "-f" ∨ argument = "--file" then
      match rest with
      | [] => .error (.noValue argument)
      | value :: rest =>
        parseFrom { options with files := options.files ++ [value] } asked ended rest
    else if argument = "-e" ∨ argument = "--eval" then
      match rest with
      | [] => .error (.noValue argument)
      | value :: rest => do parseFrom (← options.setLine argument value) asked ended rest
    else .error (.unrecognized argument)

def parse (arguments : List String) : Except Refusal Options := parseFrom {} false false arguments

/-- What is logged when the environment does not say. -/
def logFilter (options : Options) : String := if options.verbose then "forthvm=debug" else "warn"

end Options

end ThreadedForth
