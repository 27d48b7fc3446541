import ThreadedForth.Words.Primitive

/-!
# Interpreting

The inner interpreter runs threaded code: it fetches the token at the instruction pointer, steps
over it and does what the token's code cell says, until the pointer is zero. The outer interpreter
takes words from the source and executes them, compiles them, or reads them as numbers.

Programs need not end, so both take fuel, the number of rounds they may make. Running out of fuel is
kept apart from every fault of the program.
-/

namespace ThreadedForth

inductive Halt where
  | fault (cause : Fault)
  | outOfFuel
  deriving DecidableEq, Repr

abbrev RunM := EStateM Halt Machine

@[inline] def WordM.run {α : Type} (action : WordM α) : RunM α := fun machine =>
  match action machine with
  | .ok answer machine => .ok answer machine
  | .error fault machine => .error (.fault fault) machine

instance : MonadLift WordM RunM := ⟨WordM.run⟩

/-- Do `action`, then `cleanUp`, whether or not the action halted. A halt of the clean-up wins. -/
@[inline] def RunM.andAlways (action : RunM Unit) (cleanUp : Option Fault → RunM Unit) : RunM Unit :=
  fun machine =>
    match action machine with
    | .ok _ machine => cleanUp none machine
    | .error .outOfFuel machine => .error .outOfFuel machine
    | .error (.fault cause) machine =>
      match cleanUp (some cause) machine with
      | .ok _ machine => .error (.fault cause) machine
      | .error halt machine => .error halt machine

/-- How requests are served one level down. -/
abbrev Serve := Request → RunM Unit

namespace Interpreter

open WordM

/-! ### Inner interpreter -/

/-- Do what the word with this token does: one step of a thread. -/
def dispatch (serve : Serve) (token : Nat) : RunM Unit := do
  match Code.ofCell? (← readCell token) with
  | some .colon =>
    enter (Header.body token)
  | some .pushBody => pushNat (Header.body token)
  | some .pushCell => push (← readCell (Header.body token))
  | some .does =>
    pushNat (Header.body token)
    pushReturn (Cell.ofNat (← get).ip)
    let does ← readCell (Header.doesField (Header.ofToken token))
    ThreadWord.setIp (← ask (·.memory.address does))
  | some (.prim prim) =>
    match ← prim.perform with
    | some request => serve request
    | none => pure ()
  | none => throw (.fault (.invalidAddress (signedAddress token)))
where
  enter (address : Nat) : WordM Unit := do
    pushReturn (Cell.ofNat (← ask fun machine => .ok machine.ip))
    ThreadWord.setIp address

/-- Fetch the token at the instruction pointer and step over it. -/
def fetchToken : WordM Nat := do
  let cell ← ThreadWord.inlineCell
  ask (·.memory.address cell)

def runThread (serve : Serve) : Nat → RunM Unit
  | 0 => throw .outOfFuel
  | fuel + 1 => do
    if (← get).ip = 0 then return ()
    let token ← fetchToken
    dispatch serve token
    runThread serve fuel

/-- Run a word to its end. The instruction pointer is then what it was. -/
def execute (serve : Serve) (fuel token : Nat) : RunM Unit := fun machine =>
  let ip := machine.ip
  match (do dispatch serve token; runThread serve fuel : RunM Unit) { machine with ip := 0 } with
  | .ok _ machine => .ok () { machine with ip }
  | .error halt machine => .error halt { machine with ip }

/-! ### Outer interpreter -/

/-- Push a number, or append code that does. -/
def acceptNumber (compiling : Bool) : Number → WordM Unit
  | .single value => if compiling then compileCell value else push value
  | .double value => if compiling then compileDouble value else pushDouble value

/-- Read a word that is not in the dictionary. -/
def interpretNumber (compiling : Bool) (token : String) : WordM Unit := do
  match Number.read? (← ask Machine.base) token with
  | some (number, pointCount) =>
    writeCell Layout.pointCount pointCount
    acceptNumber compiling number
  | none =>
    if Number.looksNumeric token then throw (.invalidNumber token) else throw (.undefinedWord token)

/-- Execute a word, compile it, or read it as a number. -/
def interpretToken (serve : Serve) (token : String) : RunM Unit := do
  let compiling ← isCompiling
  match ← ask (·.findHeader? token) with
  | some header =>
    if compiling ∧ !header.isImmediate then compileToken header.xt
    else if !compiling ∧ header.isCompileOnly then throw (.fault (.compileOnly header.name))
    else serve (.execute header.xt)
  | none => interpretNumber compiling token

/-- Interpret the rest of the source. Stops early once the program has asked to end. -/
def interpretSource (serve : Serve) : Nat → RunM Unit
  | 0 => throw .outOfFuel
  | fuel + 1 => do
    match ← nextToken? with
    | none => return ()
    | some token =>
      interpretToken serve token
      if (← get).exiting then return ()
      interpretSource serve fuel

def interpretLine (serve : Serve) (fuel : Nat) (line : String) : RunM Unit := do
  let bytes := Utf8.encode line
  if Layout.inputBufferSize < bytes.length then throw (.fault .textOverflow)
  onMemory (Memory.writeBytes Layout.inputBuffer bytes)
  setSource ⟨Layout.inputBuffer, bytes.length⟩
  interpretSource serve fuel

/-! ### Nested input -/

/-- Interpret a text in memory, then go on with the current source. -/
def evaluate (serve : Serve) (fuel : Nat) (text : Source) : RunM Unit := do
  suspendSource
  RunM.andAlways (do setSource text; interpretSource serve fuel) fun _ => resumeSource

/-- The innermost reader has given another line. -/
def countLine : WordM Unit := update fun machine =>
  match machine.readers with
  | [] => machine
  | reader :: readers =>
    { machine with readers := { reader with line := reader.line + 1 } :: readers }

/-- Interpret the lines of a file, up to the first one that cannot be read. -/
def interpretLines (serve : Serve) (fuel : Nat) : List (Except DiskFault String) → RunM Unit
  | [] => pure ()
  | line :: lines => do
    if (← get).exiting then return ()
    match line with
    | .error cause => throw (.fault (.io cause.message))
    | .ok line =>
      countLine
      interpretLine serve fuel line
      interpretLines serve fuel lines

/-- Open a file. A path that is not on the disk is noted. -/
def openFile (path : String) : WordM DiskFile := do
  match (← get).disk.openFile path with
  | .ok file => return file
  | .error cause =>
    if cause = .missing then
      update fun machine => { machine with unknownPaths := path :: machine.unknownPaths }
    throw (.io (path ++ ": " ++ cause.message))

/-- Interpret a file. The line that asked for it is put back afterwards, so that the rest of it can
be interpreted. The first fault ends the file. -/
def loadFile (serve : Serve) (fuel : Nat) (path : String) : RunM Unit := do
  let file ← openFile path
  reportLoading path
  let line ← readBytes Layout.inputBuffer Layout.inputBufferSize
  suspendSource
  let readers := (← get).readers
  update fun machine => { machine with readers := ⟨path, 0⟩ :: readers }
  RunM.andAlways (interpretLines serve fuel file.lines) fun
    | none => leave readers line
    | some fault => do
      match (← get).readers with
      | reader :: _ => reportFailed reader fault
      | [] => pure ()
      leave readers line
where
  leave (readers : List Reader) (line : List UInt8) : RunM Unit := do
    update fun machine => { machine with readers }
    onMemory (Memory.writeBytes Layout.inputBuffer line)
    resumeSource

/-- Serve a request. Each level of nesting takes one from the fuel, and leaves the rest for every
loop on the level below. -/
def serve : Nat → Request → RunM Unit
  | 0, _ => throw .outOfFuel
  | fuel + 1, .execute token => execute (serve fuel) fuel token
  | fuel + 1, .evaluate text => evaluate (serve fuel) fuel text
  | fuel + 1, .load path => loadFile (serve fuel) fuel path

end Interpreter

end ThreadedForth
