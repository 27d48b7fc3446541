import ThreadedForth.Application

/-!
# The command

Reads the arguments, standard input and the files that the program asks for, and prints what the run
leaves behind. A run that asks for a file the machine has not seen is made again with that file on
its disk, so each file is read once, and only if it is wanted.
-/

namespace ThreadedForth.Main

/-- More rounds than a run will ever make. -/
def fuel : Nat := 1000000000000000

/-- The number of an error of the operating system, which some calls give negated. -/
def errorNumber (code : UInt32) : Nat := min code.toNat (-code).toNat

/-- What the operating system says when a path is opened. -/
def fetch (path : String) : IO (Except DiskFault DiskFile) := do
  try
    let content ← IO.FS.readBinFile path
    return .ok (.regular content.toList)
  catch
    | .noFileOrDirectory .. => return .error .missing
    | .inappropriateType _ code _ =>
      return if errorNumber code = 21 then .ok .directory else .error .notDirectory
    | .permissionDenied .. => return .error (.other "Permission denied (os error 13)")
    | failure@(.invalidArgument _ code _) =>
      return .error (if errorNumber code = 36 then .nameTooLong else .other (toString failure))
    | failure => return .error (.other (toString failure))

/-- Add what is at the paths to the disk. -/
def fetchAll (disk : Disk) (paths : List String) : IO Disk :=
  paths.foldlM (fun disk path => do return ⟨(path, ← fetch path) :: disk.files⟩) disk

/-- Paths asked for that the disk does not list yet. -/
def unlisted (machine : Machine) : List String :=
  (machine.unknownPaths.filter fun path => (machine.disk.files.lookup path).isNone).eraseDups

partial def readAll (input : IO.FS.Stream) (bytes : ByteArray) : IO ByteArray := do
  let more ← input.read 65536
  if more.isEmpty then return bytes else readAll input (bytes ++ more)

/-- Read the console with every file it asks for. -/
partial def readConsole (input : List UInt8) (machine : Machine) : IO Transcript := do
  let after := Application.readConsole fuel input machine
  match unlisted after with
  | [] => return Application.transcript after
  | paths => readConsole input { machine with disk := ← fetchAll machine.disk paths }

/-- Start the machine with every file it asks for, and read the console if it waits for it. -/
partial def run (arguments : List String) (disk : Disk) : IO Transcript := do
  let started := Application.start fuel arguments disk
  match started.machine.elim [] unlisted with
  | [] =>
    match started with
    | .refused transcript => return transcript
    | .finished machine => return Application.transcript machine
    | .waiting machine => readConsole (← readAll (← IO.getStdin) .empty).toList machine
  | paths => run arguments (← fetchAll disk paths)

end ThreadedForth.Main

def main (arguments : List String) : IO UInt32 := do
  let transcript ← ThreadedForth.Main.run arguments ThreadedForth.Disk.empty
  let output ← IO.getStdout
  output.write ⟨transcript.output⟩
  output.flush
  (← IO.getStderr).putStr transcript.errors
  return transcript.status.toUInt32
