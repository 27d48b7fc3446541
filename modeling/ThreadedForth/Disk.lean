import ThreadedForth.Text.Lines

/-!
# Files

The machine reads source files from a directory without subdirectories. Opening a path and reading
from it fail separately: a directory can be opened, and only the first attempt to read from it
fails.
-/

namespace ThreadedForth

inductive DiskFault where
  | missing
  | isDirectory
  | notDirectory
  | nameTooLong
  | zeroByte
  | malformedText
  | other (text : String)
  deriving DecidableEq, Repr

namespace DiskFault

def message : DiskFault → String
  | missing => "No such file or directory (os error 2)"
  | notDirectory => "Not a directory (os error 20)"
  | isDirectory => "Is a directory (os error 21)"
  | nameTooLong => "File name too long (os error 36)"
  | zeroByte => "file name contained an unexpected NUL byte"
  | malformedText => "stream did not contain valid UTF-8"
  | other text => text

end DiskFault

inductive DiskFile where
  | regular (content : List UInt8)
  | directory
  deriving DecidableEq, Repr

namespace DiskFile

/-- What reading the file line by line yields. The first failure ends the reading. -/
def lines : DiskFile → List (Except DiskFault String)
  | regular content => (Lines.ofBytes content).map fun
    | some line => .ok line
    | none => .error .malformedText
  | directory => [.error .isDirectory]

end DiskFile

/-- The files of the directory by name, and what is known of paths that lead out of it. -/
structure Disk where
  files : List (String × Except DiskFault DiskFile)

namespace Disk

def empty : Disk := ⟨[]⟩

def maxNameLength : Nat := 255

def maxPathLength : Nat := 4095

/-- Where the parts of a path have led so far. -/
inductive Place where
  /-- The directory of the files. -/
  | home
  /-- A directory whose files are not known. -/
  | away
  | file (content : List UInt8)
  deriving DecidableEq, Repr

def Place.opened : Place → DiskFile
  | home => .directory
  | away => .directory
  | file content => .regular content

def find (disk : Disk) (name : String) : Except DiskFault Place :=
  match disk.files.lookup name with
  | none => .error .missing
  | some (.error cause) => .error cause
  | some (.ok .directory) => .ok .away
  | some (.ok (.regular content)) => .ok (.file content)

/-- Go on from a place along one part of a path. Nothing lies below a file, not even itself. -/
def step (disk : Disk) (place : Place) (part : String) : Except DiskFault Place :=
  match place with
  | .file _ => .error .notDirectory
  | directory =>
    if part = "" ∨ part = "." then .ok directory
    else if part = ".." then .ok .away
    else if maxNameLength < part.utf8ByteSize then .error .nameTooLong
    else if directory = .home then disk.find part
    else .error .missing

/-- Open a path that is not listed as it stands. Its parts are followed from left to right, and the
first that leads nowhere decides the fault. -/
def resolve (disk : Disk) (path : String) : Except DiskFault DiskFile :=
  if path.isEmpty then .error .missing
  else if maxPathLength < path.utf8ByteSize then .error .nameTooLong
  else
    let start := if path.startsWith "/" then .away else .home
    return (← (path.splitOn "/").foldlM disk.step start).opened

def openFile (disk : Disk) (path : String) : Except DiskFault DiskFile :=
  if path.contains '\x00' then .error .zeroByte
  else
    match disk.files.lookup path with
    | some found => found
    | none => disk.resolve path

end Disk

end ThreadedForth
