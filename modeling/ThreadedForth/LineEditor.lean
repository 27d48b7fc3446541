import ThreadedForth.Text.Blank

/-!
# The line editor

One line of text with a cursor in it, edited key by key, and the lines entered before, which can be
called back. After every key the line is drawn again.
-/

namespace ThreadedForth

inductive Key where
  | char (c : Char)
  | enter | escape | backspace | delete | left | right | home | finish | up | down
  | other
  deriving DecidableEq, Repr

/-- What the terminal reports. Only keys that go down matter, held keys included. -/
inductive Event where
  | press (key : Key) (control : Bool)
  | release
  | other
  deriving DecidableEq, Repr

structure LineEditor where
  prompt : String
  buffer : List Char
  /-- How many characters stand before the cursor. -/
  cursor : Nat
  history : List String
  /-- The line of the history that was called back last. -/
  shown : Option Nat
  deriving DecidableEq, Repr

namespace LineEditor

def historyLimit : Nat := 100

def new (prompt : String) : LineEditor := ⟨prompt, [], 0, [], none⟩

/-! ### Editing -/

def insert (editor : LineEditor) (c : Char) : LineEditor :=
  { editor with
    buffer := editor.buffer.take editor.cursor ++ c :: editor.buffer.drop editor.cursor
    cursor := editor.cursor + 1 }

/-- Remove the character after the cursor, if there is one. -/
def deleteNext (editor : LineEditor) : LineEditor :=
  { editor with
    buffer := editor.buffer.take editor.cursor ++ editor.buffer.drop (editor.cursor + 1) }

/-- Remove the character before the cursor, if there is one. -/
def deletePrevious (editor : LineEditor) : LineEditor :=
  if editor.cursor = 0 then editor else deleteNext { editor with cursor := editor.cursor - 1 }

def cutRest (editor : LineEditor) : LineEditor :=
  { editor with buffer := editor.buffer.take editor.cursor }

def moveLeft (editor : LineEditor) : LineEditor := { editor with cursor := editor.cursor - 1 }

def moveRight (editor : LineEditor) : LineEditor :=
  if editor.cursor < editor.buffer.length then { editor with cursor := editor.cursor + 1 }
  else editor

def moveHome (editor : LineEditor) : LineEditor := { editor with cursor := 0 }

def moveEnd (editor : LineEditor) : LineEditor := { editor with cursor := editor.buffer.length }

/-! ### History -/

/-- Add a line to the history, unless it is blank or the same as the last one. A full history loses
its oldest line. -/
def remember (editor : LineEditor) (line : String) : LineEditor :=
  if line.toList.all Blank.isBlank ∨ editor.history.getLast? = some line then editor
  else if editor.history.length = historyLimit then
    { editor with history := editor.history.tail ++ [line] }
  else { editor with history := editor.history ++ [line] }

/-- Show a line of the history with the cursor at its end, or an empty line. -/
def showLine (editor : LineEditor) (shown : Option Nat) : LineEditor :=
  let buffer := ((shown.bind (editor.history[·]?)).getD "").toList
  { editor with shown, buffer, cursor := buffer.length }

def recallOlder (editor : LineEditor) : LineEditor :=
  match editor.shown with
  | none =>
    if editor.history.isEmpty then editor
    else editor.showLine (some (editor.history.length - 1))
  | some 0 => editor
  | some (i + 1) => editor.showLine (some i)

/-- Call back the line after the one shown; after the last one comes the empty line. -/
def recallNewer (editor : LineEditor) : LineEditor :=
  match editor.shown with
  | none => editor
  | some i => editor.showLine (if i + 1 < editor.history.length then some (i + 1) else none)

/-! ### Keys -/

/-- What a key leaves: the line being edited, or an end. The user ends the line, or all input. -/
inductive Outcome where
  | editing
  | entered (line : String)
  | closed
  deriving DecidableEq, Repr

/-- Apply a key. A character with the control key held is a command, or nothing. -/
def applyKey (editor : LineEditor) (key : Key) (control : Bool) : LineEditor × Outcome :=
  match key with
  | .char c =>
    if !control then (editor.insert c, .editing)
    else if c = 'a' then (editor.moveHome, .editing)
    else if c = 'e' then (editor.moveEnd, .editing)
    else if c = 'k' then (editor.cutRest, .editing)
    else if c = 'd' ∧ editor.buffer.isEmpty then (editor, .closed)
    else (editor, .editing)
  | .backspace => (editor.deletePrevious, .editing)
  | .delete => (editor.deleteNext, .editing)
  | .left => (editor.moveLeft, .editing)
  | .right => (editor.moveRight, .editing)
  | .home => (editor.moveHome, .editing)
  | .finish => (editor.moveEnd, .editing)
  | .up => (editor.recallOlder, .editing)
  | .down => (editor.recallNewer, .editing)
  | .enter =>
    let line := String.ofList editor.buffer
    (editor.remember line, .entered line)
  | .escape => (editor, .closed)
  | .other => (editor, .editing)

/-! ### Drawing -/

/-- The text that draws the line afresh and puts the cursor in its place. -/
def draw (editor : LineEditor) : String :=
  let back := editor.buffer.length - editor.cursor
  "\r\x1b[K" ++ editor.prompt ++ String.ofList editor.buffer ++
    (if back = 0 then "" else "\x1b[" ++ toString back ++ "D")

/-! ### Reading a line -/

/-- How the reading of a line ended: as the user wanted it, or because there were no more events. -/
inductive Ending where
  | entered (line : String)
  | closed
  | exhausted
  deriving DecidableEq, Repr

/-- A line that was read: what was printed before each event and after the last, how it ended, the
editor, and the events that are left. -/
structure Reading where
  frames : List String
  ending : Ending
  editor : LineEditor
  rest : List Event

/-- Go on reading with `frames` printed so far, the last at the front. -/
def readFrom (editor : LineEditor) (frames : List String) : List Event → Reading
  | [] => ⟨("" :: frames).reverse, .exhausted, editor, []⟩
  | .press key control :: events =>
    match editor.applyKey key control with
    | (editor, .editing) => editor.readFrom (editor.draw :: frames) events
    | (editor, .entered line) => ⟨("\r\n" :: frames).reverse, .entered line, editor, events⟩
    | (editor, .closed) => ⟨("\r\n" :: frames).reverse, .closed, editor, events⟩
  | .release :: events => editor.readFrom ("" :: frames) events
  | .other :: events => editor.readFrom ("" :: frames) events

def readLine (editor : LineEditor) (events : List Event) : Reading :=
  readFrom { editor with buffer := [], cursor := 0, shown := none } [editor.prompt] events

/-- Read lines until the events run out. Every reading but the last uses up an event. -/
def readLines (editor : LineEditor) : Nat → List Event → List Reading
  | 0, _ => []
  | steps + 1, events =>
    let reading := editor.readLine events
    match reading.ending with
    | .exhausted => [reading]
    | _ => reading :: reading.editor.readLines steps reading.rest

def session (prompt : String) (events : List Event) : List Reading :=
  (new prompt).readLines (events.length + 1) events

end LineEditor

end ThreadedForth
