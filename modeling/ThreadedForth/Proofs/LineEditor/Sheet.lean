import Mathlib.Data.List.Forall2
import ThreadedForth.LineEditor

/-!
# A text with a gap

The line being edited is a text with a gap where the cursor is: two lists of characters, each with the character next
to the gap at its front. The lines entered before are two lists in the same way, with the line that is shown next to
the gap. No key needs an index on such a sheet, so none can be out of range. The editor, which has indices, does on
every session what the sheet does.
-/

namespace ThreadedForth

open LineEditor

structure Sheet where
  /-- What stands before the cursor, the nearest character first. -/
  before : List Char
  after : List Char
  /-- The lines older than the one shown, the newest first. -/
  older : List String
  /-- The line shown and the ones after it, the newest last; none if the text is not one of them. -/
  newer : List String

namespace Sheet

/-- The lines that can be called back, the newest first. -/
def lines (sheet : Sheet) : List String := sheet.newer.reverse ++ sheet.older

def gap (sheet : Sheet) : List Char × List Char := (sheet.before.reverse, sheet.after)

def showing (sheet : Sheet) (line : String) : Sheet :=
  { sheet with before := line.toList.reverse, after := [] }

def callOlder (sheet : Sheet) : Sheet :=
  match sheet.older with
  | [] => sheet
  | line :: older => showing { sheet with older, newer := line :: sheet.newer } line

def callNewer (sheet : Sheet) : Sheet :=
  match sheet.newer with
  | [] => sheet
  | line :: newer => showing { sheet with older := line :: sheet.older, newer } (newer.head?.getD "")

/-- Put the line on top of the others, unless it is blank or the same as the newest. A full pile loses its oldest. -/
def keep (sheet : Sheet) (line : String) : Sheet :=
  { sheet with
    older :=
      if line.toList.all Blank.isBlank ∨ sheet.lines.head? = some line then sheet.lines
      else line :: if sheet.lines.length = historyLimit then sheet.lines.dropLast else sheet.lines
    newer := [] }

def home (sheet : Sheet) : Sheet := { sheet with before := [], after := sheet.before.reverse ++ sheet.after }

def finish (sheet : Sheet) : Sheet := { sheet with before := sheet.after.reverse ++ sheet.before, after := [] }

def left (sheet : Sheet) : Sheet :=
  match sheet.before with
  | [] => sheet
  | c :: before => { sheet with before, after := c :: sheet.after }

def right (sheet : Sheet) : Sheet :=
  match sheet.after with
  | [] => sheet
  | c :: after => { sheet with before := c :: sheet.before, after }

def press (sheet : Sheet) : Key → Bool → Sheet × Outcome
  | .char c, false => ({ sheet with before := c :: sheet.before }, .editing)
  | .char c, true =>
    if c = 'a' then (sheet.home, .editing)
    else if c = 'e' then (sheet.finish, .editing)
    else if c = 'k' then ({ sheet with after := [] }, .editing)
    else if c = 'd' ∧ sheet.before = [] ∧ sheet.after = [] then (sheet, .closed)
    else (sheet, .editing)
  | .backspace, _ => ({ sheet with before := sheet.before.tail }, .editing)
  | .delete, _ => ({ sheet with after := sheet.after.tail }, .editing)
  | .left, _ => (sheet.left, .editing)
  | .right, _ => (sheet.right, .editing)
  | .home, _ => (sheet.home, .editing)
  | .finish, _ => (sheet.finish, .editing)
  | .up, _ => (sheet.callOlder, .editing)
  | .down, _ => (sheet.callNewer, .editing)
  | .enter, _ =>
    let line := String.ofList (sheet.before.reverse ++ sheet.after)
    (sheet.keep line, .entered line)
  | .escape, _ => (sheet, .closed)
  | .other, _ => (sheet, .editing)

/-- The sheet for the next line. -/
def turn (sheet : Sheet) : Sheet := ⟨[], [], sheet.lines, []⟩

/-- For each line that is read, the text around the cursor and how the reading ended. -/
def read (sheet : Sheet) : List Event → List ((List Char × List Char) × Ending)
  | [] => [(sheet.gap, .exhausted)]
  | .press key control :: events =>
    match sheet.press key control with
    | (next, .editing) => next.read events
    | (next, .entered line) => (next.gap, .entered line) :: next.turn.read events
    | (next, .closed) => (next.gap, .closed) :: next.turn.read events
  | .release :: events => sheet.read events
  | .other :: events => sheet.read events

/-- The editor that shows the sheet. -/
def editor (prompt : String) (sheet : Sheet) : LineEditor where
  prompt
  buffer := sheet.before.reverse ++ sheet.after
  cursor := sheet.before.length
  history := sheet.older.reverse ++ sheet.newer
  shown := sheet.newer.head?.map fun _ => sheet.older.length

end Sheet

namespace LineEditor

/-- The text before the cursor and the text after it. -/
def gap (editor : LineEditor) : List Char × List Char :=
  (editor.buffer.take editor.cursor, editor.buffer.drop editor.cursor)

/-- The editor as it starts on a line. -/
def cleared (editor : LineEditor) : LineEditor := { editor with buffer := [], cursor := 0, shown := none }

/-- The reading ended as the line did, with the same text around a cursor that is in range. -/
structure Reading.Agrees (reading : Reading) (line : (List Char × List Char) × Ending) : Prop where
  gap : reading.editor.gap = line.1
  cursor_le : reading.editor.cursor ≤ reading.editor.buffer.length
  ending : reading.ending = line.2

/-- The readings of a session from one of them on. -/
def Reading.follow (reading : Reading) (steps : Nat) : List Reading :=
  match reading.ending with
  | .exhausted => [reading]
  | _ => reading :: reading.editor.readLines steps reading.rest

theorem remember_eq (editor : LineEditor) (line : String) :
    editor.remember line = { editor with history := (editor.remember line).history } := by
  unfold remember
  split
  · rfl
  · split <;> rfl

theorem readLines_succ (editor : LineEditor) (steps : Nat) (events : List Event) :
    editor.readLines (steps + 1) events = (editor.cleared.readFrom [editor.prompt] events).follow steps :=
  rfl

end LineEditor

namespace Sheet

variable {prompt : String} (sheet : Sheet)

/-! ### Keys -/

theorem take_editor : (sheet.editor prompt).buffer.take (sheet.editor prompt).cursor = sheet.before.reverse := by
  simp [editor]

theorem drop_editor : (sheet.editor prompt).buffer.drop (sheet.editor prompt).cursor = sheet.after := by
  simp [editor]

theorem gap_editor : (sheet.editor prompt).gap = sheet.gap :=
  Prod.ext sheet.take_editor sheet.drop_editor

theorem cursor_le_editor : (sheet.editor prompt).cursor ≤ (sheet.editor prompt).buffer.length := by
  simp [editor]

theorem cleared_editor : (sheet.editor prompt).cleared = sheet.turn.editor prompt := by
  simp [editor, cleared, turn, lines]

theorem moveLeft_editor : (sheet.editor prompt).moveLeft = sheet.left.editor prompt := by
  cases hbefore : sheet.before <;> simp [moveLeft, left, editor, hbefore]

theorem insert_editor (c : Char) :
    (sheet.editor prompt).insert c = editor prompt { sheet with before := c :: sheet.before } := by
  simp [LineEditor.insert, editor]

theorem deleteNext_editor :
    (sheet.editor prompt).deleteNext = editor prompt { sheet with after := sheet.after.tail } := by
  rw [deleteNext, take_editor, ← List.drop_drop, drop_editor, List.drop_one]
  rfl

theorem deletePrevious_editor :
    (sheet.editor prompt).deletePrevious = editor prompt { sheet with before := sheet.before.tail } := by
  cases hbefore : sheet.before with
  | nil => simp [deletePrevious, editor, hbefore]
  | cons c rest =>
    -- Deleting backwards is stepping back and deleting forwards.
    have hleft : sheet.left = { sheet with before := rest, after := c :: sheet.after } := by simp [left, hbefore]
    rw [deletePrevious, if_neg (by simp [editor, hbefore])]
    change (sheet.editor prompt).moveLeft.deleteNext = _
    rw [moveLeft_editor, deleteNext_editor, hleft]
    rfl

theorem cutRest_editor : (sheet.editor prompt).cutRest = editor prompt { sheet with after := [] } := by
  rw [cutRest, take_editor]
  simp [editor]

theorem moveRight_editor : (sheet.editor prompt).moveRight = sheet.right.editor prompt := by
  cases hafter : sheet.after <;> simp [moveRight, right, editor, hafter]

theorem moveHome_editor : (sheet.editor prompt).moveHome = sheet.home.editor prompt := by
  simp [moveHome, home, editor]

theorem moveEnd_editor : (sheet.editor prompt).moveEnd = sheet.finish.editor prompt := by
  simp [moveEnd, finish, editor, Nat.add_comm]

theorem recallOlder_editor : (sheet.editor prompt).recallOlder = sheet.callOlder.editor prompt := by
  cases holder : sheet.older with
  | nil => cases hnewer : sheet.newer <;> simp [recallOlder, callOlder, editor, holder, hnewer]
  | cons line older =>
    cases hnewer : sheet.newer <;>
      simp [recallOlder, callOlder, showLine, showing, editor, holder, hnewer]

theorem recallNewer_editor : (sheet.editor prompt).recallNewer = sheet.callNewer.editor prompt := by
  cases hnewer : sheet.newer with
  | nil => simp [recallNewer, callNewer, editor, hnewer]
  | cons line newer =>
    cases newer <;> simp [recallNewer, callNewer, showLine, showing, editor, hnewer]

theorem history_editor : (sheet.editor prompt).history = sheet.lines.reverse := by
  simp [editor, lines]

theorem remember_editor (line : String) :
    ((sheet.editor prompt).remember line).cleared = (sheet.keep line).turn.editor prompt := by
  have hlast : (sheet.editor prompt).history.getLast? = sheet.lines.head? := by
    rw [history_editor, List.getLast?_reverse]
  have hlen : (sheet.editor prompt).history.length = sheet.lines.length := by
    rw [history_editor, List.length_reverse]
  have hkept : ((sheet.editor prompt).remember line).history = (sheet.keep line).older.reverse := by
    simp only [remember, keep, hlast, hlen]
    split
    · exact sheet.history_editor
    · split <;> simp [history_editor]
  have hnewer : (sheet.keep line).newer = [] := rfl
  rw [remember_eq, hkept]
  simp [cleared, editor, turn, lines, hnewer]

/-- A key has the same outcome in the editor and on the sheet, and leaves the same text. As long as the line is edited
the editor shows the sheet; when the line has ended, it does so again with the next one. -/
structure Mirrors (prompt : String) (edited : LineEditor × Outcome) (pressed : Sheet × Outcome) : Prop where
  outcome : edited.2 = pressed.2
  gap : edited.1.gap = pressed.1.gap
  cursor_le : edited.1.cursor ≤ edited.1.buffer.length
  cleared : edited.1.cleared = pressed.1.turn.editor prompt
  editing : pressed.2 = .editing → edited.1 = pressed.1.editor prompt

theorem mirrors_editor (outcome : Outcome) : Mirrors prompt (sheet.editor prompt, outcome) (sheet, outcome) :=
  ⟨rfl, sheet.gap_editor, sheet.cursor_le_editor, sheet.cleared_editor, fun _ => rfl⟩

theorem applyKey_mirrors (key : Key) (control : Bool) :
    Mirrors prompt ((sheet.editor prompt).applyKey key control) (sheet.press key control) := by
  cases key with
  | char c =>
    cases control with
    | false =>
      change Mirrors prompt ((sheet.editor prompt).insert c, _) _
      exact sheet.insert_editor c ▸ mirrors_editor _ _
    | true =>
      have hempty : (sheet.editor prompt).buffer.isEmpty = true ↔ sheet.before = [] ∧ sheet.after = [] := by
        simp [editor]
      simp only [applyKey, press, hempty, Bool.not_true, Bool.false_eq_true, if_false, moveHome_editor, moveEnd_editor,
        cutRest_editor]
      iterate 4
        split
        · exact mirrors_editor _ _
      exact mirrors_editor _ _
  | enter =>
    refine ⟨rfl, ?_, ?_, sheet.remember_editor _, fun hedit => nomatch hedit⟩ <;>
      (simp only [applyKey]; rw [remember_eq])
    · exact @gap_editor prompt sheet
    · exact @cursor_le_editor prompt sheet
  | _ =>
    simp only [applyKey, press, deletePrevious_editor, deleteNext_editor, moveLeft_editor, moveRight_editor,
      moveHome_editor, moveEnd_editor, recallOlder_editor, recallNewer_editor]
    exact mirrors_editor _ _

/-! ### Sessions -/

/-- The rest of a session reads in the editor that shows the sheet as it does on the sheet. -/
theorem follow_editor (events : List Event) (frames : List String) (steps : Nat) (hsteps : events.length ≤ steps) :
    List.Forall₂ Reading.Agrees (((sheet.editor prompt).readFrom frames events).follow steps) (sheet.read events) := by
  -- Keys of one line go on with the sheet they leave; a line that has ended leaves fuel for the ones after it.
  induction events generalizing sheet frames steps with
  | nil => exact .cons ⟨sheet.gap_editor, sheet.cursor_le_editor, rfl⟩ .nil
  | cons event events ih =>
    cases event with
    | press key control =>
      have hmirrors : Mirrors prompt _ _ := sheet.applyKey_mirrors key control
      rw [readFrom, read]
      rcases hedited : (sheet.editor prompt).applyKey key control with ⟨edited, outcome⟩
      rcases hpressed : sheet.press key control with ⟨next, ended⟩
      rw [hedited, hpressed] at hmirrors
      obtain rfl : outcome = ended := hmirrors.outcome
      obtain ⟨steps, rfl⟩ := Nat.exists_eq_add_one_of_ne_zero (Nat.ne_of_gt (Nat.lt_of_lt_of_le (Nat.succ_pos _) hsteps))
      have hrest := Nat.le_of_succ_le_succ hsteps
      have hnext : List.Forall₂ Reading.Agrees (edited.readLines (steps + 1) events) (next.turn.read events) := by
        rw [readLines_succ, hmirrors.cleared]
        exact ih next.turn _ steps hrest
      cases outcome with
      | editing =>
        obtain rfl : edited = next.editor prompt := hmirrors.editing rfl
        exact ih next _ _ (Nat.le_succ_of_le hrest)
      | entered line => exact .cons ⟨hmirrors.gap, hmirrors.cursor_le, rfl⟩ hnext
      | closed => exact .cons ⟨hmirrors.gap, hmirrors.cursor_le, rfl⟩ hnext
    | release => exact ih sheet _ steps (Nat.le_of_succ_le hsteps)
    | other => exact ih sheet _ steps (Nat.le_of_succ_le hsteps)

end Sheet

namespace LineEditor

/-- A key ends all input only if it is escape, or control-D on an empty line. -/
theorem applyKey_eq_closed_iff (editor : LineEditor) (key : Key) (control : Bool) :
    (editor.applyKey key control).2 = .closed ↔
      key = .escape ∨ (key = .char 'd' ∧ control = true ∧ editor.buffer = []) := by
  cases key with
  | char c =>
    simp only [applyKey, List.isEmpty_iff]
    grind
  | _ => simp [applyKey]

theorem applyKey_eq_entered_iff (editor : LineEditor) (key : Key) (control : Bool) (line : String) :
    (editor.applyKey key control).2 = .entered line ↔
      key = .enter ∧ line = String.ofList (editor.gap.1 ++ editor.gap.2) := by
  rw [gap, List.take_append_drop]
  cases key with
  | char c =>
    simp only [applyKey]
    grind
  | _ => simp [applyKey, eq_comm]

/-- Every session goes, line for line, as it does on a sheet of paper. Its prefixes are sessions too, so this holds
after every event. -/
theorem session_refines_sheet (prompt : String) (events : List Event) :
    List.Forall₂ Reading.Agrees (session prompt events) ((⟨[], [], [], []⟩ : Sheet).read events) ∧
      ∀ reading ∈ session prompt events, ∀ key control,
        ((reading.editor.applyKey key control).2 = .closed ↔
          key = .escape ∨ (key = .char 'd' ∧ control = true ∧ reading.editor.buffer = [])) ∧
        ∀ line, (reading.editor.applyKey key control).2 = .entered line ↔
          key = .enter ∧ line = String.ofList (reading.editor.gap.1 ++ reading.editor.gap.2) :=
  ⟨Sheet.follow_editor ⟨[], [], [], []⟩ events _ _ (Nat.le_refl _), fun _ _ key control =>
    ⟨applyKey_eq_closed_iff _ key control, applyKey_eq_entered_iff _ key control⟩⟩

end LineEditor

end ThreadedForth
