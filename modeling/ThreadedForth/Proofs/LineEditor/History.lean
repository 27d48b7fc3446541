import Mathlib.Data.List.Destutter
import Mathlib.Data.List.DropRight
import ThreadedForth.Proofs.LineEditor.Sheet

/-!
# The history of the line editor

The history is the end of the list of all lines entered so far, without the blank ones and without repetitions. Only
entering a line changes it. Calling lines back moves along the history and stops at its oldest line; past the newest
one comes the empty line.
-/

namespace ThreadedForth.LineEditor

open List

/-- The lines worth keeping: not blank, and none the same as the one kept before it. -/
def kept (lines : List String) : List String :=
  (lines.filter fun line => !line.toList.all Blank.isBlank).destutter (· ≠ ·)

/-- The lines that the readings gave. -/
def entered (readings : List Reading) : List String :=
  readings.filterMap fun reading =>
    match reading.ending with
    | .entered line => some line
    | _ => none

/-! ### What is kept -/

theorem destutter'_append {α : Type} [DecidableEq α] (first item : α) (items : List α) :
    (items ++ [item]).destutter' (· ≠ ·) first =
      if (items.destutter' (· ≠ ·) first).getLast? = some item then items.destutter' (· ≠ ·) first
      else items.destutter' (· ≠ ·) first ++ [item] := by
  induction items generalizing first with
  | nil => by_cases hitem : first = item <;> simp [hitem]
  | cons next items ih =>
    have hne : (items.destutter' (· ≠ ·) next) ≠ [] := destutter'_ne_nil _ _
    by_cases hnext : first = next
    · simp [hnext, ih]
    · rw [cons_append, destutter'_cons, destutter'_cons, if_pos hnext, if_pos hnext, ih,
        getLast?_cons_of_ne_nil hne]
      split <;> rfl

theorem kept_append (lines : List String) (line : String) :
    kept (lines ++ [line]) =
      if line.toList.all Blank.isBlank ∨ (kept lines).getLast? = some line then kept lines else kept lines ++ [line] := by
  by_cases hblank : line.toList.all Blank.isBlank = true
  · simp [kept, filter_append, hblank]
  · rw [kept, kept, filter_append, filter_cons_of_pos (by simpa using hblank), filter_nil]
    cases lines.filter fun line => !line.toList.all Blank.isBlank with
    | nil => simp [hblank]
    | cons first rest =>
      simp only [cons_append, destutter_cons', destutter'_append, hblank, Bool.false_eq_true, false_or]

theorem mem_kept {lines : List String} {line : String} (hline : line ∈ kept lines) :
    line.toList.all Blank.isBlank = false := by
  have hmem := (destutter_sublist _ _).subset hline
  simpa using (mem_filter.1 hmem).2

variable {editor : LineEditor} {lines : List String}

theorem remember_history (hhistory : editor.history = (kept lines).rtake historyLimit) (line : String) :
    (editor.remember line).history = (kept (lines ++ [line])).rtake historyLimit := by
  have hlimit : historyLimit = 99 + 1 := rfl
  have hlast : editor.history.getLast? = (kept lines).getLast? := by
    rw [hhistory, hlimit, List.rtake, getLast?_drop]
    split
    · have hnil : kept lines = [] := eq_nil_of_length_eq_zero (by omega)
      rw [hnil, getLast?_nil]
    · rfl
  have hlen : editor.history.length = min (kept lines).length historyLimit := by
    rw [hhistory, List.rtake, length_drop]
    omega
  rw [remember, kept_append, hlast]
  split
  · exact hhistory
  · rw [hlimit, rtake_concat_succ, ← hlimit, hlen]
    split
    · have hcut : (kept lines).length - historyLimit + 1 = (kept lines).length - 99 := by omega
      rw [hhistory, List.rtake, List.rtake, tail_drop, hcut]
    · have hcut : (kept lines).length - historyLimit = (kept lines).length - 99 := by omega
      rw [hhistory, List.rtake, List.rtake, hcut]

/-! ### Keys -/

/-- A key that neither enters a line nor calls one back leaves the history alone, and what is shown of it. -/
theorem applyKey_cases (editor : LineEditor) (key : Key) (control : Bool) :
    (key = .enter ∧ (editor.applyKey key control).1 = editor.remember (String.ofList editor.buffer)) ∨
      (key = .up ∧ (editor.applyKey key control).1 = editor.recallOlder) ∨
      (key = .down ∧ (editor.applyKey key control).1 = editor.recallNewer) ∨
      (key ≠ .enter ∧ (editor.applyKey key control).1.history = editor.history ∧
        (editor.applyKey key control).1.shown = editor.shown) := by
  cases key with
  | enter => exact .inl ⟨rfl, rfl⟩
  | up => exact .inr (.inl ⟨rfl, rfl⟩)
  | down => exact .inr (.inr (.inl ⟨rfl, rfl⟩))
  | char c =>
    refine .inr (.inr (.inr ⟨by simp, ?_⟩))
    simp only [applyKey]
    grind [moveHome, moveEnd, cutRest, LineEditor.insert]
  | backspace =>
    refine .inr (.inr (.inr ⟨by simp, ?_⟩))
    simp only [applyKey, deletePrevious]
    split <;> exact ⟨rfl, rfl⟩
  | right =>
    refine .inr (.inr (.inr ⟨by simp, ?_⟩))
    simp only [applyKey, moveRight]
    split <;> exact ⟨rfl, rfl⟩
  | _ => exact .inr (.inr (.inr ⟨by simp, rfl, rfl⟩))

/-- The editor with the line shown that was entered so many lines back, or the empty line. -/
def back (editor : LineEditor) (count : Nat) : LineEditor :=
  editor.showLine (if count = 0 then none else some (editor.history.length - count))

theorem cleared_eq_back (editor : LineEditor) : editor.cleared = editor.back 0 := by
  simp [cleared, back, showLine]

theorem back_showLine (count : Nat) (shown : Option Nat) : (editor.back count).showLine shown = editor.showLine shown :=
  rfl

theorem recallOlder_back {count : Nat} (hcount : count ≤ editor.history.length) :
    (editor.back count).recallOlder = editor.back (min (count + 1) editor.history.length) := by
  cases hhistory : editor.history.length - count with
  | zero =>
    -- The oldest line is shown, or there is none.
    have hsame : min (count + 1) editor.history.length = count := by omega
    rw [hsame, recallOlder]
    by_cases hzero : count = 0
    · have hnil : editor.history = [] := eq_nil_of_length_eq_zero (by omega)
      simp [back, showLine, hzero, hnil]
    · simp [back, showLine, hzero, hhistory]
  | succ i =>
    have hnext : min (count + 1) editor.history.length = count + 1 := by omega
    have hi : editor.history.length - (count + 1) = i := by omega
    rw [hnext, recallOlder]
    by_cases hzero : count = 0
    · have hne : editor.history ≠ [] := ne_nil_of_length_pos (by omega)
      simp [back, showLine, hzero, hne]
    · simp [back, showLine, hzero, hhistory, hi]

theorem recallNewer_back {count : Nat} (hcount : count ≤ editor.history.length) :
    (editor.back count).recallNewer = editor.back (count - 1) := by
  cases count with
  | zero => rfl
  | succ count =>
    change (editor.back (count + 1)).showLine _ = _
    rw [back_showLine]
    by_cases hzero : count = 0
    · have hlast : ¬ editor.history.length - (count + 1) + 1 < editor.history.length := by omega
      change editor.showLine (if editor.history.length - (count + 1) + 1 < editor.history.length then _ else _) = _
      rw [if_neg hlast, back, Nat.add_sub_cancel, if_pos hzero]
    · have hless : editor.history.length - (count + 1) + 1 < editor.history.length := by omega
      change editor.showLine (if editor.history.length - (count + 1) + 1 < editor.history.length then _ else _) = _
      rw [if_pos hless, back, Nat.add_sub_cancel, if_neg hzero]
      congr 2
      omega

/-- Arrow keys go back line by line as far as there are lines, and forth again. -/
theorem readFrom_arrows (up down : Bool) (rise fall : Nat) {count : Nat} (hcount : count ≤ editor.history.length)
    (frames : List String) :
    ∃ printed, (editor.back count).readFrom frames
        (List.replicate rise (.press .up up) ++ List.replicate fall (.press .down down)) =
      ⟨printed, .exhausted, editor.back (min (count + rise) editor.history.length - fall), []⟩ := by
  induction rise generalizing count frames with
  | zero =>
    induction fall generalizing count frames with
    | zero => exact ⟨_, by rw [Nat.add_zero, Nat.min_eq_left hcount]; rfl⟩
    | succ fall ih =>
      change ∃ printed, (editor.back count).recallNewer.readFrom _ _ = _
      have hstops : min (count - 1 + 0) editor.history.length - fall =
          min (count + 0) editor.history.length - (fall + 1) := by omega
      rw [recallNewer_back hcount, ← hstops]
      exact ih (by omega) _
  | succ rise ih =>
    change ∃ printed, (editor.back count).recallOlder.readFrom _ _ = _
    have hstops : min (min (count + 1) editor.history.length + rise) editor.history.length =
        min (count + (rise + 1)) editor.history.length := by omega
    rw [recallOlder_back hcount, ← hstops]
    exact ih (Nat.min_le_right _ _) _

/-- On a fresh line the arrow keys show a line of the history, or an empty line beyond the newest. -/
theorem readLine_arrows (editor : LineEditor) (up down : Bool) (rise fall : Nat) :
    let browsed := editor.readLine (List.replicate rise (.press .up up) ++ List.replicate fall (.press .down down))
    let reach := min rise editor.history.length
    browsed.ending = .exhausted ∧ browsed.editor.history = editor.history ∧
      if fall < reach then
        browsed.editor.shown = some (editor.history.length - reach + fall) ∧
          editor.history[editor.history.length - reach + fall]? = some (String.ofList browsed.editor.buffer)
      else browsed.editor.shown = none ∧ browsed.editor.buffer = [] := by
  intro browsed reach
  obtain ⟨printed, harrows⟩ := readFrom_arrows up down rise fall (Nat.zero_le editor.history.length) [editor.prompt]
  have hbrowsed : browsed = ⟨printed, .exhausted, editor.back (reach - fall), []⟩ := by
    rw [← editor.cleared_eq_back, Nat.zero_add] at harrows
    exact harrows
  rw [hbrowsed]
  refine ⟨rfl, rfl, ?_⟩
  split
  · rename_i hless
    have hplace : editor.history.length - (reach - fall) = editor.history.length - reach + fall := by omega
    have hin : editor.history.length - reach + fall < editor.history.length := by omega
    simp [back, showLine, hplace, Nat.sub_ne_zero_of_lt hless, getElem?_eq_getElem hin]
  · rename_i hmore
    simp [back, showLine, Nat.sub_eq_zero_of_le (Nat.not_lt.1 hmore)]

/-- What was called back last is in the history. -/
def ShowsKept (editor : LineEditor) : Prop := ∀ i, editor.shown = some i → i < editor.history.length

theorem ShowsKept.showLine {i : Nat} (hi : i < editor.history.length) : (editor.showLine (some i)).ShowsKept :=
  fun _ hshown => Option.some.inj hshown ▸ hi

theorem ShowsKept.recallOlder (hshows : editor.ShowsKept) : editor.recallOlder.ShowsKept := by
  unfold LineEditor.recallOlder
  split
  · split
    · exact hshows
    · rename_i hne
      exact .showLine (Nat.sub_lt (length_pos_iff.2 (by simpa using hne)) Nat.one_pos)
  · exact hshows
  · rename_i i hshown
    exact .showLine (Nat.lt_of_succ_lt (hshows _ hshown))

theorem ShowsKept.recallNewer (hshows : editor.ShowsKept) : editor.recallNewer.ShowsKept := by
  unfold LineEditor.recallNewer
  split
  · exact hshows
  · split
    · rename_i hi
      exact .showLine hi
    · exact nofun

theorem recallOlder_history : editor.recallOlder.history = editor.history := by
  unfold recallOlder
  split
  · split <;> rfl
  · rfl
  · rfl

theorem recallNewer_history : editor.recallNewer.history = editor.history := by
  unfold recallNewer
  split <;> rfl

theorem le_remember_history (line : String) : editor.history.length ≤ (editor.remember line).history.length := by
  unfold remember
  split
  · exact Nat.le_refl _
  · split
    · simp
      omega
    · simp

theorem ShowsKept.applyKey (hshows : editor.ShowsKept) (key : Key) (control : Bool) :
    (editor.applyKey key control).1.ShowsKept := by
  rcases editor.applyKey_cases key control with ⟨-, hkey⟩ | ⟨-, hkey⟩ | ⟨-, hkey⟩ | ⟨-, hhistory, hshown⟩
  · intro i hi
    rw [hkey, remember_eq] at hi
    rw [hkey]
    exact Nat.lt_of_lt_of_le (hshows i hi) (le_remember_history _)
  · exact hkey ▸ hshows.recallOlder
  · exact hkey ▸ hshows.recallNewer
  · rw [ShowsKept, hhistory, hshown]
    exact hshows

/-- Only entering a line changes the history. -/
theorem applyKey_history {key : Key} (control : Bool) (hkey : key ≠ .enter) :
    (editor.applyKey key control).1.history = editor.history := by
  rcases editor.applyKey_cases key control with ⟨henter, -⟩ | ⟨-, hup⟩ | ⟨-, hdown⟩ | ⟨-, hhistory, -⟩
  · exact absurd henter hkey
  · rw [hup, recallOlder_history]
  · rw [hdown, recallNewer_history]
  · exact hhistory

/-! ### Sessions -/

/-- The history is what is kept of the lines, as far as there is room, and what is shown is part of it. -/
structure Keeping (lines : List String) (editor : LineEditor) : Prop where
  history : editor.history = (kept lines).rtake historyLimit
  shows : editor.ShowsKept

section

variable (hkeeping : Keeping lines editor)

include hkeeping

theorem Keeping.cleared : Keeping lines editor.cleared :=
  ⟨hkeeping.history, nofun⟩

/-- A key that ends a line or goes on with it keeps the history in step with the lines. -/
theorem Keeping.applyKey (key : Key) (control : Bool) :
    Keeping (lines ++ match (editor.applyKey key control).2 with | .entered line => [line] | _ => [])
      (editor.applyKey key control).1 := by
  refine ⟨?_, hkeeping.shows.applyKey key control⟩
  by_cases hkey : key = .enter
  · subst hkey
    exact remember_history hkeeping.history _
  · rw [applyKey_history control hkey, hkeeping.history]
    cases hended : (editor.applyKey key control).2 with
    | entered line => exact absurd ((applyKey_eq_entered_iff editor key control line).1 hended).1 hkey
    | _ => simp

theorem Keeping.follow {events : List Event} {frames : List String} {steps : Nat} {earlier later : List Reading}
    {reading : Reading} (hsession : (editor.readFrom frames events).follow steps = earlier ++ reading :: later) :
    Keeping (lines ++ entered (earlier ++ [reading])) reading.editor := by
  -- A line that has ended is the first reading; the ones after it start with what it leaves.
  induction events generalizing editor lines frames steps earlier with
  | nil =>
    obtain ⟨rfl, hlast⟩ | ⟨_, rfl, hnil⟩ := cons_eq_append_iff.1 hsession
    · obtain ⟨rfl, -⟩ := cons_eq_cons.1 hlast
      change Keeping (lines ++ []) editor
      rwa [append_nil]
    · simp at hnil
  | cons event events ih =>
    have hends {first : Reading} (hfirst : Keeping (lines ++ entered [first]) first.editor)
        (hsplit : first :: first.editor.readLines steps events = earlier ++ reading :: later) :
        Keeping (lines ++ entered (earlier ++ [reading])) reading.editor := by
      obtain ⟨rfl, hlast⟩ | ⟨others, rfl, hrest⟩ := cons_eq_append_iff.1 hsplit
      · obtain ⟨rfl, -⟩ := cons_eq_cons.1 hlast
        exact hfirst
      · cases steps with
        | zero => simp [readLines] at hrest
        | succ steps =>
          have hlater := ih hfirst.cleared hrest
          rwa [append_assoc, entered, entered, ← filterMap_append] at hlater
    cases event with
    | press key control =>
      have hkey := hkeeping.applyKey key control
      rw [readFrom] at hsession
      rcases hedited : editor.applyKey key control with ⟨edited, outcome⟩
      rw [hedited] at hsession hkey
      cases outcome with
      | editing => exact ih (append_nil lines ▸ hkey) hsession
      | entered line => exact @hends ⟨_, .entered line, edited, events⟩ hkey hsession
      | closed => exact @hends ⟨_, .closed, edited, events⟩ hkey hsession
    | release => exact ih hkeeping hsession
    | other => exact ih hkeeping hsession

end

/-- After every event of every session the history holds the last of the lines worth keeping, and the arrow keys walk
along it. -/
theorem session_keeps_history {prompt : String} {events : List Event} {earlier later : List Reading} {reading : Reading}
    (hsession : session prompt events = earlier ++ reading :: later) :
    reading.editor.history = (kept (entered (earlier ++ [reading]))).rtake historyLimit ∧
      reading.editor.history.length ≤ historyLimit ∧
      (∀ line ∈ reading.editor.history, line.toList.all Blank.isBlank = false) ∧
      reading.editor.history.IsChain (· ≠ ·) ∧
      (∀ i, reading.editor.shown = some i → i < reading.editor.history.length) ∧
      (∀ key control, key ≠ .enter → (reading.editor.applyKey key control).1.history = reading.editor.history) ∧
      ∀ up down rise fall,
        let browsed := reading.editor.readLine
          (List.replicate rise (.press .up up) ++ List.replicate fall (.press .down down))
        let reach := min rise reading.editor.history.length
        browsed.ending = .exhausted ∧ browsed.editor.history = reading.editor.history ∧
          if fall < reach then
            browsed.editor.shown = some (reading.editor.history.length - reach + fall) ∧
              reading.editor.history[reading.editor.history.length - reach + fall]? =
                some (String.ofList browsed.editor.buffer)
          else browsed.editor.shown = none ∧ browsed.editor.buffer = [] := by
  have hnew : Keeping [] (new prompt).cleared := ⟨rfl, fun _ hshown => by cases hshown⟩
  have hkeeping := hnew.follow hsession
  rw [List.nil_append] at hkeeping
  have hsuffix : reading.editor.history <:+ kept (entered (earlier ++ [reading])) :=
    hkeeping.history ▸ List.drop_suffix _ _
  refine ⟨hkeeping.history, ?_, fun line hline => mem_kept (hsuffix.subset hline),
    (List.isChain_destutter _ _).suffix hsuffix, hkeeping.shows, fun key control => applyKey_history control,
    reading.editor.readLine_arrows⟩
  rw [hkeeping.history, List.rtake, List.length_drop]
  omega

theorem session_keeps_history_called :
    let events := [.press (.char 'a') false, .press .enter false, .press .up false]
    ∃ first last, session "> " events = [first] ++ last :: [] ∧ last.editor.history = ["a"] ∧
      last.editor.shown = some 0 ∧ 0 < last.editor.history.length := by
  refine ⟨_, _, rfl, by decide, rfl, ?_⟩
  exact (@session_keeps_history "> " [.press (.char 'a') false, .press .enter false, .press .up false] [_] [] _
    rfl).2.2.2.2.1 0 rfl

end ThreadedForth.LineEditor
