
import ThreadedForth.Proofs.Interpreter.Nesting
import ThreadedForth.Proofs.Machine.Beside

/-!
# Interpreters side by side

No word sees what is set aside, which streams are read, or what was reported, and neither does the interpreter, as
long as what it takes up again is what it has set aside itself. That nested input is balanced is what makes it so.
-/

namespace ThreadedForth

open WordM Layout Interpreter Parallel

variable {first second : Machine}

/-- A clean-up runs after either of two runs that end together. -/
theorem EndTogether.andAlways {middle related : Machine → Machine → Prop} {action other : RunM Unit}
    {cleanUp tidyUp : Option Fault → RunM Unit} (hbody : EndTogether middle (action first) (other second))
    (hmono : ∀ first second, middle first second → related first second)
    (hclean : ∀ fault last final, middle last final → action.Ends first last → other.Ends second final →
      EndTogether related (cleanUp fault last) (tidyUp fault final)) :
    EndTogether related (RunM.andAlways action cleanUp first) (RunM.andAlways other tidyUp second) := by
  rw [RunM.andAlways, RunM.andAlways]
  rcases hbody.cases with ⟨_, last, final, hact, hother, hmid⟩ | ⟨halt, last, final, hact, hother, hmid⟩
  · rw [hact, hother]
    exact hclean none _ _ hmid (.inl ⟨_, hact⟩) (.inl ⟨_, hother⟩)
  · rw [hact, hother]
    cases halt with
    | outOfFuel => exact ⟨rfl, hmono _ _ hmid⟩
    | fault fault =>
      have htidy := hclean (some fault) _ _ hmid (.inr ⟨_, hact⟩) (.inr ⟨_, hother⟩)
      rcases htidy.cases with ⟨_, _, _, hfst, hsnd, hends⟩ | ⟨_, _, _, hfst, hsnd, hends⟩ <;>
        (simp only [hfst, hsnd]; exact ⟨rfl, hends⟩)

namespace Machine.Beside

variable {first second : Machine}

theorem size_eq (hbeside : first.Beside second) : second.memory.size = first.memory.size := by
  obtain ⟨_, _, _, rfl⟩ := hbeside
  rfl

instance : Parallel Beside suspendSource := by
  have (toIn : Cell) : Parallel Beside (WordM.update fun m =>
      { m with suspended := ⟨m.source, toIn⟩ :: m.suspended }) :=
    update fun _ _ _ _ => ⟨_, _, _, rfl⟩
  unfold WordM.suspendSource
  infer_instance

theorem suspendSource (hbeside : first.Beside second) {rest more : RunM Unit}
    (hrest : toIn + 4 ≤ first.memory.size → first.suspend.Beside second.suspend →
      EndTogether Beside (rest first.suspend) (more second.suspend)) :
    EndTogether Beside ((do WordM.suspendSource; rest : RunM Unit) first)
      ((do WordM.suspendSource; more : RunM Unit) second) := by
  have htog := (inferInstance : Parallel Beside WordM.suspendSource).parallel _ _ hbeside
  rcases suspendSource_cases first with ⟨fault, herror⟩ | ⟨hroom, hok⟩
  · rcases htog.cases with ⟨_, _, _, hfst, _⟩ | ⟨_, _, _, hfst, hother, hends⟩
    · cases herror.symm.trans hfst
    · rw [bind_of_error (run_of_error hfst), bind_of_error (run_of_error hother)]
      exact ⟨rfl, hends⟩
  · have hother := suspendSource_of_room (by rwa [hbeside.size_eq] : toIn + 4 ≤ second.memory.size)
    rw [hok, hother] at htog
    rw [bind_of_ok (run_of_ok hok), bind_of_ok (run_of_ok hother)]
    exact hrest hroom htog.2

end Machine.Beside

/-- Machines that differ in nothing a word sees, and are to take up the same source. -/
structure Machine.Resuming (waiting : Suspended) (first second : Machine) : Prop where
  beside : first.Beside second
  left : first.suspended.head? = some waiting
  right : second.suspended.head? = some waiting

namespace Machine.Resuming

variable {waiting : Suspended} {first second : Machine}

/-- What was set aside on both sides is what both sides are to take up, once all that ran in between has come back. -/
theorem of_suspend {last final : Machine} (hbeside : first.Beside second) (hends : last.Beside final)
    (hleft : last.suspended = first.suspend.suspended) (hright : final.suspended = second.suspend.suspended) :
    Resuming ⟨first.source, first.memory.cellAt toIn⟩ last final := by
  obtain ⟨_, _, _, rfl⟩ := hbeside
  exact ⟨hends, by rw [hleft]; rfl, by rw [hright]; rfl⟩

theorem resumeSource (hresuming : Resuming waiting first second) :
    EndTogether Beside (resumeSource first) (resumeSource second) := by
  have hwrite : Parallel Beside (writeCell toIn waiting.toIn) := inferInstance
  obtain ⟨hbeside, hleft, hright⟩ := hresuming
  obtain ⟨rest, hrest⟩ := List.head?_eq_some_iff.1 hleft
  obtain ⟨more, hmore⟩ := List.head?_eq_some_iff.1 hright
  simp only [WordM.resumeSource, hrest, hmore]
  obtain ⟨_, _, _, rfl⟩ := hbeside
  exact hwrite.parallel _ _ ⟨_, _, _, rfl⟩

instance (step : MemoryM Unit) : Parallel (Resuming waiting) (onMemory step) := by
  refine ⟨fun first second hresuming => ?_⟩
  obtain ⟨⟨_, _, _, rfl⟩, hleft, hright⟩ := hresuming
  rw [onMemory, onMemory]
  cases step first.memory <;> exact ⟨rfl, ⟨_, _, _, rfl⟩, hleft, hright⟩

/-- The line and the source that asked for a file are put back, whatever streams are left to read. -/
theorem leave (hresuming : Resuming waiting first second) (readers streams : List Reader) (line : List UInt8) :
    EndTogether Beside (loadFile.leave readers line first)
      (loadFile.leave streams line second) := by
  have hstreams : EndTogether (Resuming waiting)
      ((liftM (update fun m => { m with readers }) : RunM Unit) first)
      ((liftM (update fun m => { m with readers := streams }) : RunM Unit) second) := by
    obtain ⟨⟨_, _, _, rfl⟩, hleft, hright⟩ := hresuming
    exact ⟨rfl, ⟨_, _, _, rfl⟩, hleft, hright⟩
  have hline : Parallel (Resuming waiting)
      (liftM (onMemory (Memory.writeBytes inputBuffer line)) : RunM Unit) := inferInstance
  refine hstreams.bind (fun _ _ => beside) fun _ last final hlast => ?_
  exact (hline.parallel last final hlast).bind (fun _ _ => beside) fun _ _ _ hready => hready.resumeSource.run

end Machine.Resuming

/-! ### Files -/

namespace Interpreter

/-- What is done when a file has ended: a fault is reported, and the line that asked for the file is put back. -/
def closeFile (readers : List Reader) (line : List UInt8) : Option Fault → RunM Unit
  | none => loadFile.leave readers line
  | some fault => do
    match (← get).readers with
    | reader :: _ => reportFailed reader fault
    | [] => pure ()
    loadFile.leave readers line

theorem loadFile_eq (serve : Serve) (fuel : Nat) (path : String) :
    loadFile serve fuel path = (do
      let file ← openFile path
      reportLoading path
      let line ← readBytes inputBuffer inputBufferSize
      suspendSource
      let readers := (← get).readers
      update fun m => { m with readers := ⟨path, 0⟩ :: readers }
      RunM.andAlways (interpretLines serve fuel file.lines) (closeFile readers line) : RunM Unit) := by
  rfl

variable {m : Machine}

theorem closeFile_of_fault {reader : Reader} {others : List Reader}
    (hreaders : m.readers = reader :: others) (readers : List Reader) (line : List UInt8) (fault : Fault) :
    closeFile readers line (some fault) m =
      loadFile.leave readers line (stateAfter (reportFailed reader fault) m) := by
  change (match m.readers with
    | reader :: _ => do
      reportFailed reader fault
      loadFile.leave readers line
    | [] => loadFile.leave readers line : RunM Unit) m = _
  rw [hreaders]
  rfl

/-- Apart from a report, closing a file is putting the line back. -/
theorem closeFile_eq_leave (readers : List Reader) (line : List UInt8) (fault : Option Fault) (m : Machine) :
    ∃ reports, closeFile readers line fault m = loadFile.leave readers line { m with reports } := by
  cases fault with
  | none => exact ⟨m.reports, rfl⟩
  | some fault =>
    cases hreaders : m.readers with
    | cons reader others => exact ⟨_, closeFile_of_fault hreaders readers line fault⟩
    | nil =>
      refine ⟨m.reports, ?_⟩
      change (match m.readers with
        | reader :: _ => do
          reportFailed reader fault
          loadFile.leave readers line
        | [] => loadFile.leave readers line : RunM Unit) m = loadFile.leave readers line m
      rw [hreaders]

end Interpreter

theorem Machine.Resuming.closeFile {waiting : Suspended}
    (hresuming : Resuming waiting first second) (readers streams : List Reader) (line : List UInt8)
    (fault : Option Fault) :
    EndTogether Beside (closeFile readers line fault first)
      (closeFile streams line fault second) := by
  obtain ⟨reports, hfst⟩ := closeFile_eq_leave readers line fault first
  obtain ⟨others, hsnd⟩ := closeFile_eq_leave streams line fault second
  have hready : Resuming waiting { first with reports } { second with reports := others } := by
    obtain ⟨⟨_, _, _, rfl⟩, hleft, hright⟩ := hresuming
    exact ⟨⟨_, _, _, rfl⟩, hleft, hright⟩
  rw [hfst, hsnd]
  exact hready.leave readers streams line

/-! ### Levels of the interpreter -/

namespace Interpreter

open Machine (Beside NestedIn)

section Levels

variable (serve : Serve) [∀ request, Parallel Beside (serve request)]

instance (token : Nat) : Parallel Beside (dispatch serve token) := by
  have (request : Option Request) : Parallel Beside (match request with
      | some request => serve request
      | none => pure () : RunM Unit) := by
    cases request <;> infer_instance
  unfold dispatch dispatch.enter
  refine next fun cell => ?_
  split
  · infer_instance
  · infer_instance
  · infer_instance
  · refine next fun _ => ?_
    refine get_bind fun first second hbeside => ?_
    have (ip : Nat) : Parallel Beside (do
        pushReturn (Cell.ofNat ip)
        let does ← readCell (Header.doesField (Header.ofToken token))
        ThreadWord.setIp (← ask (·.memory.address does)) : RunM Unit) := inferInstance
    obtain ⟨_, _, _, rfl⟩ := hbeside
    exact (this first.ip).parallel _ _ ⟨_, _, _, rfl⟩
  · infer_instance
  · infer_instance

instance : Parallel Beside fetchToken := by
  have : Parallel Beside ThreadWord.skipCell := Beside.update fun _ _ _ _ => ⟨_, _, _, rfl⟩
  unfold fetchToken ThreadWord.inlineCell
  infer_instance

instance (fuel : Nat) : Parallel Beside (runThread serve fuel) := by
  induction fuel with
  | zero => exact throw _
  | succ fuel ih =>
    unfold runThread
    refine get_bind fun first second hbeside => ?_
    have (ip : Nat) : Parallel Beside (do
        if ip = 0 then return ()
        let token ← fetchToken
        dispatch serve token
        runThread serve fuel : RunM Unit) := inferInstance
    obtain ⟨_, _, _, rfl⟩ := hbeside
    exact (this first.ip).parallel _ _ ⟨_, _, _, rfl⟩

instance (fuel token : Nat) : Parallel Beside (execute serve fuel token) := by
  have hrun : Parallel Beside (do dispatch serve token; runThread serve fuel : RunM Unit) := inferInstance
  refine ⟨fun first second hbeside => ?_⟩
  obtain ⟨suspended, readers, reports, rfl⟩ := hbeside
  have hends := hrun.parallel { first with ip := 0 } { first with ip := 0, suspended, readers, reports } ⟨_, _, _, rfl⟩
  simp only [execute]
  rcases hends.cases with ⟨_, _, _, hfst, hsnd, _, _, _, rfl⟩ | ⟨_, _, _, hfst, hsnd, _, _, _, rfl⟩ <;>
    (rw [hfst, hsnd]; exact ⟨rfl, _, _, _, rfl⟩)

instance (token : String) : Parallel Beside (interpretToken serve token) := by
  unfold interpretToken
  refine next fun compiling => ?_
  refine next fun header => ?_
  split <;> infer_instance

theorem parallel_exiting {rest : RunM Unit} (hrest : Parallel Beside rest) : Parallel Beside (do
    if (← get).exiting then return ()
    rest : RunM Unit) := by
  refine get_bind fun first second hbeside => ?_
  have (exiting : Bool) : Parallel Beside (do
      if exiting then return ()
      rest : RunM Unit) := inferInstance
  obtain ⟨_, _, _, rfl⟩ := hbeside
  exact (this first.exiting).parallel _ _ ⟨_, _, _, rfl⟩

instance (fuel : Nat) : Parallel Beside (interpretSource serve fuel) := by
  induction fuel with
  | zero => exact throw _
  | succ fuel ih =>
    unfold interpretSource
    refine next fun token => ?_
    split
    · infer_instance
    · exact next fun _ => parallel_exiting ih

instance (fuel : Nat) (line : String) : Parallel Beside (interpretLine serve fuel line) := by
  unfold interpretLine
  infer_instance

instance : Parallel Beside countLine := by
  refine Beside.update fun m suspended readers reports => ?_
  cases m.readers <;> cases readers <;> exact ⟨_, _, _, rfl⟩

instance (fuel : Nat) (lines : List (Except DiskFault String)) : Parallel Beside (interpretLines serve fuel lines) := by
  induction lines with
  | nil => exact pure _
  | cons line lines ih =>
    unfold interpretLines
    cases line with
    | ok line => exact parallel_exiting inferInstance
    | error cause => exact parallel_exiting (throw _)

instance (path : String) : Parallel Beside (openFile path) := by
  have : Parallel Beside (update fun m =>
      { m with unknownPaths := path :: m.unknownPaths }) :=
    Beside.update fun _ _ _ _ => ⟨_, _, _, rfl⟩
  refine get_bind fun first second hbeside => ?_
  have (found : Except DiskFault DiskFile) : Parallel Beside (match found with
      | .ok file => return file
      | .error cause => do
        if cause = .missing then
          update fun m => { m with unknownPaths := path :: m.unknownPaths }
        throw (.io (path ++ ": " ++ cause.message)) : WordM DiskFile) := by
    cases found <;> infer_instance
  obtain ⟨_, _, _, rfl⟩ := hbeside
  exact (this (first.disk.openFile path)).parallel _ _ ⟨_, _, _, rfl⟩

instance (path : String) : Parallel Beside (reportLoading path) := by
  have : Parallel Beside (ask fun m => .ok m.verbose) := Beside.ask fun _ _ _ _ => rfl
  unfold reportLoading
  infer_instance

section Nested

variable [∀ outer request, Restores (NestedIn outer) (serve request)]

/-- What is set aside for a text is taken up after it, on both sides. -/
instance (fuel : Nat) (text : Source) : Parallel Beside (evaluate serve fuel text) := by
  have hbody : Parallel Beside (do setSource text; interpretSource serve fuel : RunM Unit) := inferInstance
  refine ⟨fun first second hbeside => hbeside.suspendSource fun hroom hsusp => ?_⟩
  refine (hbody.parallel _ _ hsusp).andAlways (fun _ _ hends => hends) ?_
  intro fault last final hlast hfst hsnd
  have hleft : first.suspend.NestedIn last := Restores.restores (.refl _) hfst
  have hright : second.suspend.NestedIn final := Restores.restores (.refl _) hsnd
  exact (Machine.Resuming.of_suspend hbeside hlast hleft.suspended_eq hright.suspended_eq).resumeSource.run

/-- The line that asked for a file is put back after it, on both sides. -/
instance (fuel : Nat) (path : String) : Parallel Beside (loadFile serve fuel path) := by
  have hbody (lines : List (Except DiskFault String)) : Parallel Beside (interpretLines serve fuel lines) :=
    inferInstance
  rw [loadFile_eq]
  refine next fun file => ?_
  refine next fun _ => ?_
  refine next fun line => ?_
  refine ⟨fun first second hbeside => hbeside.suspendSource fun hroom hsusp => ?_⟩
  change EndTogether Beside
    (RunM.andAlways _ (closeFile first.readers line) { first.suspend with readers := ⟨path, 0⟩ :: first.readers })
    (RunM.andAlways _ (closeFile second.readers line) { second.suspend with readers := ⟨path, 0⟩ :: second.readers })
  have hopened : Beside { first.suspend with readers := ⟨path, 0⟩ :: first.readers }
      { second.suspend with readers := ⟨path, 0⟩ :: second.readers } := by
    obtain ⟨_, _, _, rfl⟩ := hbeside
    exact ⟨_, _, _, rfl⟩
  refine ((hbody file.lines).parallel _ _ hopened).andAlways (fun _ _ hends => hends)
    fun fault last final hlast hfst hsnd => ?_
  have hleft : SetAside first.suspend last := by
    refine Restores.restores ?_ hfst
    exact ⟨rfl, rfl⟩
  have hright : SetAside second.suspend final := by
    refine Restores.restores ?_ hsnd
    exact ⟨rfl, rfl⟩
  exact (Machine.Resuming.of_suspend hbeside hlast hleft.1 hright.1).closeFile first.readers second.readers line fault

end Nested

end Levels

/-- All levels of the interpreter run side by side. -/
instance (fuel : Nat) (request : Request) : Parallel Beside (serve fuel request) := by
  induction fuel generalizing request with
  | zero => exact throw _
  | succ fuel ih => cases request <;> (simp only [serve]; infer_instance)

end Interpreter

end ThreadedForth
