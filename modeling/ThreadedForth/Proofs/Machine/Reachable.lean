
import ThreadedForth.Proofs.Machine.Steady

/-!
# The states of a session

Whatever lines, texts and files a machine is given, and however each of them ends, memory keeps its
size, the stacks stay in their regions and the two ends of the dictionary stay apart.
-/

namespace ThreadedForth

open Layout Keeps Memory Parallel WordM

open Machine (Bounded)

/-! ### Runs -/

namespace RunM

instance keeps_andAlways (action : RunM Unit) (cleanUp : Option Fault → RunM Unit) [Keeps Bounded action]
    [∀ fault, Keeps Bounded (cleanUp fault)] : Keeps Bounded (andAlways action cleanUp) := by
  have hclean (fault : Option Fault) : Keeps Bounded (cleanUp fault) := inferInstance
  refine .of fun m hb => ?_
  unfold stateAfter andAlways
  cases hact : action m with
  | ok answer middle => exact (hclean none).keeps middle (of_ok hb hact)
  | error halt middle =>
    have hmid : middle.Bounded := of_error hb hact
    cases halt with
    | outOfFuel => exact hmid
    | fault cause =>
      have hafter := (hclean (some cause)).keeps middle hmid
      unfold stateAfter at hafter
      cases hend : cleanUp (some cause) middle with
      | ok answer after =>
        simp only [hend] at hafter ⊢
        exact hafter
      | error halt after =>
        simp only [hend] at hafter ⊢
        exact hafter

instance (action : RunM Unit) [Keeps Bounded action] : Keeps Bounded (attempt action) := by
  refine .of fun m hb => ?_
  unfold stateAfter attempt
  cases hact : action m with
  | ok answer after => exact of_ok hb hact
  | error halt after => cases halt <;> exact of_error hb hact

end RunM

/-! ### Interpreters -/

namespace Interpreter

section Levels

variable (serve : Serve) [∀ request, Keeps Bounded (serve request)]

instance (addr : Nat) : Keeps Bounded (dispatch.enter addr) := by
  unfold dispatch.enter
  infer_instance

instance (token : Nat) : Keeps Bounded (dispatch serve token) := by
  have (request : Option Request) : Keeps Bounded (match request with
      | some request => serve request
      | none => pure () : RunM Unit) := by
    cases request <;> infer_instance
  unfold dispatch
  refine next fun cell => ?_
  split <;> infer_instance

instance : Keeps Bounded fetchToken := by
  unfold fetchToken
  infer_instance

instance (fuel : Nat) : Keeps Bounded (runThread serve fuel) := by
  induction fuel with
  | zero => exact throw _
  | succ fuel ih =>
    unfold runThread
    infer_instance

instance (fuel token : Nat) : Keeps Bounded (execute serve fuel token) := by
  have hrun : Keeps Bounded (do dispatch serve token; runThread serve fuel : RunM Unit) := inferInstance
  refine .of fun m hb => ?_
  have hidle : Bounded { m with ip := 0 } := { hb with }
  unfold stateAfter execute
  cases hend : (do dispatch serve token; runThread serve fuel : RunM Unit) { m with ip := 0 } with
  | ok answer after => exact { of_ok hidle hend with }
  | error halt after => exact { of_error hidle hend with }

instance (compiling : Bool) (number : Number) : Keeps Bounded (acceptNumber compiling number) := by
  cases number <;> (simp only [acceptNumber]; infer_instance)

instance (compiling : Bool) (token : String) : Keeps Bounded (interpretNumber compiling token) := by
  unfold interpretNumber
  refine next fun base => ?_
  split <;> infer_instance

instance (token : String) : Keeps Bounded (interpretToken serve token) := by
  unfold interpretToken
  refine next fun compiling => ?_
  refine next fun header => ?_
  split <;> infer_instance

instance (fuel : Nat) : Keeps Bounded (interpretSource serve fuel) := by
  induction fuel with
  | zero => exact throw _
  | succ fuel ih =>
    unfold interpretSource
    refine next fun token => ?_
    split <;> infer_instance

instance (fuel : Nat) (line : String) : Keeps Bounded (interpretLine serve fuel line) := by
  unfold interpretLine
  infer_instance

instance (fuel : Nat) (text : Source) : Keeps Bounded (evaluate serve fuel text) := by
  unfold evaluate
  infer_instance

instance : Keeps Bounded countLine := by
  refine keeps_update fun m hb => ?_
  split
  · exact hb
  · exact { hb with }

instance (fuel : Nat) (lines : List (Except DiskFault String)) : Keeps Bounded (interpretLines serve fuel lines) := by
  induction lines with
  | nil => exact pure _
  | cons line lines ih =>
    unfold interpretLines
    cases line <;> infer_instance

instance (path : String) : Keeps Bounded (openFile path) := by
  have : Keeps Bounded (update fun m =>
      { m with unknownPaths := path :: m.unknownPaths }) :=
    keeps_update fun _ hb => { hb with }
  unfold openFile
  refine next fun m => ?_
  split <;> infer_instance

theorem keeps_setReaders (readers : List Reader) :
    Keeps Bounded (update fun m => { m with readers }) :=
  keeps_update fun _ hb => { hb with }

instance (readers : List Reader) (line : List UInt8) : Keeps Bounded (loadFile.leave readers line) := by
  have := keeps_setReaders readers
  unfold loadFile.leave
  infer_instance

instance (fuel : Nat) (path : String) : Keeps Bounded (loadFile serve fuel path) := by
  unfold loadFile
  refine next fun file => ?_
  refine next fun _ => ?_
  refine next fun line => ?_
  refine next fun _ => ?_
  refine next fun m => ?_
  have := keeps_setReaders (⟨path, 0⟩ :: m.readers)
  refine next fun _ => ?_
  refine @RunM.keeps_andAlways _ _ inferInstance fun fault => ?_
  split
  · infer_instance
  · refine next fun m => ?_
    split <;> infer_instance

end Levels

instance (fuel : Nat) (request : Request) : Keeps Bounded (serve fuel request) := by
  induction fuel generalizing request with
  | zero => exact throw _
  | succ fuel ih => cases request <;> (simp only [serve]; infer_instance)

end Interpreter

/-! ### Sessions -/

namespace Machine

theorem Bounded.recover {m : Machine} (hb : m.Bounded) : m.recover.Bounded := by
  rw [Machine.recover]
  constructor
  · simp only [size_setCell]
    exact hb.size_eq
  · exact hb.data.clear
  · exact hb.returns.clear
  · exact hb.control.clear
  · simp [Stack.clear]
  · exact hb.dictionary

theorem size_initialMemory : initialMemory.size = memorySize := by
  have hzero : (ofSize memorySize).size = memorySize := by
    rw [ofSize, size, Array.size_replicate]
    rfl
  have hset := (size_setCell ((ofSize memorySize).setCell Layout.base 10)
    pointCount (-1)).trans ((size_setCell _ Layout.base 10).trans hzero)
  simp only [initialMemory, size] at hset ⊢
  exact hset

theorem bounded_new (disk : Disk) (verbose : Bool) : (Machine.new disk verbose).Bounded := by
  have hfits (kind : StackKind) (start cells : Nat) (husable : Region.Usable ⟨start, start + cells * 4⟩) :
      (Stack.new kind start cells).Fits kind ⟨start, start + cells * 4⟩ :=
    ⟨husable, rfl, rfl, rfl, Nat.le_add_right _ _, Nat.le_refl _, by simp [Stack.new]⟩
  have hdict : (Dictionary.new dictionaryStart dictionaryEnd).Fits
      dictionaryRegion := ⟨by decide, by decide, by decide, by decide⟩
  exact ⟨size_initialMemory, hfits _ _ _ ⟨by decide, by decide, by decide⟩,
    hfits _ _ _ ⟨by decide, by decide, by decide⟩, hfits _ _ _ ⟨by decide, by decide, by decide⟩,
    by simp [Machine.new, Stack.new], hdict⟩

end Machine

namespace Session

instance (fuel : Nat) (line : String) : Keeps Bounded (interpretLine fuel line) := by
  unfold interpretLine
  infer_instance

instance (fuel : Nat) (text : String) : Keeps Bounded (interpretText fuel text) := by
  unfold interpretText
  infer_instance

instance (fuel : Nat) (path : String) : Keeps Bounded (loadFile fuel path) := by
  unfold loadFile
  infer_instance

instance (prim : Prim) : Keeps Bounded (installPrimitive prim) := by
  unfold installPrimitive
  infer_instance

instance (fuel : Nat) (withPrelude : Bool) : Keeps Bounded (start fuel withPrelude) := by
  unfold start
  infer_instance

instance (fault : Fault) : Keeps Bounded (reportAndRecover fault) := by
  have : Keeps Bounded (update Machine.recover) := keeps_update fun _ => Bounded.recover
  unfold reportAndRecover
  infer_instance

instance (fuel : Nat) (line : String) : Keeps Bounded (interpretConsoleLine fuel line) := by
  unfold interpretConsoleLine
  refine next fun fault => ?_
  split <;> infer_instance

instance (fuel : Nat) (lines : List (Except DiskFault String)) : Keeps Bounded (interpretConsoleLines fuel lines) := by
  induction lines with
  | nil => exact pure _
  | cons line lines ih =>
    unfold interpretConsoleLines
    cases line <;> infer_instance

instance (fuel : Nat) (name : String) (lines : List (Except DiskFault String)) :
    Keeps Bounded (interpretConsole fuel name lines) := by
  have := Interpreter.keeps_setReaders [⟨name, 0⟩]
  unfold interpretConsole
  infer_instance

/-- What may be done to a machine that has been started: the calls of a session, and the words that
are run inside them. -/
inductive Step where
  | line (fuel : Nat) (line : String)
  | text (fuel : Nat) (text : String)
  | load (fuel : Nat) (path : String)
  | console (fuel : Nat) (name : String) (lines : List (Except DiskFault String))
  | recover
  | word (prim : Prim)

/-- The machine afterwards, however the step ends. -/
def Step.apply : Step → Machine → Machine
  | line fuel content => stateAfter (interpretLine fuel content)
  | text fuel content => stateAfter (interpretText fuel content)
  | load fuel path => stateAfter (loadFile fuel path)
  | console fuel name lines => stateAfter (interpretConsole fuel name lines)
  | recover => Machine.recover
  | word prim => stateAfter prim.perform

end Session

namespace Machine

/-- The machine comes up in a session. -/
inductive Reachable : Machine → Prop where
  | start (disk : Disk) (verbose : Bool) (fuel : Nat) (withPrelude : Bool) :
      Reachable (stateAfter (Session.start fuel withPrelude) (Machine.new disk verbose))
  | step {m : Machine} (hm : m.Reachable) (step : Session.Step) :
      Reachable (step.apply m)

theorem Bounded.step {m : Machine} (hb : m.Bounded) (step : Session.Step) : (step.apply m).Bounded := by
  cases step with
  | recover => exact hb.recover
  | _ => exact keeps inferInstance _ hb

theorem Reachable.bounded {m : Machine} (hreachable : m.Reachable) : m.Bounded := by
  induction hreachable with
  | start disk verbose fuel withPrelude => exact keeps inferInstance _ (bounded_new disk verbose)
  | step _ step ih => exact ih.step step

/-- The regions of memory that have an owner, as the machine's cursors bound them. -/
def regions (m : Machine) : List Region :=
  lowRegions ++
    [⟨m.dictionary.start, dictionaryEnd⟩,
      ⟨m.control.limit, m.control.base⟩,
      ⟨m.returns.limit, m.returns.base⟩,
      ⟨m.data.limit, m.data.base⟩]

theorem Bounded.regions_eq {m : Machine} (hb : m.Bounded) :
    m.regions = lowRegions ++
      [dictionaryRegion, controlRegion, returnRegion, dataRegion] := by
  rw [regions, hb.dictionary.start_eq, hb.control.limit_eq, hb.control.base_eq,
    hb.returns.limit_eq, hb.returns.base_eq, hb.data.limit_eq, hb.data.base_eq]
  rfl

/-- In every state of a session memory has its size, each stack pointer lies in the stack's own region
a whole number of cells from its base, the cursors of the dictionary are in order, and all regions lie
apart inside memory. So no difference of two cursors is cut off at zero. -/
theorem bounded_of_reachable {machine : Machine} (hreachable : machine.Reachable) :
    machine.Bounded ∧
      machine.regions.Pairwise Region.Apart ∧
      (∀ region ∈ machine.regions, region.start < region.finish ∧
        region.finish ≤ machine.memory.size) ∧
      (∀ stack ∈ [machine.data, machine.returns, machine.control],
        stack.limit + (stack.top - stack.limit) = stack.top ∧
          stack.top + (stack.base - stack.top) = stack.base ∧
          stack.depth + (stack.capacity - stack.depth) = stack.capacity) ∧
      machine.dictionary.here + machine.dictionary.unused = machine.dictionary.names := by
  have hbounded := hreachable.bounded
  refine ⟨hbounded, ?_, ?_, ?_, ?_⟩
  · rw [hbounded.regions_eq]
    decide
  · rw [hbounded.regions_eq, hbounded.size_eq]
    decide
  · intro stack hstack
    simp only [List.mem_cons, List.not_mem_nil, or_false] at hstack
    rcases hstack with rfl | rfl | rfl
    · exact hbounded.data.cursors
    · exact hbounded.returns.cursors
    · exact hbounded.control.cursors
  · exact Nat.add_sub_of_le hbounded.dictionary.here_le

/-- A line that stores over the whole of memory and then faults, and the recovery from it. -/
theorem bounded_of_reachable_erased :
    let started := stateAfter (Session.start 1000 true) (Machine.new Disk.empty false)
    let erased := stateAfter (Session.interpretLine 1000 "0 1048576 erase drop") started
    erased.Reachable ∧ erased.Bounded ∧ erased.recover.Bounded := by
  intro started erased
  have herased : erased.Reachable :=
    (Reachable.start Disk.empty false 1000 true).step (.line 1000 "0 1048576 erase drop")
  exact ⟨herased, (bounded_of_reachable herased).1, (bounded_of_reachable (herased.step .recover)).1⟩

end Machine

end ThreadedForth
