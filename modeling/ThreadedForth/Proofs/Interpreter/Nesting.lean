
import ThreadedForth.Proofs.Interpreter.Source
import ThreadedForth.Proofs.Machine.Reachable

/-!
# Nested input

A text that is evaluated and a file that is loaded are interpreted in the middle of another source. That
source is set aside first and taken up again at the end, however the nested input ended. No word touches
what has been set aside, so what is taken up is what was set aside, at any depth of nesting and whatever
the nested input did to memory.
-/

namespace ThreadedForth

open WordM Layout Keeps

/-- The machine has the same sources set aside and the same streams open as the outer one. A source is
taken up again by a store, so the size of memory has to be known too. -/
structure Machine.NestedIn (outer m : Machine) : Prop where
  suspended_eq : m.suspended = outer.suspended
  readers_eq : m.readers = outer.readers
  size_eq : m.memory.size = outer.memory.size

namespace Machine.NestedIn

variable {α : Type} {outer m : Machine}

theorem refl (m : Machine) : m.NestedIn m := ⟨rfl, rfl, rfl⟩

theorem step {next : Machine} (hnested : outer.NestedIn m) (hsusp : next.suspended = m.suspended)
    (hreaders : next.readers = m.readers) (hsize : next.memory.size = m.memory.size) : outer.NestedIn next :=
  ⟨hsusp.trans hnested.suspended_eq, hreaders.trans hnested.readers_eq, hsize.trans hnested.size_eq⟩

/-! ### What words do -/

theorem size_stateAfter (step : MemoryM α) [hstep : ∀ size, Keeps (Memory.HasSize size) step] (memory : Memory) :
    (stateAfter step memory).size = memory.size :=
  (hstep memory.size).keeps memory rfl

instance (step : MemoryM α) [∀ size, Keeps (Memory.HasSize size) step] : Keeps outer.NestedIn (onMemory step) := by
  refine .of fun m hnested => ?_
  have hsize := size_stateAfter step m.memory
  unfold stateAfter onMemory at *
  cases hres : step m.memory <;> (rw [hres] at hsize; exact hnested.step rfl rfl hsize)

instance keeps_pushing (step : Stack → MemoryM Stack) [∀ stack size, Keeps (Memory.HasSize size) (step stack)] :
    Keeps outer.NestedIn (pushing step) := by
  refine .of fun m hnested => ?_
  have hsize := size_stateAfter (step m.data) m.memory
  unfold stateAfter pushing at *
  cases hres : step m.data m.memory <;> (rw [hres] at hsize; exact hnested.step rfl rfl hsize)

instance keeps_popping (step : Stack → Memory → Except Fault (α × Stack)) : Keeps outer.NestedIn (popping step) := by
  refine .of fun m hnested => ?_
  unfold stateAfter popping
  cases step m.data m.memory <;> exact hnested.step rfl rfl rfl

instance keeps_onDictionary (step : Dictionary → MemoryM (α × Dictionary))
    [∀ dictionary size, Keeps (Memory.HasSize size) (step dictionary)] : Keeps outer.NestedIn (onDictionary step) := by
  refine .of fun m hnested => ?_
  have hsize := size_stateAfter (step m.dictionary) m.memory
  unfold stateAfter onDictionary at *
  cases hres : step m.dictionary m.memory <;>
    (rw [hres] at hsize; exact hnested.step rfl rfl hsize)

instance keeps_moveHere (step : Dictionary → Except Fault Dictionary) : Keeps outer.NestedIn (moveHere step) := by
  refine .of fun m hnested => ?_
  unfold stateAfter moveHere
  cases step m.dictionary <;> exact hnested.step rfl rfl rfl

instance (value : Cell) : Keeps outer.NestedIn (pushReturn value) := by
  refine .of fun m hnested => ?_
  have hsize := size_stateAfter (m.returns.push value) m.memory
  unfold stateAfter pushReturn at *
  cases hres : m.returns.push value m.memory <;>
    (rw [hres] at hsize; exact hnested.step rfl rfl hsize)

instance : Keeps outer.NestedIn popReturn := by
  refine .of fun m hnested => ?_
  unfold stateAfter popReturn
  cases m.returns.pop m.memory <;> exact hnested.step rfl rfl rfl

instance (depth : Nat) (value : Cell) : Keeps outer.NestedIn (pokeReturn depth value) := by
  refine .of fun m hnested => ?_
  have hsize := size_stateAfter (m.returns.poke depth value) m.memory
  unfold stateAfter pokeReturn at *
  cases hres : m.returns.poke depth value m.memory <;>
    (rw [hres] at hsize; exact hnested.step rfl rfl hsize)

instance (value : Cell) : Keeps outer.NestedIn (pushControl value) := by
  refine .of fun m hnested => ?_
  have hsize := size_stateAfter (m.control.push value) m.memory
  unfold stateAfter pushControl at *
  cases hres : m.control.push value m.memory <;>
    (rw [hres] at hsize; exact hnested.step rfl rfl hsize)

instance : Keeps outer.NestedIn popControl := by
  refine .of fun m hnested => ?_
  unfold stateAfter popControl
  cases m.control.pop m.memory <;> exact hnested.step rfl rfl rfl

instance : Keeps outer.NestedIn popMarker := by
  have (addr : Cell) (tag : Option Tag) : Keeps outer.NestedIn (match tag with
      | some tag => pure ⟨tag, Cell.toAddress addr⟩
      | none => throw .nesting : WordM Marker) := by
    cases tag <;> infer_instance
  unfold popMarker
  infer_instance

instance (size : Nat) (dictionary : Dictionary) (name : List UInt8) (flags code : Cell) :
    Keeps (Memory.HasSize size) (dictionary.enter name flags code) := by
  simp only [Dictionary.enter]
  iterate 3 refine @Parallel.ite _ _ _ _ _ _ _ _ inferInstance ?_
  iterate 4 refine Parallel.next fun _ => ?_
  infer_instance

instance : Lasting (Diagonal outer.NestedIn) where
  update hchange := of fun m hnested =>
    have halike := (hchange m [] [] #[]).1
    hnested.step halike.suspended halike.readers (congrArg Memory.size halike.memory)
  push _ := inferInstanceAs (Keeps _ (pushing _))
  pop := inferInstanceAs (Keeps _ (popping _))
  pushDouble _ := inferInstanceAs (Keeps _ (pushing _))
  popDouble := inferInstanceAs (Keeps _ (popping _))
  rollUp _ := inferInstanceAs (Keeps _ (pushing _))
  clear := of fun _ hnested => hnested.step rfl rfl rfl
  pushReturn _ := inferInstance
  popReturn := inferInstance
  pokeReturn _ _ := inferInstance
  setUser _ _ := inferInstanceAs (Keeps _ (onMemory _))
  fillInput _ := inferInstance
  fillPad _ _ _ := inferInstance
  fillNumber _ := inferInstance
  comma value :=
    have (dictionary : Dictionary) (size : Nat) : Keeps (Memory.HasSize size) (dictionary.comma value) := by
      unfold Dictionary.comma
      infer_instance
    inferInstanceAs (Keeps _ (onDictionary _))
  commaByte value :=
    have (dictionary : Dictionary) (size : Nat) : Keeps (Memory.HasSize size) (dictionary.commaByte value) := by
      unfold Dictionary.commaByte
      infer_instance
    inferInstanceAs (Keeps _ (onDictionary _))
  align := inferInstance
  onMemory _ hstep :=
    have := hstep
    inferInstance
  pushMarker marker := by
    unfold pushMarker
    infer_instance
  popMarker := inferInstance
  create name flags code :=
    have (dictionary : Dictionary) (size : Nat) : Keeps (Memory.HasSize size) (dictionary.create name flags code) := by
      unfold Dictionary.create
      infer_instance
    inferInstance
  createNameless code :=
    have (dictionary : Dictionary) (size : Nat) : Keeps (Memory.HasSize size) (dictionary.createNameless code) :=
      inferInstanceAs (Keeps _ (dictionary.enter [] Header.hidden code))
    inferInstance
  allot _ := inferInstance

end Machine.NestedIn

/-! ### Runs that come back -/

/-- The run comes back in this state, with an answer or with a fault. -/
def RunM.Ends {α : Type} (action : RunM α) (before after : Machine) : Prop :=
  (∃ answer, action before = .ok answer after) ∨ ∃ fault, action before = .error (.fault fault) after

namespace RunM.Ends

variable {α β : Type} {before after : Machine}

theorem of_bind {first : RunM α} {rest : α → RunM β} (hends : (first >>= rest).Ends before after) :
    (∃ fault, first before = .error (.fault fault) after) ∨
      ∃ answer middle, first before = .ok answer middle ∧ (rest answer).Ends middle after := by
  rcases hends with ⟨answer, hok⟩ | ⟨fault, herror⟩
  · obtain ⟨found, middle, hfst, hrest⟩ := of_bind_eq_ok hok
    exact .inr ⟨found, middle, hfst, .inl ⟨answer, hrest⟩⟩
  · rcases of_bind_eq_error herror with hfst | ⟨found, middle, hfst, hrest⟩
    · exact .inl ⟨fault, hfst⟩
    · exact .inr ⟨found, middle, hfst, .inr ⟨fault, hrest⟩⟩

theorem eq_stateAfter {action : WordM α} (hends : action.run.Ends before after) : after = stateAfter action before := by
  unfold RunM.Ends run at hends
  cases hact : action before with
  | ok answer middle =>
    rw [stateAfter_of_ok hact]
    simp only [hact] at hends
    rcases hends with ⟨_, hok⟩ | ⟨_, herror⟩
    · cases hok
      rfl
    · cases herror
  | error fault middle =>
    rw [stateAfter_of_error hact]
    simp only [hact] at hends
    rcases hends with ⟨_, hok⟩ | ⟨_, herror⟩
    · cases hok
    · cases herror
      rfl

theorem of_lift_bind {action : WordM α} {rest : α → RunM β}
    (hends : ((liftM action : RunM α) >>= rest).Ends before after) :
    (∃ fault, action before = .error fault after) ∨
      ∃ answer middle, action before = .ok answer middle ∧ (rest answer).Ends middle after := by
  rcases hends.of_bind with ⟨_, hfst⟩ | ⟨found, middle, hfst, hrest⟩
  · cases hact : action before with
    | ok answer last => cases (run_of_ok hact).symm.trans hfst
    | error fault last =>
      cases (run_of_error hact).symm.trans hfst
      exact .inl ⟨_, rfl⟩
  · cases hact : action before with
    | ok answer last =>
      cases (run_of_ok hact).symm.trans hfst
      exact .inr ⟨found, middle, rfl, hrest⟩
    | error fault last => cases (run_of_error hact).symm.trans hfst

/-- A run with a clean-up that comes back has done the clean-up. -/
theorem of_andAlways {action : RunM Unit} {cleanUp : Option Fault → RunM Unit}
    (hends : (andAlways action cleanUp).Ends before after) :
    ∃ middle fault, action.Ends before middle ∧ (cleanUp fault).Ends middle after := by
  unfold RunM.Ends andAlways at hends
  cases hact : action before with
  | ok answer middle =>
    simp only [hact] at hends
    exact ⟨middle, none, .inl ⟨answer, hact⟩, hends⟩
  | error halt middle =>
    cases halt with
    | outOfFuel =>
      simp only [hact] at hends
      rcases hends with ⟨_, hok⟩ | ⟨_, herror⟩
      · cases hok
      · cases herror
    | fault cause =>
      refine ⟨middle, some cause, .inr ⟨cause, hact⟩, ?_⟩
      simp only [hact] at hends
      cases hclean : cleanUp (some cause) middle with
      | ok answer last =>
        simp only [hclean] at hends
        rcases hends with ⟨_, hok⟩ | ⟨_, herror⟩
        · cases hok
        · cases herror
          exact .inl ⟨answer, hclean⟩
      | error halt last =>
        simp only [hclean] at hends
        rcases hends with ⟨_, hok⟩ | ⟨_, herror⟩
        · cases hok
        · cases herror
          exact .inr ⟨_, hclean⟩

end RunM.Ends

/-- A run that comes back leaves the invariant as it found it. One that runs out of fuel has not come
back, and has not cleaned up. -/
class Restores {α : Type} (holds : Machine → Prop) (action : RunM α) : Prop where
  restores : ∀ {before after}, holds before → action.Ends before after → holds after

namespace Restores

variable {α β : Type} {holds : Machine → Prop}

instance (answer : α) : Restores holds (pure answer) := by
  refine ⟨fun hbefore hends => ?_⟩
  rcases hends with ⟨_, hok⟩ | ⟨_, herror⟩
  · cases hok
    exact hbefore
  · cases herror

instance (halt : Halt) : Restores holds (throw halt : RunM α) := by
  refine ⟨fun hbefore hends => ?_⟩
  rcases hends with ⟨_, hok⟩ | ⟨_, herror⟩
  · cases hok
  · cases herror
    exact hbefore

instance : Restores holds (get : RunM Machine) := by
  refine ⟨fun hbefore hends => ?_⟩
  rcases hends with ⟨_, hok⟩ | ⟨_, herror⟩
  · cases hok
    exact hbefore
  · cases herror

instance bind (first : RunM α) (rest : α → RunM β) [hfst : Restores holds first]
    [hrest : ∀ answer, Restores holds (rest answer)] : Restores holds (first >>= rest) := by
  refine ⟨fun hbefore hends => ?_⟩
  rcases hends.of_bind with ⟨fault, herror⟩ | ⟨answer, middle, hok, hends⟩
  · exact hfst.restores hbefore (.inr ⟨fault, herror⟩)
  · exact (hrest answer).restores (hfst.restores hbefore (.inl ⟨answer, hok⟩)) hends

instance (condition : Prop) [Decidable condition] (action other : RunM α) [Restores holds action]
    [Restores holds other] : Restores holds (if condition then action else other) := by
  split <;> assumption

instance lift (action : WordM α) [hkeeps : Keeps holds action] : Restores holds (liftM action : RunM α) :=
  ⟨fun hbefore hends => RunM.Ends.eq_stateAfter hends ▸ hkeeps.keeps _ hbefore⟩

end Restores

/-! ### Interpreters -/

namespace Interpreter

open Machine (NestedIn)

section Levels

variable (serve : Serve) [∀ outer request, Restores (NestedIn outer) (serve request)] {outer : Machine}

instance (token : Nat) : Restores outer.NestedIn (dispatch serve token) := by
  have (request : Option Request) : Restores outer.NestedIn (match request with
      | some request => serve request
      | none => pure () : RunM Unit) := by
    cases request <;> infer_instance
  unfold dispatch dispatch.enter
  refine @Restores.bind _ _ _ _ _ inferInstance fun cell => ?_
  split <;> infer_instance

instance (fuel : Nat) : Restores outer.NestedIn (runThread serve fuel) := by
  induction fuel with
  | zero =>
    unfold runThread
    infer_instance
  | succ fuel ih =>
    unfold runThread fetchToken
    infer_instance

instance (fuel token : Nat) : Restores outer.NestedIn (execute serve fuel token) := by
  have hrun : Restores outer.NestedIn (do dispatch serve token; runThread serve fuel : RunM Unit) := inferInstance
  refine ⟨fun {before after} hbefore hends => ?_⟩
  have hidle : outer.NestedIn { before with ip := 0 } := hbefore.step rfl rfl rfl
  unfold RunM.Ends execute at hends
  cases hres : (do dispatch serve token; runThread serve fuel : RunM Unit) { before with ip := 0 } with
  | ok answer last =>
    simp only [hres] at hends
    rcases hends with ⟨_, hok⟩ | ⟨_, herror⟩
    · cases hok
      exact (hrun.restores hidle (.inl ⟨answer, hres⟩)).step rfl rfl rfl
    · cases herror
  | error halt last =>
    simp only [hres] at hends
    rcases hends with ⟨_, hok⟩ | ⟨fault, herror⟩
    · cases hok
    · cases herror
      exact (hrun.restores hidle (.inr ⟨fault, hres⟩)).step rfl rfl rfl

instance (token : String) : Restores outer.NestedIn (interpretToken serve token) := by
  have (compiling : Bool) : Keeps outer.NestedIn (interpretNumber compiling token) := by
    unfold interpretNumber acceptNumber
    refine Parallel.next fun base => ?_
    split
    · refine Parallel.next fun _ => ?_
      split <;> infer_instance
    · infer_instance
  unfold interpretToken
  refine @Restores.bind _ _ _ _ _ inferInstance fun compiling => ?_
  refine @Restores.bind _ _ _ _ _ inferInstance fun header => ?_
  split <;> infer_instance

instance (fuel : Nat) : Restores outer.NestedIn (interpretSource serve fuel) := by
  induction fuel with
  | zero =>
    unfold interpretSource
    infer_instance
  | succ fuel ih =>
    unfold interpretSource
    refine @Restores.bind _ _ _ _ _ inferInstance fun token => ?_
    split <;> infer_instance

instance (fuel : Nat) (line : String) : Restores outer.NestedIn (interpretLine serve fuel line) := by
  unfold interpretLine
  infer_instance

end Levels

end Interpreter

/-! ### Setting a source aside and taking it up again -/

namespace Machine

/-- The same text is read on from the same place, with the same input around it. -/
structure Balanced (before after : Machine) : Prop where
  source_eq : after.source = before.source
  toIn_eq : after.memory.cellAt toIn = before.memory.cellAt toIn
  suspended_eq : after.suspended = before.suspended
  readers_eq : after.readers = before.readers
  size_eq : after.memory.size = before.memory.size

theorem Balanced.refl (m : Machine) : m.Balanced m := ⟨rfl, rfl, rfl, rfl, rfl⟩

theorem Balanced.nestedIn {outer before after : Machine} (hbal : before.Balanced after)
    (hnested : outer.NestedIn before) : outer.NestedIn after :=
  hnested.step hbal.suspended_eq hbal.readers_eq hbal.size_eq

/-- The machine with its source set aside. -/
def suspend (m : Machine) : Machine :=
  { m with
    suspended := ⟨m.source, m.memory.cellAt toIn⟩ :: m.suspended }

end Machine

namespace WordM

theorem suspendSource_of_room {m : Machine} (hroom : toIn + 4 ≤ m.memory.size) :
    suspendSource m = .ok () m.suspend := by
  have hread : readCell toIn m = .ok (m.memory.cellAt toIn) m := by
    rw [readCell, ask, Memory.readCell_eq_ok hroom (by decide)]
  exact (bind_of_ok hread).trans rfl

theorem suspendSource_cases (m : Machine) :
    (∃ fault, suspendSource m = .error fault m) ∨
      (Layout.toIn + 4 ≤ m.memory.size ∧ suspendSource m = .ok () m.suspend) := by
  cases hread : m.memory.readCell Layout.toIn with
  | error fault =>
    refine .inl ⟨fault, bind_of_error ?_⟩
    rw [readCell, ask, hread]
  | ok toIn =>
    have hroom := (Memory.of_readCell_eq_ok hread).1
    exact .inr ⟨hroom, suspendSource_of_room hroom⟩

theorem resumeSource_of_cons {m : Machine} {source : Source} {toIn : Cell} {rest : List Suspended}
    (hsusp : m.suspended = ⟨source, toIn⟩ :: rest) (hroom : Layout.toIn + 4 ≤ m.memory.size) :
    resumeSource m = .ok ()
      { m with source, suspended := rest, memory := m.memory.setCell Layout.toIn toIn } := by
  simp only [resumeSource, hsusp]
  rw [writeCell, onMemory, Memory.writeCell_eq_ok toIn hroom (by decide)]

/-- What was set aside is what is taken up, if all that ran in between left the nesting as it was. -/
theorem resumeSource_of_suspend {before middle : Machine} (hroom : toIn + 4 ≤ before.memory.size)
    (hnested : before.suspend.NestedIn middle) :
    ∃ after, resumeSource middle = .ok () after ∧ before.Balanced after ∧
      Memory.SameOutside (Region.mk toIn (toIn + 4)).Holds middle.memory after.memory := by
  have hsize : middle.memory.size = before.memory.size := hnested.size_eq
  refine ⟨_, resumeSource_of_cons hnested.suspended_eq (by omega), ⟨rfl, ?_, rfl, hnested.readers_eq, ?_⟩,
    Memory.sameOutside_setCell _ _ _⟩
  · exact Memory.cellAt_setCell _ _ _ (by omega)
  · exact (Memory.size_setCell _ _ _).trans hsize

end WordM

namespace Interpreter

open Machine (NestedIn)

section Levels

variable (serve : Serve) [∀ outer request, Restores (NestedIn outer) (serve request)]

variable {after before : Machine}

theorem of_suspended {rest : RunM Unit} {holds : Machine → Prop} (hbefore : holds before)
    (hrest : toIn + 4 ≤ before.memory.size → rest.Ends before.suspend after → holds after)
    (hends : (do suspendSource; rest : RunM Unit).Ends before after) : holds after := by
  rcases suspendSource_cases before with ⟨fault, herror⟩ | ⟨hroom, hok⟩
  · rcases hends.of_lift_bind with ⟨_, hfst⟩ | ⟨_, _, hfst, _⟩
    · cases hfst.symm.trans herror
      exact hbefore
    · cases hfst.symm.trans herror
  · rcases hends.of_lift_bind with ⟨_, hfst⟩ | ⟨_, _, hfst, hends⟩
    · cases hfst.symm.trans hok
    · cases hfst.symm.trans hok
      exact hrest hroom hends

theorem balanced_of_evaluate {fuel : Nat} {text : Source}
    (hends : (evaluate serve fuel text).Ends before after) : before.Balanced after := by
  refine of_suspended (.refl before) (fun hroom hends => ?_) hends
  obtain ⟨middle, _, hbody, hclean⟩ := hends.of_andAlways
  have hmid : before.suspend.NestedIn middle := Restores.restores (.refl _) hbody
  obtain ⟨last, hresume, hbal, _⟩ := resumeSource_of_suspend hroom hmid
  cases (RunM.Ends.eq_stateAfter hclean).trans (stateAfter_of_ok hresume)
  exact hbal

/-! #### Files -/

/-- The lines of a file are counted, so the streams that are open change. What is set aside does not. -/
def SetAside (outer m : Machine) : Prop :=
  m.suspended = outer.suspended ∧ m.memory.size = outer.memory.size

instance (outer : Machine) (fuel : Nat) (line : String) :
    Restores (SetAside outer) (interpretLine serve fuel line) := by
  refine ⟨fun {middle last} hmid hends => ?_⟩
  have hlast : middle.NestedIn last := Restores.restores (.refl middle) hends
  exact ⟨hlast.suspended_eq.trans hmid.1, hlast.size_eq.trans hmid.2⟩

instance (outer : Machine) : Keeps (SetAside outer) countLine := by
  refine .of fun middle hmid => ?_
  unfold stateAfter countLine update
  dsimp only
  split <;> exact hmid

instance (outer : Machine) (fuel : Nat) (lines : List (Except DiskFault String)) :
    Restores (SetAside outer) (interpretLines serve fuel lines) := by
  induction lines with
  | nil =>
    unfold interpretLines
    infer_instance
  | cons line lines ih =>
    unfold interpretLines
    cases line <;> infer_instance

end Levels

/-- The same text is read on, and the line it stands in is the same. -/
def LineKept (before after : Machine) : Prop :=
  before.Balanced after ∧
    after.memory.bytesAt inputBuffer inputBufferSize =
      before.memory.bytesAt inputBuffer inputBufferSize

variable {before middle after m : Machine}

/-- The end of a file puts back the line and the source that asked for it. It cannot fail. -/
theorem leave_of_setAside (hroom : toIn + 4 ≤ before.memory.size)
    (hbuffer : inputBuffer + inputBufferSize ≤ before.memory.size)
    (haside : SetAside before.suspend middle) :
    ∃ after, loadFile.leave before.readers (before.memory.bytesAt inputBuffer inputBufferSize) middle =
      .ok () after ∧ LineKept before after := by
  obtain ⟨hsusp, hsize⟩ := haside
  change middle.memory.size = before.memory.size at hsize
  generalize hline : before.memory.bytesAt inputBuffer inputBufferSize = line
  have hlen : line.length = inputBufferSize := by rw [← hline, Memory.length_bytesAt _ _ _ hbuffer]
  have hwrite := Memory.writeBytes_eq_ok line (by omega : inputBuffer + line.length ≤ middle.memory.size)
  have hback := Memory.bytesAt_setBytes middle.memory inputBuffer line (by omega)
  have hwritten := Memory.size_setBytes middle.memory inputBuffer line
  have hnested : before.suspend.NestedIn { middle with
      readers := before.readers, memory := middle.memory.setBytes inputBuffer line } :=
    ⟨hsusp, rfl, hwritten.trans hsize⟩
  obtain ⟨after, hresume, hbal, hsame⟩ := resumeSource_of_suspend hroom hnested
  refine ⟨after, ?_, hbal, ?_⟩
  · have hmem : onMemory (Memory.writeBytes inputBuffer line) { middle with readers := before.readers } =
        .ok () { middle with
          readers := before.readers, memory := middle.memory.setBytes inputBuffer line } := by
      rw [onMemory, hwrite]
    exact (bind_of_ok rfl).trans ((bind_of_ok (run_of_ok hmem)).trans (run_of_ok hresume))
  · rw [hlen] at hback
    rw [hline]
    refine (hsame.bytesAt (by simp only; omega) ?_).trans hback
    rintro other hlow _ ⟨_, hhigh⟩
    have horder := order
    simp only at hhigh
    omega

theorem lineKept_of_leave (hroom : toIn + 4 ≤ before.memory.size)
    (hbuffer : inputBuffer + inputBufferSize ≤ before.memory.size)
    (haside : SetAside before.suspend middle)
    (hends : (loadFile.leave before.readers
      (before.memory.bytesAt inputBuffer inputBufferSize)).Ends middle after) :
    LineKept before after := by
  obtain ⟨last, hleave, hkept⟩ := leave_of_setAside hroom hbuffer haside
  rcases hends with ⟨_, hok⟩ | ⟨_, herror⟩
  · cases hok.symm.trans hleave
    exact hkept
  · cases herror.symm.trans hleave

/-- Memory and input are as they were. -/
def Untouched (before m : Machine) : Prop :=
  before.Balanced m ∧ m.memory = before.memory

theorem Untouched.lineKept_of (huntouched : Untouched before m) (hkept : LineKept m after) : LineKept before after := by
  obtain ⟨hbal, hmem⟩ := huntouched
  obtain ⟨hafter, hline⟩ := hkept
  refine ⟨⟨hafter.source_eq.trans hbal.source_eq, hafter.toIn_eq.trans hbal.toIn_eq,
    hafter.suspended_eq.trans hbal.suspended_eq, hafter.readers_eq.trans hbal.readers_eq,
    hafter.size_eq.trans hbal.size_eq⟩, ?_⟩
  rw [hline, hmem]

theorem Untouched.lineKept (huntouched : Untouched before m) : LineKept before m :=
  ⟨huntouched.1, by rw [huntouched.2]⟩

instance (before : Machine) (path : String) : Keeps (Untouched before) (openFile path) := by
  have : Keeps (Untouched before)
      (update fun m => { m with unknownPaths := path :: m.unknownPaths }) :=
    .of fun _ huntouched => ⟨{ huntouched.1 with }, huntouched.2⟩
  unfold openFile
  refine Parallel.next fun m => ?_
  split <;> infer_instance

instance (before : Machine) (line : String) : Keeps (Untouched before) (report line) :=
  .of fun _ huntouched => ⟨{ huntouched.1 with }, huntouched.2⟩

instance (before : Machine) (path : String) : Keeps (Untouched before) (reportLoading path) := by
  unfold reportLoading
  infer_instance

instance (outer : Machine) (reader : Reader) (fault : Fault) : Keeps (SetAside outer) (reportFailed reader fault) :=
  .of fun _ haside => haside

section Levels

variable (serve : Serve) [∀ outer request, Restores (NestedIn outer) (serve request)]

/-- A file that was loaded leaves the line that asked for it, and the source, where they were. -/
theorem lineKept_of_loadFile {fuel : Nat} {path : String} {before after : Machine}
    (hends : (loadFile serve fuel path).Ends before after) : LineKept before after := by
  have hstart : Untouched before before := ⟨.refl before, rfl⟩
  rcases hends.of_lift_bind with ⟨_, hfst⟩ | ⟨file, opened, hfst, hends⟩
  · exact (of_error hstart hfst : Untouched before after).lineKept
  have hopened : Untouched before opened := of_ok hstart hfst
  rcases hends.of_lift_bind with ⟨_, hsnd⟩ | ⟨_, told, hsnd, hends⟩
  · exact (of_error hopened hsnd : Untouched before after).lineKept
  have htold : Untouched before told := of_ok hopened hsnd
  refine htold.lineKept_of ?_
  rcases hends.of_lift_bind with ⟨_, hthird⟩ | ⟨line, read, hthird, hends⟩
  · exact (of_error ⟨.refl told, rfl⟩ hthird : Untouched told after).lineKept
  obtain ⟨hline, rfl⟩ := of_ask_eq_ok hthird
  obtain ⟨_, hcheck, hline⟩ := of_question_eq_ok hline
  have hbuffer := Memory.of_check_eq_ok hcheck
  cases hline
  refine of_suspended ⟨.refl read, rfl⟩ (fun hroom hends => ?_) hends
  rcases hends.of_bind with ⟨_, hget⟩ | ⟨_, _, hget, hends⟩
  · cases hget
  cases hget
  rcases hends.of_lift_bind with ⟨_, hupdate⟩ | ⟨_, _, hupdate, hends⟩
  · cases hupdate
  cases hupdate
  obtain ⟨middle, fault, hbody, hclean⟩ := hends.of_andAlways
  have hmid : SetAside read.suspend middle := by
    refine Restores.restores ?_ hbody
    exact ⟨rfl, rfl⟩
  cases fault with
  | none => exact lineKept_of_leave hroom hbuffer hmid hclean
  | some fault =>
    rcases hclean.of_bind with ⟨_, hget⟩ | ⟨_, _, hget, hclean⟩
    · cases hget
    cases hget
    dsimp only at hclean
    split at hclean
    · rcases hclean.of_lift_bind with ⟨_, hreport⟩ | ⟨_, _, hreport, hclean⟩
      · cases hreport
      · exact lineKept_of_leave hroom hbuffer (of_ok hmid hreport) hclean
    · exact lineKept_of_leave hroom hbuffer hmid hclean

end Levels

/-- Nested input of any depth comes back to where it started: all levels of the interpreter leave the nesting
as they find it. -/
instance (outer : Machine) (fuel : Nat) (request : Request) : Restores outer.NestedIn (serve fuel request) := by
  induction fuel generalizing outer request with
  | zero =>
    unfold serve
    infer_instance
  | succ fuel ih =>
    cases request with
    | execute token => exact inferInstanceAs (Restores _ (execute (serve fuel) fuel token))
    | evaluate text =>
      exact ⟨fun hbefore hends => (balanced_of_evaluate (serve fuel) hends).nestedIn hbefore⟩
    | load path =>
      exact ⟨fun hbefore hends => (lineKept_of_loadFile (serve fuel) hends).1.nestedIn hbefore⟩

end Interpreter

/-- Whatever a text holds that is evaluated, or a file that is loaded, and whatever either of them evaluates and
loads in turn: once the call has come back, with or without a fault, the source and the place in it are those
from before the call, and so are the sources set aside and the streams that are read. A file leaves the whole
input buffer as it was. -/
theorem nested_input_balanced {fuel : Nat} {before after : Machine} :
    (∀ text, (Interpreter.evaluate (Interpreter.serve fuel) fuel text).Ends before after →
      before.Balanced after) ∧
    ∀ path, (Session.loadFile fuel path).Ends before after →
      before.Balanced after ∧
        after.memory.bytesAt Layout.inputBuffer Layout.inputBufferSize =
          before.memory.bytesAt Layout.inputBuffer Layout.inputBufferSize :=
  ⟨fun _ hends => Interpreter.balanced_of_evaluate _ hends, fun _ hends => Interpreter.lineKept_of_loadFile _ hends⟩

section Comebacks

open Interpreter

variable {m middle after : Machine} {fuel : Nat} {body : RunM Unit} {cleanUp : Option Fault → RunM Unit}

theorem andAlways_of_ok (hbody : body m = .ok () middle) (hclean : cleanUp none middle = .ok () after) :
    RunM.andAlways body cleanUp m = .ok () after := by
  rw [RunM.andAlways, hbody]
  exact hclean

theorem andAlways_of_fault {fault : Fault} (hbody : body m = .error (.fault fault) middle)
    (hclean : cleanUp (some fault) middle = .ok () after) :
    RunM.andAlways body cleanUp m = .error (.fault fault) after := by
  simp only [RunM.andAlways, hbody, hclean]

/-- A directory can be opened, and fails when its first line is read. -/
theorem loadFile_of_directory {path : String} (hb : m.Bounded) (hquiet : m.verbose = false)
    (hrunning : m.exiting = false) (hopen : m.disk.openFile path = .ok .directory) :
    ∃ after, (Session.loadFile fuel path).Ends m after := by
  have hroom : toIn + 4 ≤ m.memory.size := by rw [hb.size_eq]; decide
  have hbuffer : inputBuffer + inputBufferSize ≤ m.memory.size := by
    rw [hb.size_eq]; decide
  have hfile : openFile path m = .ok .directory m := by
    refine (bind_of_ok rfl).trans ?_
    rw [hopen]
    rfl
  have hreport : reportLoading path m = .ok () m := by
    refine (bind_of_ok rfl).trans ?_
    rw [hquiet]
    rfl
  have hline : readBytes inputBuffer inputBufferSize m =
      .ok (m.memory.bytesAt inputBuffer inputBufferSize) m := by
    rw [readBytes, ask, Memory.readBytes_eq_ok hbuffer]
  let reader : Reader := ⟨path, 0⟩
  let inside : Machine := { m.suspend with readers := reader :: m.readers }
  have hbody : interpretLines (serve fuel) fuel [.error .isDirectory] inside =
      .error (.fault (.io DiskFault.isDirectory.message)) inside := by
    refine (bind_of_ok rfl).trans ?_
    simp only [inside, Machine.suspend, hrunning]
    rfl
  have htold : SetAside m.suspend (stateAfter (reportFailed reader (.io DiskFault.isDirectory.message)) inside) :=
    ⟨rfl, rfl⟩
  obtain ⟨after, hleave, _⟩ := leave_of_setAside hroom hbuffer htold
  refine ⟨after, .inr ⟨.io DiskFault.isDirectory.message, ?_⟩⟩
  refine (bind_of_ok (run_of_ok hfile)).trans ((bind_of_ok (run_of_ok hreport)).trans
    ((bind_of_ok (run_of_ok hline)).trans ((bind_of_ok (run_of_ok (suspendSource_of_room hroom))).trans ?_)))
  refine (bind_of_ok rfl).trans ((bind_of_ok rfl).trans ?_)
  refine andAlways_of_fault hbody ?_
  exact (bind_of_ok rfl).trans ((bind_of_ok rfl).trans hleave)

theorem evaluate_of_empty (hb : m.Bounded) :
    ∃ after, (evaluate (serve (fuel + 1)) (fuel + 1) ⟨inputBuffer, 0⟩).Ends m after := by
  have hroom : Layout.toIn + 4 ≤ m.memory.size := by rw [hb.size_eq]; decide
  have hsusp : m.suspend.Bounded := { hb with }
  have hloaded : Machine.Bounded { m.suspend with source := ⟨inputBuffer, 0⟩ } := { hb with }
  have hset : setSource ⟨inputBuffer, 0⟩ m.suspend = .ok () (withLine m.suspend []) :=
    writeCell_of_low hloaded 0 (by decide) (by decide)
  have hfits : ([] : List UInt8).length ≤ inputBufferSize := Nat.zero_le _
  obtain ⟨toIn, hend⟩ := nextToken?_of_end (reading_withLine hsusp hfits) (bounded_withLine hsusp hfits)
    (by decide)
  have hbody : (do setSource ⟨inputBuffer, 0⟩; interpretSource (serve (fuel + 1)) (fuel + 1) : RunM Unit)
      m.suspend = .ok () (Machine.readTo (withLine m.suspend []) toIn) :=
    (bind_of_ok (run_of_ok hset)).trans (interpretSource_of_end hend)
  have hnested : m.suspend.NestedIn (Machine.readTo (withLine m.suspend []) toIn) :=
    ⟨rfl, rfl, (Memory.size_setCell _ _ _).trans (sameOutside_withLine m.suspend hfits).size⟩
  obtain ⟨after, hresume, _⟩ := resumeSource_of_suspend hroom hnested
  exact ⟨after, .inl ⟨(), (bind_of_ok (run_of_ok (suspendSource_of_room hroom))).trans
    (andAlways_of_ok hbody (run_of_ok hresume))⟩⟩

end Comebacks

/-- Loading a directory, which can be opened and not read, and evaluating an empty text: both come back, the one
with a fault and the other without. -/
theorem nested_input_balanced_directory :
    let machine := Machine.new ⟨[("d", .ok .directory)]⟩ false
    (∃ after, (Session.loadFile 1 "d").Ends machine after ∧ machine.Balanced after) ∧
      ∃ after, (Interpreter.evaluate (Interpreter.serve 1) 1 ⟨Layout.inputBuffer, 0⟩).Ends machine after ∧
        machine.Balanced after := by
  intro machine
  have hbounded : machine.Bounded := Machine.bounded_new _ _
  have hopen : machine.disk.openFile "d" = .ok .directory := by
    simp [machine, Machine.new, Disk.openFile]
  have hquiet : machine.verbose = false := rfl
  have hrunning : machine.exiting = false := rfl
  clear_value machine
  obtain ⟨loaded, hload⟩ := loadFile_of_directory hbounded hquiet hrunning hopen
  obtain ⟨evaluated, hevaluate⟩ := evaluate_of_empty hbounded
  exact ⟨⟨loaded, hload, (nested_input_balanced.2 _ hload).1⟩, evaluated, hevaluate,
    nested_input_balanced.1 _ hevaluate⟩

end ThreadedForth
