
import ThreadedForth.Proofs.Machine.Lockstep

/-!
# What no word sees

A program does not see what is set aside, which streams are read, or what was reported. Machines that differ in
nothing else do the same, whatever word they perform.
-/

namespace ThreadedForth

open WordM

variable {α : Type}

/-- The machines differ at most in what is set aside, in the streams that are read, and in the reports. -/
def Machine.Beside (first second : Machine) : Prop :=
  ∃ suspended readers reports, second = { first with suspended, readers, reports }

namespace Machine.Beside

/-! ### Steps -/

theorem ask {question : Machine → Except Fault α}
    (hquestion : ∀ (m : Machine) suspended readers reports,
      question { m with suspended, readers, reports } = question m) : Parallel Beside (WordM.ask question) := by
  refine Parallel.ask fun first second hbeside => ?_
  obtain ⟨_, _, _, rfl⟩ := hbeside
  exact (hquestion _ _ _ _).symm

theorem update {change : Machine → Machine}
    (hchange : ∀ (m : Machine) suspended readers reports,
      (change m).Beside (change { m with suspended, readers, reports })) : Parallel Beside (WordM.update change) := by
  refine Parallel.update fun first second hbeside => ?_
  obtain ⟨_, _, _, rfl⟩ := hbeside
  exact hchange _ _ _ _

instance (step : MemoryM α) : Parallel Beside (onMemory step) := by
  refine ⟨fun first second hbeside => ?_⟩
  obtain ⟨_, _, _, rfl⟩ := hbeside
  rw [onMemory, onMemory]
  cases step first.memory <;> exact ⟨rfl, _, _, _, rfl⟩

instance (step : Dictionary → MemoryM (α × Dictionary)) : Parallel Beside (onDictionary step) := by
  refine ⟨fun first second hbeside => ?_⟩
  obtain ⟨_, _, _, rfl⟩ := hbeside
  rw [onDictionary, onDictionary]
  cases step first.dictionary first.memory <;> exact ⟨rfl, _, _, _, rfl⟩

instance (step : Dictionary → Except Fault Dictionary) : Parallel Beside (moveHere step) := by
  refine ⟨fun first second hbeside => ?_⟩
  obtain ⟨_, _, _, rfl⟩ := hbeside
  rw [moveHere, moveHere]
  cases step first.dictionary <;> exact ⟨rfl, _, _, _, rfl⟩

theorem pushing (step : Stack → MemoryM Stack) : Parallel Beside (pushing step) := by
  refine ⟨fun first second hbeside => ?_⟩
  obtain ⟨_, _, _, rfl⟩ := hbeside
  rw [WordM.pushing, WordM.pushing]
  cases step first.data first.memory <;> exact ⟨rfl, _, _, _, rfl⟩

theorem popping (step : Stack → Memory → Except Fault (α × Stack)) : Parallel Beside (WordM.popping step) := by
  refine ⟨fun first second hbeside => ?_⟩
  obtain ⟨_, _, _, rfl⟩ := hbeside
  rw [WordM.popping, WordM.popping]
  cases step first.data first.memory <;> exact ⟨rfl, _, _, _, rfl⟩

instance (value : Cell) : Parallel Beside (pushControl value) := by
  refine ⟨fun first second hbeside => ?_⟩
  obtain ⟨_, _, _, rfl⟩ := hbeside
  rw [pushControl, pushControl]
  cases first.control.push value first.memory <;> exact ⟨rfl, _, _, _, rfl⟩

instance : Parallel Beside popControl := by
  refine ⟨fun first second hbeside => ?_⟩
  obtain ⟨_, _, _, rfl⟩ := hbeside
  rw [popControl, popControl]
  cases first.control.pop first.memory <;> exact ⟨rfl, _, _, _, rfl⟩

instance : Lasting Beside where
  ask hquestion := ask hquestion
  update hchange := update fun m suspended readers reports => by
    obtain ⟨-, told, htold⟩ := hchange m suspended readers reports
    exact ⟨_, _, told, htold⟩
  push _ := pushing _
  pop := popping _
  pushDouble _ := pushing _
  popDouble := popping _
  rollUp _ := pushing _
  clear := update fun _ _ _ _ => ⟨_, _, _, rfl⟩
  top _ := ask fun _ _ _ _ => rfl
  need _ := ask fun _ _ _ _ => rfl
  depth := ask fun _ _ _ _ => rfl
  pushReturn value := by
    refine ⟨fun first second hbeside => ?_⟩
    obtain ⟨_, _, _, rfl⟩ := hbeside
    rw [pushReturn, pushReturn]
    cases first.returns.push value first.memory <;> exact ⟨rfl, _, _, _, rfl⟩
  popReturn := by
    refine ⟨fun first second hbeside => ?_⟩
    obtain ⟨_, _, _, rfl⟩ := hbeside
    rw [popReturn, popReturn]
    cases first.returns.pop first.memory <;> exact ⟨rfl, _, _, _, rfl⟩
  topReturn _ := ask fun _ _ _ _ => rfl
  needReturn _ := ask fun _ _ _ _ => rfl
  pokeReturn depth value := by
    refine ⟨fun first second hbeside => ?_⟩
    obtain ⟨_, _, _, rfl⟩ := hbeside
    rw [pokeReturn, pokeReturn]
    cases first.returns.poke depth value first.memory <;> exact ⟨rfl, _, _, _, rfl⟩
  markerDepth := ask fun _ _ _ _ => rfl
  topTag := ask fun _ _ _ _ => rfl
  pushMarker marker := by
    have : Parallel Beside (WordM.ask fun m =>
        if m.control.capacity - m.control.depth < 2 then .error (.stackOverflow .control) else .ok ()) :=
      ask fun _ _ _ _ => rfl
    unfold pushMarker
    infer_instance
  popMarker := by
    have : Parallel Beside markerDepth := ask fun _ _ _ _ => rfl
    have (addr : Cell) (tag : Option Tag) : Parallel Beside (match tag with
        | some tag => pure ⟨tag, Cell.toAddress addr⟩
        | none => throw .nesting : WordM Marker) := by
      cases tag <;> infer_instance
    unfold popMarker
    infer_instance
  setUser _ _ := inferInstanceAs (Parallel _ (onMemory _))
  fillInput _ := inferInstance
  fillPad _ _ _ := inferInstance
  fillNumber _ := inferInstance
  comma _ := inferInstanceAs (Parallel _ (onDictionary _))
  commaByte _ := inferInstanceAs (Parallel _ (onDictionary _))
  align := inferInstance
  onMemory _ _ := inferInstance
  create _ _ _ := inferInstance
  createNameless _ := inferInstance
  allot _ := inferInstance

end Machine.Beside

end ThreadedForth
