
import ThreadedForth.Proofs.Actions
import ThreadedForth.Session

/-!
# More fuel

A run that did not run out of fuel ends in the same way with more of it. So what a session does with enough
fuel does not depend on how much that is.
-/

namespace ThreadedForth

/-- The later run does what the earlier one does, unless that one runs out of fuel. -/
class Extends {α : Type} (earlier later : RunM α) : Prop where
  extends_ : ∀ m, (∃ after, earlier m = .error .outOfFuel after) ∨ later m = earlier m

namespace Extends

variable {α β : Type}

theorem of_ok {earlier later : RunM α} [hextends : Extends earlier later] {answer : α} {before after : Machine}
    (hearlier : earlier before = .ok answer after) : later before = .ok answer after := by
  rcases hextends.extends_ before with ⟨ended, hout⟩ | hlater
  · cases hearlier.symm.trans hout
  · exact hlater.trans hearlier

instance (priority := low) refl (run : RunM α) : Extends run run := ⟨fun _ => .inr rfl⟩

theorem outOfFuel (later : RunM α) : Extends (throw .outOfFuel) later := ⟨fun m => .inl ⟨m, rfl⟩⟩

instance bind (earlier later : RunM α) (rest more : α → RunM β) [hfst : Extends earlier later]
    [hrest : ∀ answer, Extends (rest answer) (more answer)] : Extends (earlier >>= rest) (later >>= more) := by
  refine ⟨fun m => ?_⟩
  rcases hfst.extends_ m with ⟨after, hout⟩ | hlater
  · exact .inl ⟨after, bind_of_error hout⟩
  · cases hearlier : earlier m with
    | error halt middle =>
      refine .inr ?_
      rw [bind_of_error hearlier, bind_of_error (hlater.trans hearlier)]
    | ok answer middle =>
      rw [bind_of_ok hearlier, bind_of_ok (hlater.trans hearlier)]
      exact (hrest answer).extends_ middle

instance ite (condition : Prop) [Decidable condition] (yes no more less : RunM α) [Extends yes more]
    [Extends no less] : Extends (if condition then yes else no) (if condition then more else less) := by
  split <;> infer_instance

instance andAlways (earlier later : RunM Unit) (cleanUp : Option Fault → RunM Unit) [hfst : Extends earlier later] :
    Extends (RunM.andAlways earlier cleanUp) (RunM.andAlways later cleanUp) := by
  refine ⟨fun m => ?_⟩
  unfold RunM.andAlways
  rcases hfst.extends_ m with ⟨after, hout⟩ | hlater
  · exact .inl ⟨after, by simp only [hout]⟩
  · exact .inr (by simp only [hlater])

end Extends

namespace Interpreter

section Levels

variable (serve better : Serve) [∀ request, Extends (serve request) (better request)]

instance extends_dispatch (token : Nat) : Extends (dispatch serve token) (dispatch better token) := by
  unfold dispatch
  refine @Extends.bind _ _ _ _ _ _ inferInstance fun cell => ?_
  split
  case h_5 prim _ =>
    refine @Extends.bind _ _ _ _ _ _ inferInstance fun request => ?_
    cases request <;> infer_instance
  all_goals infer_instance

variable {fuel more : Nat}

theorem extends_runThread (hfuel : fuel ≤ more) : Extends (runThread serve fuel) (runThread better more) := by
  induction fuel generalizing more with
  | zero => exact .outOfFuel _
  | succ fuel ih =>
    obtain ⟨more, rfl⟩ := Nat.exists_eq_add_one_of_ne_zero (Nat.ne_of_gt (Nat.lt_of_lt_of_le fuel.succ_pos hfuel))
    have := ih (Nat.le_of_succ_le_succ hfuel)
    unfold runThread
    infer_instance

theorem extends_execute (hfuel : fuel ≤ more) (token : Nat) :
    Extends (execute serve fuel token) (execute better more token) := by
  have := extends_runThread serve better hfuel
  have hrun : Extends (do dispatch serve token; runThread serve fuel) (do dispatch better token; runThread better more) :=
    inferInstance
  refine ⟨fun m => ?_⟩
  unfold execute
  rcases hrun.extends_ { m with ip := 0 } with ⟨after, hout⟩ | hlater
  · exact .inl ⟨_, by simp only [hout]; rfl⟩
  · exact .inr (by simp only [hlater])

instance extends_interpretToken (token : String) : Extends (interpretToken serve token) (interpretToken better token) := by
  unfold interpretToken
  refine @Extends.bind _ _ _ _ _ _ inferInstance fun compiling => ?_
  refine @Extends.bind _ _ _ _ _ _ inferInstance fun header => ?_
  split <;> infer_instance

variable (hfuel : fuel ≤ more)

include hfuel

theorem extends_interpretSource : Extends (interpretSource serve fuel) (interpretSource better more) := by
  induction fuel generalizing more with
  | zero => exact .outOfFuel _
  | succ fuel ih =>
    obtain ⟨more, rfl⟩ := Nat.exists_eq_add_one_of_ne_zero (Nat.ne_of_gt (Nat.lt_of_lt_of_le fuel.succ_pos hfuel))
    have := ih (Nat.le_of_succ_le_succ hfuel)
    unfold interpretSource
    refine @Extends.bind _ _ _ _ _ _ inferInstance fun token => ?_
    split <;> infer_instance

theorem extends_interpretLine (line : String) :
    Extends (interpretLine serve fuel line) (interpretLine better more line) := by
  have := extends_interpretSource serve better hfuel
  unfold interpretLine
  infer_instance

theorem extends_evaluate (text : Source) : Extends (evaluate serve fuel text) (evaluate better more text) := by
  have := extends_interpretSource serve better hfuel
  unfold evaluate
  infer_instance

theorem extends_interpretLines (lines : List (Except DiskFault String)) :
    Extends (interpretLines serve fuel lines) (interpretLines better more lines) := by
  induction lines with
  | nil => exact .refl _
  | cons line lines ih =>
    have := extends_interpretLine serve better hfuel
    unfold interpretLines
    cases line <;> infer_instance

theorem extends_loadFile (path : String) : Extends (loadFile serve fuel path) (loadFile better more path) := by
  have := extends_interpretLines serve better hfuel
  unfold loadFile
  infer_instance

end Levels

theorem extends_serve {fuel more : Nat} (hfuel : fuel ≤ more) (request : Request) :
    Extends (serve fuel request) (serve more request) := by
  induction fuel generalizing more request with
  | zero => exact .outOfFuel _
  | succ fuel ih =>
    obtain ⟨more, rfl⟩ := Nat.exists_eq_add_one_of_ne_zero (Nat.ne_of_gt (Nat.lt_of_lt_of_le fuel.succ_pos hfuel))
    have hless := Nat.le_of_succ_le_succ hfuel
    have := fun request => ih hless request
    cases request with
    | execute token => exact extends_execute _ _ hless token
    | evaluate text => exact extends_evaluate _ _ hless text
    | load path => exact extends_loadFile _ _ hless path

end Interpreter

namespace Session

variable {fuel more : Nat}

theorem extends_interpretLine (hfuel : fuel ≤ more) (line : String) :
    Extends (interpretLine fuel line) (interpretLine more line) := by
  have := fun request => Interpreter.extends_serve hfuel request
  exact Interpreter.extends_interpretLine _ _ hfuel line

theorem extends_interpretEach (hfuel : fuel ≤ more) (lines : List String) :
    Extends (lines.forM (interpretLine fuel)) (lines.forM (interpretLine more)) := by
  induction lines with
  | nil => exact .refl _
  | cons line lines ih =>
    have := extends_interpretLine hfuel line
    exact Extends.bind _ _ _ _

end Session

end ThreadedForth
