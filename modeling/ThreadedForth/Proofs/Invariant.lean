
import ThreadedForth.Proofs.Parallel

/-!
# Invariants of actions

An action keeps an invariant if it leaves a state where the invariant holds, whether it gives an answer
or fails. A run that is compared with itself says no more and no less, so what holds of actions that run in parallel
holds of invariants too.
-/

namespace ThreadedForth

variable {ε σ α β : Type} {holds : σ → Prop}

/-- The state an action leaves, however it ends. -/
def stateAfter (action : EStateM ε σ α) (before : σ) : σ :=
  match action before with
  | .ok _ after => after
  | .error _ after => after

theorem stateAfter_of_ok {action : EStateM ε σ α} {before after : σ} {answer : α}
    (hact : action before = .ok answer after) : stateAfter action before = after := by
  rw [stateAfter, hact]

theorem stateAfter_of_error {action : EStateM ε σ α} {before after : σ} {fault : ε}
    (hact : action before = .error fault after) : stateAfter action before = after := by
  rw [stateAfter, hact]

/-- The two states are the same, and the invariant holds there. -/
def Diagonal (holds : σ → Prop) (first second : σ) : Prop := first = second ∧ holds first

/-- The action leaves a state where the invariant holds, if it starts in one: it runs in parallel with itself. -/
abbrev Keeps (holds : σ → Prop) (action : EStateM ε σ α) : Prop := Parallel (Diagonal holds) action

namespace Keeps

variable {action : EStateM ε σ α} {before after : σ}

theorem of (hkeeps : ∀ before, holds before → holds (stateAfter action before)) : Keeps holds action := by
  refine ⟨fun before _ hsame => ?_⟩
  obtain ⟨rfl, hbefore⟩ := hsame
  have hafter := hkeeps before hbefore
  unfold stateAfter at hafter
  cases hact : action before <;> (rw [hact] at hafter; exact ⟨rfl, rfl, hafter⟩)

theorem keeps (hkeeps : Keeps holds action) (before : σ) (hbefore : holds before) :
    holds (stateAfter action before) := by
  have hends := hkeeps.parallel before before ⟨rfl, hbefore⟩
  unfold stateAfter
  cases hact : action before <;> (rw [hact] at hends; exact hends.2.2)

theorem of_ok [hkeeps : Keeps holds action] {answer : α} (hbefore : holds before)
    (hact : action before = .ok answer after) : holds after :=
  stateAfter_of_ok hact ▸ hkeeps.keeps before hbefore

theorem of_error [hkeeps : Keeps holds action] {fault : ε} (hbefore : holds before)
    (hact : action before = .error fault after) : holds after :=
  stateAfter_of_error hact ▸ hkeeps.keeps before hbefore

instance get : Keeps holds (MonadState.get : EStateM ε σ σ) := .of fun _ hbefore => hbefore

theorem of_question {action : EStateM ε σ β} (question : σ → Except ε α) (rest : α → EStateM ε σ β)
    [hrest : ∀ answer, Keeps holds (rest answer)]
    (hok : ∀ before answer, question before = .ok answer → action before = rest answer before)
    (herror : ∀ before fault, question before = .error fault → action before = .error fault before) :
    Keeps holds action := by
  refine .of fun before hbefore => ?_
  cases hquestion : question before with
  | ok answer =>
    rw [stateAfter, hok before answer hquestion]
    exact (hrest answer).keeps before hbefore
  | error fault =>
    rw [stateAfter_of_error (herror before fault hquestion)]
    exact hbefore

end Keeps

/-! ### Actions on the machine that change nothing -/

namespace WordM

variable {holds : Machine → Prop}

instance (question : Machine → Except Fault α) : Keeps holds (ask question) := by
  refine .of fun before hbefore => ?_
  rw [stateAfter, ask]
  cases question before <;> exact hbefore

instance (depth : Nat) : Keeps holds (top depth) := inferInstanceAs (Keeps _ (ask _))

instance (count : Nat) : Keeps holds (need count) := inferInstanceAs (Keeps _ (ask _))

instance (depth : Nat) : Keeps holds (topReturn depth) := inferInstanceAs (Keeps _ (ask _))

instance (count : Nat) : Keeps holds (needReturn count) := inferInstanceAs (Keeps _ (ask _))

instance (addr : Nat) : Keeps holds (readCell addr) := inferInstanceAs (Keeps _ (ask _))

instance (addr length : Nat) : Keeps holds (readBytes addr length) :=
  inferInstanceAs (Keeps _ (ask _))

instance : Keeps holds isCompiling := by
  unfold isCompiling
  infer_instance

instance : Keeps holds here := inferInstanceAs (Keeps _ (ask _))

instance : Keeps holds markerDepth := inferInstanceAs (Keeps _ (ask _))

instance : Keeps holds topTag := inferInstanceAs (Keeps _ (ask _))

end WordM

instance {holds : Machine → Prop} : Keeps holds DefiningWord.latest :=
  inferInstanceAs (Keeps _ (WordM.ask _))

theorem Prim.stateAfter_complete (action : WordM Unit) (m : Machine) :
    stateAfter action.complete m = stateAfter action m := by
  cases hact : action m with
  | ok answer after =>
    rw [stateAfter_of_ok hact, stateAfter, WordM.complete, bind_of_ok hact]
    rfl
  | error fault after =>
    rw [stateAfter_of_error hact, stateAfter, WordM.complete, bind_of_error hact]

end ThreadedForth
