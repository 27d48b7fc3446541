
import ThreadedForth.Proofs.Actions
import ThreadedForth.Session

/-!
# Runs side by side

Two runs end together if both give the same answer, or both fail with the same fault, and the states they leave are
related. `Parallel` says that an action, run from related states, ends together. It is a class, so that an action put
together from such steps is found to be one by following the way it is put together.
-/

namespace ThreadedForth

variable {ε σ α β : Type} {related middle : σ → σ → Prop} {first second : σ}

/-- Two runs end in the same way, and leave related states. -/
def EndTogether (related : σ → σ → Prop) : EStateM.Result ε σ α → EStateM.Result ε σ α → Prop
  | .ok answer first, .ok other second => answer = other ∧ related first second
  | .error cause first, .error other second => cause = other ∧ related first second
  | _, _ => False

namespace EndTogether

theorem cases {result other : EStateM.Result ε σ α} (htog : EndTogether related result other) :
    (∃ answer first second, result = .ok answer first ∧ other = .ok answer second ∧ related first second) ∨
      ∃ cause first second, result = .error cause first ∧ other = .error cause second ∧ related first second := by
  cases result <;> cases other <;> simp only [EndTogether] at htog
  · obtain ⟨rfl, hrelated⟩ := htog
    exact .inl ⟨_, _, _, rfl, rfl, hrelated⟩
  · obtain ⟨rfl, hrelated⟩ := htog
    exact .inr ⟨_, _, _, rfl, rfl, hrelated⟩

theorem mono {result other : EStateM.Result ε σ α} (htog : EndTogether middle result other)
    (hmono : ∀ first second, middle first second → related first second) : EndTogether related result other := by
  cases result <;> cases other <;> simp only [EndTogether] at htog ⊢
  · exact ⟨htog.1, hmono _ _ htog.2⟩
  · exact ⟨htog.1, hmono _ _ htog.2⟩

/-- Two runs go on alike after their first steps. What relates the states in between may be more than what relates
them in the end. -/
theorem bind {action other : EStateM ε σ α} {rest more : α → EStateM ε σ β}
    (hfst : EndTogether middle (action first) (other second))
    (hmono : ∀ first second, middle first second → related first second)
    (hrest : ∀ answer first second, middle first second →
      EndTogether related (rest answer first) (more answer second)) :
    EndTogether related ((action >>= rest) first) ((other >>= more) second) := by
  rcases hfst.cases with ⟨answer, _, _, hact, hother, hmid⟩ | ⟨cause, _, _, hact, hother, hmid⟩
  · rw [bind_of_ok hact, bind_of_ok hother]
    exact hrest _ _ _ hmid
  · rw [bind_of_error hact, bind_of_error hother]
    exact ⟨rfl, hmono _ _ hmid⟩

theorem ask {related : Machine → Machine → Prop} {first second : Machine} {question : Machine → Except Fault α}
    (hquestion : question first = question second) (hrelated : related first second) :
    EndTogether related (WordM.ask question first) (WordM.ask question second) := by
  rw [WordM.ask, WordM.ask, hquestion]
  cases question second <;> exact ⟨rfl, hrelated⟩

theorem run {related : Machine → Machine → Prop} {first second : Machine} {action other : WordM α}
    (htog : EndTogether related (action first) (other second)) :
    EndTogether related ((liftM action : RunM α) first) ((liftM other : RunM α) second) := by
  change EndTogether related (WordM.run action first) (WordM.run other second)
  rw [WordM.run, WordM.run]
  rcases htog.cases with ⟨answer, _, _, hfst, hsnd, hends⟩ | ⟨cause, _, _, hfst, hsnd, hends⟩ <;>
    (rw [hfst, hsnd]; exact ⟨rfl, hends⟩)

end EndTogether

/-- From related states the action ends together. -/
class Parallel (related : σ → σ → Prop) (action : EStateM ε σ α) : Prop where
  parallel : ∀ first second, related first second → EndTogether related (action first) (action second)

namespace Parallel

instance pure (answer : α) : Parallel related (Pure.pure answer : EStateM ε σ α) :=
  ⟨fun _ _ hrelated => ⟨rfl, hrelated⟩⟩

instance throw (fault : ε) : Parallel related (MonadExcept.throw fault : EStateM ε σ α) :=
  ⟨fun _ _ hrelated => ⟨rfl, hrelated⟩⟩

instance bind (action : EStateM ε σ α) (rest : α → EStateM ε σ β) [Parallel related action]
    [∀ answer, Parallel related (rest answer)] : Parallel related (action >>= rest) := by
  refine ⟨fun first second hrelated => ?_⟩
  exact (‹Parallel related action›.parallel first second hrelated).bind (fun _ _ hmid => hmid)
    fun answer => (‹∀ answer, Parallel related (rest answer)› answer).parallel

theorem next {action : EStateM ε σ α} {rest : α → EStateM ε σ β} [Parallel related action]
    (hrest : ∀ answer, Parallel related (rest answer)) : Parallel related (action >>= rest) :=
  bind action rest

/-- What an action sees of the whole state it may use as long as related states make it go on alike. -/
theorem get_bind {rest : σ → EStateM ε σ α}
    (hrest : ∀ first second, related first second → EndTogether related (rest first first) (rest second second)) :
    Parallel related (MonadState.get >>= rest) :=
  ⟨hrest⟩

theorem discard_eq_bind (action : EStateM ε σ α) :
    Functor.discard action = (action >>= fun _ => Pure.pure PUnit.unit) :=
  rfl

instance discard (action : EStateM ε σ α) [Parallel related action] : Parallel related (Functor.discard action) := by
  rw [discard_eq_bind]
  infer_instance

instance ite (condition : Prop) [Decidable condition] (action other : EStateM ε σ α) [Parallel related action]
    [Parallel related other] : Parallel related (if condition then action else other) := by
  split <;> assumption

instance forM (items : List α) (visit : α → EStateM ε σ PUnit) [∀ item, Parallel related (visit item)] :
    Parallel related (items.forM visit) := by
  induction items with
  | nil => exact Parallel.pure _
  | cons item rest ih => exact Parallel.bind (visit item) fun _ => rest.forM visit

section Machines

variable {related : Machine → Machine → Prop}

theorem ask {question : Machine → Except Fault α}
    (hquestion : ∀ first second, related first second → question first = question second) :
    Parallel related (WordM.ask question) :=
  ⟨fun first second hrelated => .ask (hquestion first second hrelated) hrelated⟩

instance askConst (answer : Except Fault α) : Parallel related (WordM.ask fun _ => answer) :=
  ask fun _ _ _ => rfl

theorem update {change : Machine → Machine}
    (hchange : ∀ first second, related first second → related (change first) (change second)) :
    Parallel related (WordM.update change) :=
  ⟨fun first second hrelated => ⟨rfl, hchange first second hrelated⟩⟩

instance run (action : WordM α) [Parallel related action] : Parallel related action.run :=
  ⟨fun first second hrelated => (‹Parallel related action›.parallel first second hrelated).run⟩

instance lift (action : WordM α) [Parallel related action] : Parallel related (liftM action : RunM α) :=
  inferInstanceAs (Parallel related action.run)

instance complete (action : WordM Unit) [Parallel related action] : Parallel related action.complete := by
  unfold WordM.complete
  infer_instance

end Machines

end Parallel

end ThreadedForth
