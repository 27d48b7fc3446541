
import ThreadedForth.Interpreter

/-!
# Actions

How an action of several steps is taken apart. An action gives an answer or a fault, and a state
either way: run forward, the first step decides which rest is run; run backward, an action that
gave an answer did so in each of its steps.
-/

namespace ThreadedForth

variable {ε σ α β : Type}

theorem bind_of_ok {first : EStateM ε σ α} {rest : α → EStateM ε σ β} {before after : σ} {answer : α}
    (hfst : first before = .ok answer after) : (first >>= rest) before = rest answer after := by
  change EStateM.bind first rest before = _
  rw [EStateM.bind, hfst]

theorem bind_of_error {first : EStateM ε σ α} {rest : α → EStateM ε σ β} {before after : σ} {fault : ε}
    (hfst : first before = .error fault after) : (first >>= rest) before = .error fault after := by
  change EStateM.bind first rest before = _
  rw [EStateM.bind, hfst]

theorem discard_of_ok {first : EStateM ε σ α} {before after : σ} {answer : α}
    (hfst : first before = .ok answer after) : (discard first : EStateM ε σ PUnit) before = .ok ⟨⟩ after := by
  change EStateM.map _ first before = _
  rw [EStateM.map, hfst]

theorem discard_of_error {first : EStateM ε σ α} {before after : σ} {problem : ε}
    (hfst : first before = .error problem after) : (discard first : EStateM ε σ PUnit) before = .error problem after := by
  change EStateM.map _ first before = _
  rw [EStateM.map, hfst]

theorem of_bind_eq_ok {first : EStateM ε σ α} {rest : α → EStateM ε σ β} {before after : σ} {answer : β}
    (hbind : (first >>= rest) before = .ok answer after) :
    ∃ found middle, first before = .ok found middle ∧ rest found middle = .ok answer after := by
  cases hfst : first before with
  | ok found middle =>
    rw [bind_of_ok hfst] at hbind
    exact ⟨found, middle, rfl, hbind⟩
  | error fault middle =>
    rw [bind_of_error hfst] at hbind
    cases hbind

theorem of_bind_eq_error {first : EStateM ε σ α} {rest : α → EStateM ε σ β} {before after : σ}
    {fault : ε} (hbind : (first >>= rest) before = .error fault after) :
    first before = .error fault after ∨
      ∃ found middle, first before = .ok found middle ∧ rest found middle = .error fault after := by
  cases hfst : first before with
  | ok found middle =>
    rw [bind_of_ok hfst] at hbind
    exact .inr ⟨found, middle, rfl, hbind⟩
  | error other middle =>
    rw [bind_of_error hfst] at hbind
    cases hbind
    exact .inl rfl

theorem of_question_eq_ok {first : Except ε α} {rest : α → Except ε β} {answer : β}
    (hbind : (first >>= rest) = .ok answer) : ∃ found, first = .ok found ∧ rest found = .ok answer := by
  cases first with
  | ok found => exact ⟨found, rfl, hbind⟩
  | error fault => cases hbind

end ThreadedForth
