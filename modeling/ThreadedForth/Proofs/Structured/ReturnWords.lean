
import ThreadedForth.Proofs.Structured.Instruction

/-!
# Words of the return stack

Cells go from the data stack to the return stack and back, or are copied from it. What stands on the return stack
may as well be where a word returns to, so that these words can lead a thread away from its code.
-/

namespace ThreadedForth

open WordM Plays

/-- The stack words that use the return stack. -/
inductive Transfer where
  | toR | rFrom | rFetch | twoToR | twoRFrom | twoRFetch | loopIndex | outerIndex
  deriving DecidableEq, Repr

/-- The items of the data stack and of the return stack. -/
abbrev Stacks := Items × List Cell

namespace Stacks

/-- A cell on the return stack. -/
def send (value : Cell) (both : Stacks) : Except Fault Stacks :=
  if both.2.length < Layout.returnCells then .ok (both.1, value :: both.2)
  else .error (.stackOverflow .return)

/-- A cell on the data stack. -/
def receive (value : Cell) (both : Stacks) : Except Fault Stacks := do
  return (← Items.push value both.1, both.2)

/-- A copy of a cell of the return stack. -/
def copy (place : Nat) (both : Stacks) : Except Fault Stacks :=
  match both.2[place]? with
  | some value => both.receive value
  | none => .error (.stackUnderflow .return)

end Stacks

namespace Transfer

def word : Transfer → StackWord
  | toR => .toR
  | rFrom => .rFrom
  | rFetch => .rFetch
  | twoToR => .twoToR
  | twoRFrom => .twoRFrom
  | twoRFetch => .twoRFetch
  | loopIndex => .loopIndex
  | outerIndex => .outerIndex

/-- What the word does to the stacks. -/
def effect : Transfer → Stacks → Except Fault Stacks
  | toR, (value :: items, returns) => Stacks.send value (items, returns)
  | rFrom, (items, value :: returns) => Stacks.receive value (items, returns)
  | twoToR, (second :: first :: items, returns) => Stacks.send first (items, returns) >>= Stacks.send second
  | twoRFrom, (items, second :: first :: returns) => Stacks.receive first (items, returns) >>= Stacks.receive second
  | twoRFetch, (items, second :: first :: returns) =>
    Stacks.receive first (items, second :: first :: returns) >>= Stacks.receive second
  | rFetch, both => both.copy 0
  | loopIndex, both => both.copy 0
  | outerIndex, both => both.copy 2
  | toR, _ | twoToR, _ => .error (.stackUnderflow .data)
  | rFrom, _ | twoRFrom, _ | twoRFetch, _ => .error (.stackUnderflow .return)

end Transfer

/-! ### On a machine -/

/-- The thread with other stacks. -/
def Thread.withStacks (thread : Thread) (both : Stacks) : Thread :=
  { thread with items := both.1, returns := both.2 }

/-- The action does to the stacks of the thread what a function on them does. -/
def Moves (base : Machine) (action : WordM Unit) (thread : Thread) (result : Except Fault Stacks) : Prop :=
  Plays base action thread (result.map fun both => ((), thread.withStacks both))

section Moving

variable {base : Machine} {ip : Nat} {items : Items} {returns : List Cell}

variable {action : WordM Unit}

theorem Moves.complete {thread : Thread} {result : Except Fault Stacks}
    (hmoves : Moves base action thread result) :
    Plays base (complete action) thread (result.map fun both => (none, thread.withStacks both)) := by
  cases result with
  | error fault => exact bind_error hmoves
  | ok both => exact bind hmoves (pure none)

theorem Moves.andThen {rest : WordM Unit} {first : Except Fault Stacks} {next : Stacks → Except Fault Stacks}
    (hfst : Moves base action ⟨ip, items, returns⟩ first)
    (hrest : ∀ both : Stacks, Moves base rest ⟨ip, both.1, both.2⟩ (next both)) :
    Moves base (do action; rest) ⟨ip, items, returns⟩ (first >>= next) := by
  cases first with
  | error fault => exact bind_error hfst
  | ok both => exact bind hfst (hrest both)

theorem moves_send (value : Cell) :
    Moves base (pushReturn value) ⟨ip, items, returns⟩ (Stacks.send value (items, returns)) := by
  rw [Stacks.send]
  by_cases hroom : returns.length < Layout.returnCells
  · rw [if_pos hroom]
    exact plays_pushReturn_of_room value hroom
  · rw [if_neg hroom]
    exact plays_pushReturn_of_full value (Nat.le_of_not_lt hroom)

theorem moves_receive (value : Cell) :
    Moves base (push value) ⟨ip, items, returns⟩ (Stacks.receive value (items, returns)) := by
  have hplays := @ofEffect base ⟨ip, items, returns⟩ _ _ (denotes_push value)
  rw [Stacks.receive]
  cases hpush : Items.push value items with
  | error fault =>
    rw [hpush] at hplays
    exact hplays
  | ok pushed =>
    rw [hpush] at hplays
    exact hplays

theorem moves_copy (place : Nat) :
    Moves base (do push (← topReturn place)) ⟨ip, items, returns⟩ (Stacks.copy place (items, returns)) := by
  have htop := @plays_topReturn base ⟨ip, items, returns⟩ place
  rw [Stacks.copy]
  cases hplace : returns[place]? with
  | none =>
    rw [hplace] at htop
    exact htop.bind_error
  | some value =>
    rw [hplace] at htop
    exact htop.bind (moves_receive value)

/-- A word of the return stack does to the stacks what it should. -/
theorem Transfer.moves (word : Transfer) :
    Moves base word.word.perform ⟨ip, items, returns⟩ (word.effect (items, returns)) := by
  cases word with
  | toR =>
    match items with
    | [] => exact (pop_of_empty rfl).bind_error
    | value :: rest => exact (pop rfl).bind (moves_send value)
  | rFrom =>
    match returns with
    | [] => exact (plays_popReturn_of_empty rfl).bind_error
    | value :: rest => exact (plays_popReturn rfl).bind (moves_receive value)
  | rFetch => exact moves_copy 0
  | loopIndex => exact moves_copy 0
  | outerIndex => exact moves_copy 2
  | twoToR =>
    have hneed := denotes_need 2 base ⟨ip, items, returns⟩
    match items with
    | [] | [_] => exact bind_error hneed
    | second :: first :: rest =>
      rw [StackM.onThread, StackM.need, if_neg (by simp)] at hneed
      refine bind hneed ((pop rfl).bind ((pop rfl).bind ?_))
      exact (moves_send first).andThen fun _ => moves_send second
  | twoRFrom =>
    have hneed := @plays_needReturn base ⟨ip, items, returns⟩ 2
    rcases returns with _ | ⟨second, _ | ⟨first, rest⟩⟩
    · exact bind_error hneed
    · exact bind_error hneed
    · rw [if_neg (by simp)] at hneed
      refine hneed.bind ((plays_popReturn rfl).bind ((plays_popReturn rfl).bind ?_))
      exact (moves_receive first).andThen fun _ => moves_receive second
  | twoRFetch =>
    have hfst := @plays_topReturn base ⟨ip, items, returns⟩ 0
    have hsnd := @plays_topReturn base ⟨ip, items, returns⟩ 1
    rcases returns with _ | ⟨second, _ | ⟨first, rest⟩⟩
    · exact bind_error hfst
    · exact bind hfst (bind_error hsnd)
    · exact bind hfst (bind hsnd ((moves_receive first).andThen fun _ => moves_receive second))

end Moving

end ThreadedForth
