
import ThreadedForth.Proofs.Structured.Thread

/-!
# Structured programs

Programs as trees: literals, data words, loop indices and calls, put together by sequence, conditionals,
loops and selections. `Prog.eval` is their direct meaning on the items of the data stack, with no code, no
addresses and no return stack; the parameters of the loops around a program are an argument. `Prog.pieces`
is how a program is written.

Loops need not end. Each may go round `fuel` times, and a loop that would go on gives no outcome at all.
-/

namespace ThreadedForth

/-! ### Runs -/

/-- A run on the items of the data stack, with no outcome if it was cut off. -/
abbrev EvalM := StateT Items (ExceptT Fault Option)

/-- How a program ends: at its end, or by leaving the innermost counted loop. -/
inductive Flow where
  | next
  | left
  deriving DecidableEq, Repr

namespace EvalM

variable {α β σ : Type}

def ofStack (action : StackM α) : EvalM α := fun items => some (action items)

def pop : EvalM Cell := ofStack StackM.pop

def effect (effect : Items → Except Fault Items) : EvalM Unit := ofStack (StackM.ofEffect effect)

/-- Go on after a program, unless it has left the loop. -/
def andThen (first : EvalM Flow) (onLeave : β) (rest : EvalM β) : EvalM β := do
  match ← first with
  | .next => rest
  | .left => return onLeave

/-- Go round, with a state, until a round gives an answer. -/
def iterate (round : σ → EvalM (σ ⊕ α)) : Nat → σ → EvalM α
  | 0, _ => fun _ => none
  | fuel + 1, state => do
    match ← round state with
    | .inl state => iterate round fuel state
    | .inr answer => return answer

end EvalM

/-! ### Programs -/

mutual

/-- A structured program. -/
inductive Prog where
  | skip
  | literal (value : Number)
  | data (word : DataWord)
  | index (outer : Bool)
  | call (name : String)
  | seq (first second : Prog)
  | ifThen (body : Prog)
  | ifElse (body other : Prog)
  | untilLoop (body : Prog)
  | againLoop (body : Prog)
  | whileLoop (test body : Prog)
  | counted (maySkip stepped : Bool) (body : Prog)
  | leave
  | case_ (arms : Arms)

/-- The clauses of a selection, and what follows the last of them. -/
inductive Arms where
  | otherwise (body : Prog)
  | clause (test body : Prog) (rest : Arms)

end

/-- The index and the limit of each counted loop around a program, innermost first. -/
abbrev Loops := List (Cell × Cell)

section Meaning

variable (calls : String → EvalM Unit) (fuel : Nat)

open EvalM

mutual

/-- The meaning of a program inside some loops. -/
def Prog.eval : Prog → Loops → EvalM Flow
  | .skip, _ => return .next
  | .literal value, _ => do
    effect (Items.pushNumber value)
    return .next
  | .data word, _ => do
    effect word.effect
    return .next
  | .index outer, loops =>
    match loops[if outer then 1 else 0]? with
    | some (index, _) => do
      effect (Items.push index)
      return .next
    | none => throw (.stackUnderflow .return)
  | .call name, _ => do
    calls name
    return .next
  | .seq first second, loops => andThen (first.eval loops) .left (second.eval loops)
  | .ifThen body, loops => do
    if (← pop) = 0 then return .next else body.eval loops
  | .ifElse body other, loops => do
    if (← pop) = 0 then other.eval loops else body.eval loops
  | .untilLoop body, loops =>
    iterate (fun _ => andThen (body.eval loops) (.inr .left) do
      if (← pop) = 0 then return .inl () else return .inr .next) fuel ()
  | .againLoop body, loops =>
    iterate (fun _ => andThen (body.eval loops) (.inr .left) (return .inl ())) fuel ()
  | .whileLoop test body, loops =>
    iterate (fun _ => andThen (test.eval loops) (.inr .left) do
      if (← pop) = 0 then return .inr .next
      else andThen (body.eval loops) (.inr .left) (return .inl ())) fuel ()
  | .counted maySkip stepped body, loops => do
    let start ← pop
    let limit ← pop
    if maySkip ∧ start = limit then return .next
    else
      iterate (fun index => andThen (body.eval ((index, limit) :: loops)) (.inr .next) do
        let step ← if stepped then pop else pure 1
        if ThreadWord.loopDone index limit step then return .inr .next
        else return .inl (index + step)) fuel start
  | .leave, _ => return .left
  | .case_ arms, loops => arms.eval loops

def Arms.eval : Arms → Loops → EvalM Flow
  | .otherwise body, loops => andThen (body.eval loops) .left do
    effect Shuffle.drop.effect
    return .next
  | .clause test body rest, loops => andThen (test.eval loops) .left do
    let candidate ← pop
    let selector ← ofStack (StackM.top 0)
    if selector = candidate then
      effect Shuffle.drop.effect
      body.eval loops
    else rest.eval loops

end

end Meaning

/-! ### Vocabularies -/

/-- Words defined by structured programs, newest first. A word calls only older ones. -/
abbrev Vocabulary := List (String × Prog)

namespace Vocabulary

/-- The name of a word, in any case. -/
def knows (vocabulary : Vocabulary) (name : String) : Bool :=
  vocabulary.any fun word => Dictionary.sameName word.1 name

/-- The meaning of the newest word called `name`, in terms of the words older than it. -/
def eval (fuel : Nat) : Vocabulary → String → EvalM Unit
  | [], name => throw (.undefinedWord name)
  | (wordName, body) :: older, name =>
    if Dictionary.sameName wordName name then do
      let _ ← body.eval (eval fuel older) fuel []
    else eval fuel older name

end Vocabulary

/-! ### What makes sense -/

section Validity

variable (vocabulary : Vocabulary)

mutual

/-- Inside `depth` counted loops, every index has its loop, every exit leaves one, and all that is called
is known. -/
def Prog.isValid : Prog → Nat → Bool
  | .skip, _ => true
  | .literal _, _ => true
  | .data _, _ => true
  | .index outer, depth => (if outer then 1 else 0) < depth
  | .call name, _ => vocabulary.knows name
  | .seq first second, depth => first.isValid depth && second.isValid depth
  | .ifThen body, depth => body.isValid depth
  | .ifElse body other, depth => body.isValid depth && other.isValid depth
  | .untilLoop body, depth => body.isValid depth
  | .againLoop body, depth => body.isValid depth
  | .whileLoop test body, depth => test.isValid depth && body.isValid depth
  | .counted _ _ body, depth => body.isValid (depth + 1)
  | .leave, depth => 0 < depth
  | .case_ arms, depth => arms.isValid depth

def Arms.isValid : Arms → Nat → Bool
  | .otherwise body, depth => body.isValid depth
  | .clause test body rest, depth => test.isValid depth && body.isValid depth && rest.isValid depth

end

end Validity

/-! ### How programs are written -/

/-- One word of a program's text. -/
inductive Piece where
  | number (value : Number)
  | word (prim : Prim)
  | call (name : String)
  deriving DecidableEq, Repr

/-- A control word of a program's text. -/
abbrev Piece.control (word : ControlWord) : Piece := .word (.control word)

mutual

/-- The words of a program's text, in order. -/
def Prog.pieces : Prog → List Piece
  | .skip => []
  | .literal value => [.number value]
  | .data word => [.word word.prim]
  | .index outer => [.word (.stack (if outer then .outerIndex else .loopIndex))]
  | .call name => [.call name]
  | .seq first second => first.pieces ++ second.pieces
  | .ifThen body => [.control .if_] ++ body.pieces ++ [.control .then_]
  | .ifElse body other =>
    [.control .if_] ++ body.pieces ++ [.control .else_] ++ other.pieces ++ [.control .then_]
  | .untilLoop body => [.control .begin] ++ body.pieces ++ [.control .until_]
  | .againLoop body => [.control .begin] ++ body.pieces ++ [.control .again]
  | .whileLoop test body =>
    [.control .begin] ++ test.pieces ++ [.control .while_] ++ body.pieces ++ [.control .repeat_]
  | .counted maySkip stepped body =>
    [.control (if maySkip then .questionDo else .do_)] ++ body.pieces ++
      [.control (if stepped then .plusLoop else .loop)]
  | .leave => [.control .leave]
  | .case_ arms => [.control .case_] ++ arms.pieces ++ [.control .endCase]

def Arms.pieces : Arms → List Piece
  | .otherwise body => body.pieces
  | .clause test body rest =>
    test.pieces ++ [.control .of_] ++ body.pieces ++ [.control .endOf] ++ rest.pieces

end

end ThreadedForth
