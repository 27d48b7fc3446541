
import ThreadedForth.Proofs.Structured.Instruction
import ThreadedForth.Proofs.Structured.Program

/-!
# Structured code

`Prog.CodeAt` says that the code of a structured program stands at an address, every branch landing where
its structure says. A thread that enters the code does what the program means: it comes to the end of the
code, or to where the loop around it ends, with the items the program leaves; it ends in the fault of the
program; or it goes on for as long as the program does. The one exception is a return stack that overflows,
which programs have nothing of.
-/

namespace ThreadedForth

open Layout EvalM

/-! ### Threads that run -/

section Running

variable (cells : Nat → Cell)

/-- A number of instructions leads from one point of a thread to another. -/
inductive Leads : Nat → Thread → Thread → Prop where
  | refl (thread : Thread) : Leads 0 thread thread
  | step {count : Nat} {thread next last : Thread} {op : Op} (hop : OpAt cells thread.ip op)
      (hrun : op.run { thread with ip := thread.ip + op.size } = .ok next)
      (hrest : Leads count next last) : Leads (count + 1) thread last

/-- The thread comes to an instruction that ends in the fault. -/
def Fails (fault : Fault) (thread : Thread) : Prop :=
  ∃ count last op, Leads cells count thread last ∧ OpAt cells last.ip op ∧
    op.run { last with ip := last.ip + op.size } = .error fault

/-- The thread realizes an outcome. An answer is one of several ways for the thread to go on, each with its
`goal` and the `least` number of instructions that lead there; a run that was cut off takes `fuel`
instructions at least. -/
def Attains {α : Type} (fuel : Nat) (least : α → Nat) (goal : α → Items → Thread) (thread : Thread)
    (outcome : Option (Except Fault (α × Items))) : Prop :=
  Fails cells (.stackOverflow .return) thread ∨
    match outcome with
    | none => ∃ count last, fuel ≤ count ∧ Leads cells count thread last
    | some (.error fault) => Fails cells fault thread
    | some (.ok (answer, items)) => ∃ count, least answer ≤ count ∧ Leads cells count thread (goal answer items)

end Running

variable {cells : Nat → Cell}

variable {middle : Thread} {caller : Nat}

theorem Leads.trans {first second : Nat} {thread last : Thread} (hfst : Leads cells first thread middle)
    (hsnd : Leads cells second middle last) : Leads cells (first + second) thread last := by
  induction hfst with
  | refl => rwa [Nat.zero_add]
  | step hop hrun _ ih =>
    rw [Nat.add_right_comm]
    exact .step hop hrun (ih hsnd)

theorem Fails.after {fault : Fault} {count : Nat} {thread : Thread}
    (hleads : Leads cells count thread middle) (hfails : Fails cells fault middle) : Fails cells fault thread := by
  obtain ⟨rest, last, op, hlast, hop, hrun⟩ := hfails
  exact ⟨count + rest, last, op, hleads.trans hlast, hop, hrun⟩

namespace Attains

variable {α β σ : Type} {fuel : Nat} {least : β → Nat} {goal : β → Items → Thread} {thread next : Thread}
  {op : Op} {outcome : Option (Except Fault (β × Items))}

theorem after {count : Nat} {fewer : β → Nat} (hleads : Leads cells count thread next)
    (hattains : Attains cells fuel fewer goal next outcome) (hleast : ∀ answer, least answer ≤ count + fewer answer) :
    Attains cells fuel least goal thread outcome := by
  rcases hattains with hover | hrest
  · exact .inl (hover.after hleads)
  · refine .inr ?_
    match outcome with
    | none =>
      obtain ⟨rest, last, hfuel, hlast⟩ := hrest
      exact ⟨count + rest, last, by omega, hleads.trans hlast⟩
    | some (.error fault) => exact Fails.after hleads hrest
    | some (.ok (answer, items)) =>
      obtain ⟨rest, hfewer, hlast⟩ := hrest
      have hmore := hleast answer
      exact ⟨count + rest, by omega, hleads.trans hlast⟩

variable {items : Items}

theorem arrive {answer : β} (hthread : thread = goal answer items) (hleast : least answer = 0) :
    Attains cells fuel least goal thread (some (.ok (answer, items))) := by
  refine .inr ⟨0, Nat.le_of_eq hleast, ?_⟩
  rw [hthread]
  exact .refl _

theorem step (hop : OpAt cells thread.ip op) (hrun : op.run { thread with ip := thread.ip + op.size } = .ok next)
    (hattains : Attains cells fuel (fun answer => least answer - 1) goal next outcome) :
    Attains cells fuel least goal thread outcome :=
  hattains.after (.step hop hrun (.refl next)) fun _ => by omega

section

variable (hop : OpAt cells thread.ip op)

include hop

theorem fault {fault : Fault} (hrun : op.run { thread with ip := thread.ip + op.size } = .error fault) :
    Attains cells fuel least goal thread (some (.error fault)) :=
  .inr ⟨0, thread, op, .refl thread, hop, hrun⟩

theorem overflow (hrun : op.run { thread with ip := thread.ip + op.size } = .error (.stackOverflow .return)) :
    Attains cells fuel least goal thread outcome :=
  .inl ⟨0, thread, op, .refl thread, hop, hrun⟩

theorem answer {answer : β} (hrun : op.run { thread with ip := thread.ip + op.size } = .ok (goal answer items))
    (hleast : least answer ≤ 1) : Attains cells fuel least goal thread (some (.ok (answer, items))) :=
  .inr ⟨1, hleast, .step hop hrun (.refl _)⟩

end

theorem follow {further : β → Items → Thread} (hattains : Attains cells fuel least goal thread outcome)
    (hfurther : ∀ answer items, ∃ count, Leads cells count (goal answer items) (further answer items)) :
    Attains cells fuel least further thread outcome := by
  rcases hattains with hover | hrest
  · exact .inl hover
  · refine .inr ?_
    match outcome with
    | none => exact hrest
    | some (.error fault) => exact hrest
    | some (.ok (answer, items)) =>
      obtain ⟨count, hcount, hleads⟩ := hrest
      obtain ⟨more, hmore⟩ := hfurther answer items
      exact ⟨count + more, by omega, hleads.trans hmore⟩

theorem bind {first : EvalM α} {rest : α → EvalM β} {items : Items} {between : α → Items → Thread}
    (hfst : Attains cells fuel (fun _ => 0) between thread (first items))
    (hrest : ∀ answer items, Attains cells fuel least goal (between answer items) (rest answer items)) :
    Attains cells fuel least goal thread ((first >>= rest) items) := by
  have hbind : (first >>= rest) items =
      match first items with
      | none => none
      | some (.error fault) => some (.error fault)
      | some (.ok (answer, items)) => rest answer items := by
    change ((first items).bind _) = _
    match first items with
    | none | some (.error fault) | some (.ok (answer, items)) => rfl
  rw [hbind]
  generalize first items = result at hfst
  rcases hfst with hover | hmid
  · exact .inl hover
  match result with
  | none => exact .inr hmid
  | some (.error fault) => exact .inr hmid
  | some (.ok (answer, items)) =>
    obtain ⟨count, _, hleads⟩ := hmid
    exact (hrest answer items).after hleads fun _ => Nat.le_add_left _ _

/-- A loop whose rounds come back to its entry after one instruction at least. -/
theorem iterate (entry : σ → Items → Thread) {round : σ → EvalM (σ ⊕ β)}
    (hround : ∀ state items, Attains cells fuel (Sum.elim (fun _ => 1) fun _ => 0) (Sum.elim entry goal)
      (entry state items) (round state items)) (state : σ) (items : Items) :
    Attains cells fuel (fun _ => 0) goal (entry state items) (iterate round fuel state items) := by
  suffices hmany : ∀ rounds, rounds ≤ fuel → ∀ state items,
      Attains cells rounds (fun _ => 0) goal (entry state items) (EvalM.iterate round rounds state items) from
    hmany fuel (Nat.le_refl fuel) state items
  intro rounds
  induction rounds with
  | zero => exact fun _ state items => .inr ⟨0, entry state items, Nat.zero_le _, .refl _⟩
  | succ rounds ih =>
    intro hrounds state items
    have hunfold : EvalM.iterate round (rounds + 1) state items =
        match round state items with
        | none => none
        | some (.error fault) => some (.error fault)
        | some (.ok (.inl state, items)) => EvalM.iterate round rounds state items
        | some (.ok (.inr answer, items)) => some (.ok (answer, items)) := by
      change ((round state items).bind _) = _
      match round state items with
      | none | some (.error fault) | some (.ok (.inl state, items)) | some (.ok (.inr answer, items)) => rfl
    rw [hunfold]
    have hstep := hround state items
    generalize round state items = result at hstep
    rcases hstep with hover | hstep
    · exact .inl hover
    match result with
    | none =>
      obtain ⟨count, last, hfuel, hleads⟩ := hstep
      exact .inr ⟨count, last, by omega, hleads⟩
    | some (.error fault) => exact .inr hstep
    | some (.ok (.inr answer, items)) => exact .inr hstep
    | some (.ok (.inl state, items)) =>
      obtain ⟨count, hcount, hleads⟩ := hstep
      -- the instructions of this round make up for the round that the rest has less
      have hrest := ih (by omega) state items
      change Attains cells _ _ goal _ (EvalM.iterate round rounds state items)
      generalize EvalM.iterate round rounds state items = result at hrest
      rcases hrest with hover | hrest
      · exact .inl (hover.after hleads)
      refine .inr ?_
      match result with
      | none =>
        obtain ⟨more, last, hmore, hlast⟩ := hrest
        simp only [Sum.elim_inl] at hcount
        exact ⟨count + more, last, by omega, hleads.trans hlast⟩
      | some (.error fault) => exact Fails.after hleads hrest
      | some (.ok (answer, items)) =>
        obtain ⟨more, _, hlast⟩ := hrest
        exact ⟨count + more, Nat.zero_le _, hleads.trans hlast⟩

theorem andThen {first : EvalM Flow} {rest : EvalM β} {onLeave : β}
    {between : Flow → Items → Thread} (hfst : Attains cells fuel (fun _ => 0) between thread (first items))
    (hleave : ∀ items, between .left items = goal onLeave items) (hleast : least onLeave = 0)
    (hrest : ∀ items, Attains cells fuel least goal (between .next items) (rest items)) :
    Attains cells fuel least goal thread (andThen first onLeave rest items) := by
  refine hfst.bind fun flow items => ?_
  cases flow with
  | next => exact hrest items
  | left => exact arrive (hleave items) hleast

theorem effect {effect : Items → Except Fault Items} (hop : OpAt cells thread.ip op)
    (hrun : op.run { thread with ip := thread.ip + op.size } =
      do return { thread with ip := thread.ip + op.size, items := ← effect thread.items }) :
    Attains cells fuel (fun _ => 0) (fun _ items => { thread with ip := thread.ip + op.size, items }) thread
      (EvalM.effect effect thread.items) := by
  rw [EvalM.effect, ofStack, StackM.ofEffect]
  cases heffect : effect thread.items with
  | error fault =>
    rw [heffect] at hrun
    exact Attains.fault hop hrun
  | ok items =>
    rw [heffect] at hrun
    exact answer hop hrun (Nat.zero_le 1)

end Attains

/-! ### Code -/

mutual

/-- Where code that starts at an address ends. -/
def Prog.finish : Prog → Nat → Nat
  | .skip, address => address
  | .literal value, address => address + (Op.number value).size
  | .data _, address => address + 4
  | .index _, address => address + 4
  | .call _, address => address + 4
  | .seq first second, address => second.finish (first.finish address)
  | .ifThen body, address => body.finish (address + 8)
  | .ifElse body other, address => other.finish (body.finish (address + 8) + 8)
  | .untilLoop body, address => body.finish address + 8
  | .againLoop body, address => body.finish address + 8
  | .whileLoop test body, address => body.finish (test.finish address + 8) + 8
  | .counted _ _ body, address => body.finish (address + 8) + 8
  | .leave, address => address + 4 + 8
  | .case_ arms, address => arms.finish address + 4

/-- Where the clauses end. What was to be selected is dropped there. -/
def Arms.finish : Arms → Nat → Nat
  | .otherwise body, address => body.finish address
  | .clause test body rest, address => rest.finish (body.finish (test.finish address + 8) + 8)

end

section Code

variable (cells : Nat → Cell) (resolve : String → Option Nat)

mutual

/-- The code of the program stands at the address. To leave the loop around it is to go to `out`. -/
def Prog.CodeAt : Prog → Nat → Nat → Prop
  | .skip, _, _ => True
  | .literal value, address, _ => OpAt cells address (.number value)
  | .data word, address, _ => OpAt cells address (.data word)
  | .index outer, address, _ => OpAt cells address (.index outer)
  | .call name, address, _ => ∃ token, resolve name = some token ∧ OpAt cells address (.call token)
  | .seq first second, address, out =>
    first.CodeAt address out ∧ second.CodeAt (first.finish address) out
  | .ifThen body, address, out =>
    OpAt cells address (.jumpIfZero (body.finish (address + 8))) ∧ body.CodeAt (address + 8) out
  | .ifElse body other, address, out =>
    let middle := body.finish (address + 8)
    OpAt cells address (.jumpIfZero (middle + 8)) ∧ body.CodeAt (address + 8) out ∧
      OpAt cells middle (.jump (other.finish (middle + 8))) ∧ other.CodeAt (middle + 8) out
  | .untilLoop body, address, out =>
    body.CodeAt address out ∧ OpAt cells (body.finish address) (.jumpIfZero address)
  | .againLoop body, address, out =>
    body.CodeAt address out ∧ OpAt cells (body.finish address) (.jump address)
  | .whileLoop test body, address, out =>
    let middle := test.finish address
    test.CodeAt address out ∧ OpAt cells middle (.jumpIfZero (body.finish (middle + 8) + 8)) ∧
      body.CodeAt (middle + 8) out ∧ OpAt cells (body.finish (middle + 8)) (.jump address)
  | .counted maySkip stepped body, address, _ =>
    let last := body.finish (address + 8)
    OpAt cells address (.enter maySkip (last + 8)) ∧ body.CodeAt (address + 8) (last + 8) ∧
      OpAt cells last (.advance stepped (address + 8))
  | .leave, address, out => OpAt cells address .unloop ∧ OpAt cells (address + 4) (.jump out)
  | .case_ arms, address, out =>
    arms.CodeAt address out (arms.finish address + 4) ∧
      OpAt cells (arms.finish address) (.data (.shuffle .drop))

/-- As for programs; a clause that was taken goes to `done`. -/
def Arms.CodeAt : Arms → Nat → Nat → Nat → Prop
  | .otherwise body, address, out, _ => body.CodeAt address out
  | .clause test body rest, address, out, done =>
    let middle := test.finish address
    let last := body.finish (middle + 8)
    test.CodeAt address out ∧ OpAt cells middle (.testOf (last + 8)) ∧ body.CodeAt (middle + 8) out ∧
      OpAt cells last (.jump done) ∧ rest.CodeAt (last + 8) out done

end

end Code

/-! ### What code does -/

/-- The loops around a program as they stand on the return stack. -/
def Loops.parameters : Loops → List Cell
  | [] => []
  | (index, limit) :: outer => index :: limit :: parameters outer

/-- Where code goes on: at its end, or where the innermost loop ends, whose parameters are then gone. -/
def landing (finish out : Nat) (loops : Loops) (returns : List Cell) : Flow → Items → Thread
  | .next, items => ⟨finish, items, Loops.parameters loops ++ returns⟩
  | .left, items => ⟨out, items, Loops.parameters loops.tail ++ returns⟩

/-- Whatever is called does what its name means, and comes back to its caller. -/
def Serves (cells : Nat → Cell) (resolve : String → Option Nat) (calls : String → EvalM Unit) (fuel : Nat) : Prop :=
  ∀ name token, resolve name = some token → ∀ (caller : Nat) (items : Items) (returns : List Cell),
    caller ≤ dictionaryEnd →
      Attains cells fuel (fun _ => 0) (fun _ items => ⟨caller, items, returns⟩)
        ⟨Header.body token, items, Cell.ofNat caller :: returns⟩ (calls name items)

section Meaning

variable {resolve : String → Option Nat} {calls : String → EvalM Unit} {fuel : Nat} {vocabulary : Vocabulary}
  {addr out : Nat} {loops : Loops} {returns : List Cell}

theorem parameters_index {outer : Bool} {index limit : Cell}
    (hloop : loops[if outer then 1 else 0]? = some (index, limit)) :
    (Loops.parameters loops ++ returns)[if outer then 2 else 0]? = some index := by
  match loops, outer with
  | [], _ => cases outer <;> cases hloop
  | _ :: _, false =>
    cases hloop
    rfl
  | [_], true => cases hloop
  | _ :: _ :: _, true =>
    cases hloop
    rfl

theorem attains_index {outer : Bool} (hop : OpAt cells addr (.index outer))
    (hdepth : (if outer then 1 else 0) < loops.length) (items : Items) :
    Attains cells fuel (fun _ => 0) (landing (addr + 4) out loops returns)
      ⟨addr, items, Loops.parameters loops ++ returns⟩ ((Prog.index outer).eval calls fuel loops items) := by
  obtain ⟨⟨index, limit⟩, hloop⟩ : ∃ loop, loops[if outer then 1 else 0]? = some loop :=
    ⟨_, List.getElem?_eq_getElem hdepth⟩
  have hindex := @parameters_index loops returns outer _ _ hloop
  rw [Prog.eval, hloop]
  have hpush := @Attains.effect cells fuel ⟨addr, items, Loops.parameters loops ++ returns⟩ _
    (Items.push index) hop (by simp only [Op.run, hindex])
  exact hpush.bind fun _ items => .arrive rfl rfl

theorem attains_call {name : String} (hserves : Serves cells resolve calls fuel)
    (hcode : (Prog.call name).CodeAt cells resolve addr out) (items : Items) :
    Attains cells fuel (fun _ => 0) (landing (addr + 4) out loops returns)
      ⟨addr, items, Loops.parameters loops ++ returns⟩ ((Prog.call name).eval calls fuel loops items) := by
  obtain ⟨token, htoken, hop⟩ := hcode
  have hcaller : addr + 4 ≤ dictionaryEnd := hop.range
  rw [Prog.eval]
  by_cases hroom : (Loops.parameters loops ++ returns).length < returnCells
  · refine .step hop (by rw [Op.run, if_pos hroom]) ?_
    exact (hserves name token htoken (addr + 4) items _ hcaller).bind fun _ items => .arrive rfl rfl
  · exact .overflow hop (by rw [Op.run, if_neg hroom])

variable {target : Nat} {values : List Cell} {goal : Flow → Items → Thread}

theorem attains_branch {β : Type} {least : β → Nat} {goal : β → Items → Thread}
    {whenZero otherwise : EvalM β} (hop : OpAt cells addr (.jumpIfZero target))
    (hzero : ∀ items, Attains cells fuel (fun answer => least answer - 1) goal ⟨target, items, values⟩
      (whenZero items))
    (hother : ∀ items, Attains cells fuel (fun answer => least answer - 1) goal ⟨addr + 8, items, values⟩
      (otherwise items))
    (items : Items) :
    Attains cells fuel least goal ⟨addr, items, values⟩
      ((do if (← EvalM.pop) = 0 then whenZero else otherwise : EvalM β) items) := by
  cases items with
  | nil => exact .fault hop rfl
  | cons flag rest =>
    change Attains cells fuel least goal _ ((if flag = 0 then whenZero else otherwise) rest)
    by_cases hflag : flag = 0
    · rw [if_pos hflag]
      exact .step hop (by simp only [Op.run, if_pos hflag]) (hzero rest)
    · rw [if_neg hflag]
      exact .step hop (by simp only [Op.run, if_neg hflag]; rfl) (hother rest)

theorem attains_testOf {taken rest : EvalM Flow} (hop : OpAt cells addr (.testOf target))
    (htaken : ∀ items, Attains cells fuel (fun _ => 0) goal ⟨addr + 8, items, values⟩ (taken items))
    (hrest : ∀ items, Attains cells fuel (fun _ => 0) goal ⟨target, items, values⟩ (rest items)) (items : Items) :
    Attains cells fuel (fun _ => 0) goal ⟨addr, items, values⟩
      ((do
        let candidate ← pop
        let selector ← ofStack (StackM.top 0)
        if selector = candidate then
          EvalM.effect Shuffle.drop.effect
          taken
        else rest : EvalM Flow) items) := by
  match items with
  | [] => exact .fault hop rfl
  | [_] => exact .fault hop rfl
  | candidate :: selector :: below =>
    change Attains cells fuel _ goal _ ((if selector = candidate then do
      EvalM.effect Shuffle.drop.effect
      taken else rest : EvalM Flow) (selector :: below))
    by_cases hequal : selector = candidate
    · rw [if_pos hequal]
      exact .step hop (by simp only [Op.run, if_pos hequal]; rfl) (htaken below)
    · rw [if_neg hequal]
      exact .step hop (by simp only [Op.run, if_neg hequal]) (hrest (selector :: below))

theorem attains_enter {maySkip : Bool}
    {passed : EvalM Flow} {looping : Cell → Cell → EvalM Flow} (hop : OpAt cells addr (.enter maySkip target))
    (hpassed : ∀ items, Attains cells fuel (fun _ => 0) goal ⟨target, items, values⟩ (passed items))
    (hlooping : ∀ start limit items, Attains cells fuel (fun _ => 0) goal
      ⟨addr + 8, items, start :: limit :: values⟩ (looping start limit items)) (items : Items) :
    Attains cells fuel (fun _ => 0) goal ⟨addr, items, values⟩
      ((do
        let start ← pop
        let limit ← pop
        if maySkip ∧ start = limit then passed else looping start limit : EvalM Flow) items) := by
  match items with
  | [] => exact .fault hop rfl
  | [_] => exact .fault hop rfl
  | start :: limit :: below =>
    change Attains cells fuel _ goal _ ((if maySkip ∧ start = limit then passed else looping start limit) below)
    by_cases hskip : maySkip ∧ start = limit
    · rw [if_pos hskip]
      exact .step hop (by simp only [Op.run, if_pos hskip]) (hpassed below)
    rw [if_neg hskip]
    by_cases hroom : values.length + 2 ≤ returnCells
    · exact .step hop (by simp only [Op.run, if_neg hskip, if_pos hroom]; rfl) (hlooping start limit below)
    · exact .overflow hop (by simp only [Op.run, if_neg hskip, if_neg hroom])

section Counting

variable {stepped : Bool} {target : Nat} {index limit : Cell} {values : List Cell} {goal : Flow → Items → Thread}

theorem attains_stepLoop {step : Cell} {before items : Items} (hop : OpAt cells addr (.advance stepped target))
    (hrun : (Op.advance stepped target).run ⟨addr + 8, before, index :: limit :: values⟩ =
      Thread.stepLoop step target ⟨addr + 8, items, index :: limit :: values⟩)
    (hgoal : goal .next items = ⟨addr + 8, items, values⟩) :
    Attains cells fuel (Sum.elim (fun _ => 1) fun _ => 0)
      (Sum.elim (fun index items => ⟨target, items, index :: limit :: values⟩) goal)
      ⟨addr, before, index :: limit :: values⟩
      ((if ThreadWord.loopDone index limit step then return .inr .next
        else return .inl (index + step) : EvalM (Cell ⊕ Flow)) items) := by
  by_cases hdone : ThreadWord.loopDone index limit step
  · rw [if_pos hdone]
    refine .step hop (hrun.trans (by simp only [Thread.stepLoop, if_pos hdone]; rfl)) ?_
    exact .arrive hgoal.symm rfl
  · rw [if_neg hdone]
    refine .step hop (hrun.trans (by simp only [Thread.stepLoop, if_neg hdone]; rfl)) ?_
    exact .arrive rfl rfl

theorem attains_advance (hop : OpAt cells addr (.advance stepped target))
    (hgoal : ∀ items, goal .next items = ⟨addr + 8, items, values⟩) (items : Items) :
    Attains cells fuel (Sum.elim (fun _ => 1) fun _ => 0)
      (Sum.elim (fun index items => ⟨target, items, index :: limit :: values⟩) goal)
      ⟨addr, items, index :: limit :: values⟩
      ((do
        let step ← if stepped then pop else pure 1
        if ThreadWord.loopDone index limit step then return .inr .next
        else return .inl (index + step) : EvalM (Cell ⊕ Flow)) items) := by
  cases stepped with
  | false => exact attains_stepLoop hop rfl (hgoal items)
  | true =>
    cases items with
    | nil => exact .fault hop rfl
    | cons step rest => exact attains_stepLoop hop rfl (hgoal rest)

end Counting

theorem landing_jump {last : Nat} (hop : OpAt cells last (.jump target)) (flow : Flow) (items : Items) :
    ∃ count, Leads cells count (landing last out loops returns flow items)
      (landing target out loops returns flow items) := by
  cases flow with
  | next => exact ⟨1, .step hop rfl (.refl _)⟩
  | left => exact ⟨0, .refl _⟩

mutual

/-- Code does what its program means. -/
theorem Prog.attains (hserves : Serves cells resolve calls fuel) :
    ∀ (prog : Prog) (addr out : Nat) (loops : Loops) (returns : List Cell) (items : Items),
      prog.CodeAt cells resolve addr out → prog.isValid vocabulary loops.length = true →
        Attains cells fuel (fun _ => 0) (landing (prog.finish addr) out loops returns)
          ⟨addr, items, Loops.parameters loops ++ returns⟩ (prog.eval calls fuel loops items)
  | .skip, _, _, _, _, _, _, _ => .arrive rfl rfl
  | .literal value, addr, out, loops, returns, items, hcode, _ => by
    have hpush := @Attains.effect cells fuel ⟨addr, items, Loops.parameters loops ++ returns⟩ _
      (Items.pushNumber value) hcode rfl
    exact hpush.bind fun _ items => .arrive rfl rfl
  | .data word, addr, out, loops, returns, items, hcode, _ => by
    have hword := @Attains.effect cells fuel ⟨addr, items, Loops.parameters loops ++ returns⟩ _
      word.effect hcode rfl
    exact hword.bind fun _ items => .arrive rfl rfl
  | .index outer, _, _, _, _, items, hcode, hvalid => attains_index hcode (of_decide_eq_true hvalid) items
  | .call name, _, _, _, _, items, hcode, _ => attains_call hserves hcode items
  | .seq first second, addr, out, loops, returns, items, hcode, hvalid => by
    have ⟨hfst, hsnd⟩ := Bool.and_eq_true_iff.1 hvalid
    exact .andThen (first.attains hserves addr out loops returns items hcode.1 hfst) (fun _ => rfl) rfl
      fun items => second.attains hserves _ out loops returns items hcode.2 hsnd
  | .ifThen body, addr, out, loops, returns, items, hcode, hvalid => by
    rw [Prog.eval]
    refine attains_branch hcode.1 (fun items => ?_) (fun items => ?_) items
    · exact .arrive rfl rfl
    · exact body.attains hserves _ out loops returns items hcode.2 hvalid
  | .ifElse body other, addr, out, loops, returns, items, hcode, hvalid => by
    have ⟨hbody, hother⟩ := Bool.and_eq_true_iff.1 hvalid
    rw [Prog.eval]
    refine attains_branch hcode.1 (fun items => ?_) (fun items => ?_) items
    · exact other.attains hserves _ out loops returns items hcode.2.2.2 hother
    · have hattains := body.attains hserves _ out loops returns items hcode.2.1 hbody
      exact hattains.follow (landing_jump hcode.2.2.1)
  | .untilLoop body, addr, out, loops, returns, items, hcode, hvalid => by
    rw [Prog.eval]
    refine Attains.iterate (fun _ items => ⟨addr, items, loops.parameters ++ returns⟩) (fun _ items => ?_) () items
    refine .andThen (body.attains hserves addr out loops returns items hcode.1 hvalid) (fun _ => rfl) rfl
      fun items => ?_
    refine attains_branch hcode.2 (fun items => ?_) (fun items => ?_) items
    · exact .arrive rfl rfl
    · exact .arrive rfl rfl
  | .againLoop body, addr, out, loops, returns, items, hcode, hvalid => by
    rw [Prog.eval]
    refine Attains.iterate (fun _ items => ⟨addr, items, loops.parameters ++ returns⟩) (fun _ items => ?_) () items
    refine .andThen (body.attains hserves addr out loops returns items hcode.1 hvalid) (fun _ => rfl) rfl
      fun items => ?_
    exact .answer hcode.2 rfl (Nat.le_refl 1)
  | .whileLoop test body, addr, out, loops, returns, items, hcode, hvalid => by
    have ⟨htest, hbody⟩ := Bool.and_eq_true_iff.1 hvalid
    rw [Prog.eval]
    refine Attains.iterate (fun _ items => ⟨addr, items, loops.parameters ++ returns⟩) (fun _ items => ?_) () items
    refine .andThen (test.attains hserves addr out loops returns items hcode.1 htest) (fun _ => rfl) rfl
      fun items => ?_
    refine attains_branch hcode.2.1 (fun items => ?_) (fun items => ?_) items
    · exact .arrive rfl rfl
    · refine .andThen (body.attains hserves _ out loops returns items hcode.2.2.1 hbody) (fun _ => rfl) rfl
        fun items => ?_
      exact .answer hcode.2.2.2 rfl (Nat.zero_le 1)
  | .counted maySkip stepped body, addr, out, loops, returns, items, hcode, hvalid => by
    rw [Prog.eval]
    refine attains_enter hcode.1 (fun items => ?_) (fun start limit items => ?_) items
    · exact .arrive rfl rfl
    refine Attains.iterate (fun index items => ⟨addr + 8, items, index :: limit :: (loops.parameters ++ returns)⟩)
      (fun index items => ?_) start items
    refine .andThen (body.attains hserves (addr + 8) _ ((index, limit) :: loops) returns items hcode.2.1 hvalid)
      (fun _ => rfl) rfl fun items => ?_
    exact attains_advance hcode.2.2 (fun _ => rfl) items
  | .leave, addr, out, loops, returns, items, hcode, hvalid => by
    cases loops with
    | nil => cases hvalid
    | cons loop outer => exact .step hcode.1 rfl (.answer hcode.2 rfl (Nat.zero_le 1))
  | .case_ arms, addr, out, loops, returns, items, hcode, hvalid =>
    arms.attains hserves addr out loops returns items hcode.1 hcode.2 rfl hvalid

theorem Arms.attains (hserves : Serves cells resolve calls fuel) :
    ∀ (arms : Arms) (addr out : Nat) (loops : Loops) (returns : List Cell) (items : Items) {last : Nat},
      arms.CodeAt cells resolve addr out (last + 4) → OpAt cells last (.data (.shuffle .drop)) →
        arms.finish addr = last → arms.isValid vocabulary loops.length = true →
          Attains cells fuel (fun _ => 0) (landing (last + 4) out loops returns)
            ⟨addr, items, loops.parameters ++ returns⟩ (arms.eval calls fuel loops items)
  | .otherwise body, addr, out, loops, returns, items, _, hcode, hdrop, hlast, hvalid => by
    rw [Arms.eval]
    refine .andThen (body.attains hserves addr out loops returns items hcode hvalid) (fun _ => rfl) rfl
      fun items => ?_
    have hdropped := @Attains.effect cells fuel ⟨body.finish addr, items, loops.parameters ++ returns⟩ _
      Shuffle.drop.effect (hlast ▸ hdrop) rfl
    refine hdropped.bind fun _ items => .arrive ?_ rfl
    rw [← hlast]
    rfl
  | .clause test body rest, addr, out, loops, returns, items, _, hcode, hdrop, hlast, hvalid => by
    have ⟨hboth, hrest⟩ := Bool.and_eq_true_iff.1 hvalid
    have ⟨htest, hbody⟩ := Bool.and_eq_true_iff.1 hboth
    rw [Arms.eval]
    refine .andThen (test.attains hserves addr out loops returns items hcode.1 htest) (fun _ => rfl) rfl
      fun items => ?_
    refine attains_testOf hcode.2.1 (fun items => ?_) (fun items => ?_) items
    · have hattains := body.attains hserves _ out loops returns items hcode.2.2.1 hbody
      exact hattains.follow (landing_jump hcode.2.2.2.1)
    · exact rest.attains hserves _ out loops returns items hcode.2.2.2.2 hdrop hlast hrest

end

end Meaning

/-! ### Words -/

theorem Op.run_exit {ip : Nat} {items : Items} {returns : List Cell} (hcaller : caller ≤ dictionaryEnd) :
    exit.run ⟨ip, items, Cell.ofNat caller :: returns⟩ = .ok ⟨caller, items, returns⟩ := by
  have horder := Layout.order
  have hnat : (Cell.ofNat caller).toNatClampNeg = caller := Cell.toNatClampNeg_ofNat (by omega)
  have hneg : ¬ Cell.ofNat caller < 0 := Cell.ofNat_not_neg (by omega)
  have hvalid : ¬ (Cell.ofNat caller < 0 ∨ memorySize ≤ (Cell.ofNat caller).toNatClampNeg) := by
    rw [hnat]
    exact fun hbad => hbad.elim hneg (by omega)
  rw [run]
  simp only [if_neg hvalid]
  rw [hnat]

theorem Prog.attains_exit {body : Prog} {resolve : String → Option Nat} {calls : String → EvalM Unit} {fuel first : Nat}
    {vocabulary : Vocabulary} (hserves : Serves cells resolve calls fuel) (hvalid : body.isValid vocabulary 0 = true)
    (hcode : body.CodeAt cells resolve first (body.finish first)) (hexit : OpAt cells (body.finish first) .exit)
    (hcaller : caller ≤ dictionaryEnd) (items : Items) (returns : List Cell) :
    Attains cells fuel (fun _ => 0) (fun _ items => ⟨caller, items, returns⟩)
      ⟨first, items, Cell.ofNat caller :: returns⟩ (body.eval calls fuel [] items) := by
  have hbody := body.attains hserves _ _ [] (Cell.ofNat caller :: returns) items hcode hvalid
  refine hbody.follow fun flow items => ?_
  cases flow <;> exact ⟨1, .step hexit (Op.run_exit hcaller) (.refl _)⟩

/-- A word of a vocabulary in a dictionary. -/
structure Compiled where
  name : String
  body : Prog
  token : Nat

namespace Compiled

def vocabulary (words : List Compiled) : Vocabulary := words.map fun word => (word.name, word.body)

/-- The token that a name stands for. -/
def resolve (words : List Compiled) (name : String) : Option Nat :=
  (words.find? fun word => Dictionary.sameName word.name name).map token

/-- Where the code of the word ends and the return from it stands. -/
def last (word : Compiled) : Nat := word.body.finish (Header.body word.token)

variable {fuel : Nat} {word : Compiled}

theorem attains {resolve : String → Option Nat} {calls : String → EvalM Unit}
    {vocabulary : Vocabulary} (hserves : Serves cells resolve calls fuel)
    (hvalid : word.body.isValid vocabulary 0 = true)
    (hcode : word.body.CodeAt cells resolve (Header.body word.token) word.last) (hexit : OpAt cells word.last .exit)
    {caller : Nat} (hcaller : caller ≤ dictionaryEnd) (items : Items) (returns : List Cell) :
    Attains cells fuel (fun _ => 0) (fun _ items => ⟨caller, items, returns⟩)
      ⟨Header.body word.token, items, Cell.ofNat caller :: returns⟩ (word.body.eval calls fuel [] items) :=
  word.body.attains_exit hserves hvalid hcode hexit hcaller items returns

theorem serves_cons {older : List Compiled} (hserves : Serves cells (resolve older) ((vocabulary older).eval fuel) fuel)
    (hvalid : word.body.isValid (vocabulary older) 0 = true)
    (hcode : word.body.CodeAt cells (resolve older) (Header.body word.token) word.last)
    (hexit : OpAt cells word.last .exit) :
    Serves cells (resolve (word :: older)) ((vocabulary (word :: older)).eval fuel) fuel := by
  intro name token hresolve caller items returns hcaller
  have hunfold : (vocabulary (word :: older)).eval fuel name =
      if Dictionary.sameName word.name name then do
        let _ ← word.body.eval ((vocabulary older).eval fuel) fuel []
      else (vocabulary older).eval fuel name := rfl
  rw [resolve, List.find?_cons] at hresolve
  rw [hunfold]
  cases hname : Dictionary.sameName word.name name with
  | false =>
    rw [hname] at hresolve
    exact hserves name token hresolve caller items returns hcaller
  | true =>
    rw [hname] at hresolve
    cases hresolve
    rw [if_pos rfl]
    exact Attains.bind (attains hserves hvalid hcode hexit hcaller items returns) fun _ items => .arrive rfl rfl

end Compiled

end ThreadedForth
