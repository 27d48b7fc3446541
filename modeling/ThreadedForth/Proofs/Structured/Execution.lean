
import ThreadedForth.Proofs.Interpreter.Fuel
import ThreadedForth.Proofs.Structured.Simulation

/-!
# Executing structured code

A thread of structured code is run by the inner interpreter, one instruction a round. So what is proved of
threads holds of words that are executed: with enough fuel they end as their programs do, and with as much fuel
as was not enough for the program they do not end either.
-/

namespace ThreadedForth

open WordM Interpreter

/-! ### Code is aligned -/

section Aligned

variable {cells other : Nat → Cell} {addr : Nat} {op : Op}

theorem OpAt.congr (hsame : ∀ addr, addr % 4 = 0 → other addr = cells addr)
    (hop : OpAt cells addr op) : OpAt other addr op := by
  have hmod := hop.isAligned
  refine ⟨hop.pos, hmod, hop.range, (hsame addr hmod).trans hop.token, fun place value hplace => ?_, ?_⟩
  · exact (hsame _ (by omega)).trans (hop.operands place value hplace)
  · cases op with
    | call token => exact ⟨hop.sound.1, hop.sound.2.1, (hsame token hop.sound.1).trans hop.sound.2.2⟩
    | _ => exact hop.sound

variable {thread : Thread} {fuel : Nat}

variable (hsame : ∀ addr, addr % 4 = 0 → other addr = cells addr)

include hsame

theorem Leads.congr {count : Nat} {last : Thread} (hleads : Leads cells count thread last) :
    Leads other count thread last := by
  induction hleads with
  | refl thread => exact .refl thread
  | step hop hrun _ ih => exact .step (hop.congr hsame) hrun ih

theorem Fails.congr {fault : Fault} (hfails : Fails cells fault thread) : Fails other fault thread := by
  obtain ⟨count, last, op, hleads, hop, hrun⟩ := hfails
  exact ⟨count, last, op, hleads.congr hsame, hop.congr hsame, hrun⟩

theorem Attains.congr {α : Type} {least : α → Nat} {goal : α → Items → Thread}
    {outcome : Option (Except Fault (α × Items))}
    (hattains : Attains cells fuel least goal thread outcome) : Attains other fuel least goal thread outcome := by
  rcases hattains with hover | hrest
  · exact .inl (hover.congr hsame)
  · refine .inr ?_
    match outcome with
    | none =>
      obtain ⟨count, last, hfuel, hleads⟩ := hrest
      exact ⟨count, last, hfuel, hleads.congr hsame⟩
    | some (.error fault) => exact Fails.congr hsame hrest
    | some (.ok (answer, items)) =>
      obtain ⟨count, hcount, hleads⟩ := hrest
      exact ⟨count, hcount, hleads.congr hsame⟩

theorem Serves.congr {resolve : String → Option Nat} {calls : String → EvalM Unit} (hserves : Serves cells resolve calls fuel) :
    Serves other resolve calls fuel :=
  fun name token hresolve caller items returns hcaller =>
    (hserves name token hresolve caller items returns hcaller).congr hsame

end Aligned

/-! ### Threads in the inner interpreter -/

section Running

variable {base m : Machine} {thread last : Thread}

theorem Leads.runThread {count : Nat} (hpr : Primed base.memory.cellAt)
    (hleads : Leads base.memory.cellAt count thread last) (hfol : Follows base thread m) :
    ∃ after, Follows base last after ∧ ∀ serve fuel,
      runThread serve (fuel + count) m = runThread serve fuel after := by
  induction hleads generalizing m with
  | refl thread => exact ⟨m, hfol, fun _ _ => rfl⟩
  | step hop hrun _ ih =>
    have hround := hop.runThread_eq hpr hfol
    rw [hrun] at hround
    obtain ⟨next, hnext, hone⟩ := hround
    obtain ⟨after, hafter, hrest⟩ := ih hnext
    exact ⟨after, hafter, fun serve fuel => (hone serve _).trans (hrest serve fuel)⟩

theorem Leads.calm {count fuel : Nat} (serve : Serve) (hpr : Primed base.memory.cellAt)
    (hleads : Leads base.memory.cellAt count thread last) (hfol : Follows base thread m) (hfuel : fuel ≤ count) :
    ∃ after, base.Calm after ∧ Interpreter.runThread serve fuel m = .error .outOfFuel after := by
  induction hleads generalizing m fuel with
  | refl thread =>
    obtain rfl := Nat.le_zero.1 hfuel
    exact ⟨m, hfol.calm, rfl⟩
  | step hop hrun _ ih =>
    cases fuel with
    | zero => exact ⟨m, hfol.calm, rfl⟩
    | succ fuel =>
      have hround := hop.runThread_eq hpr hfol
      rw [hrun] at hround
      obtain ⟨next, hnext, hone⟩ := hround
      obtain ⟨after, hcalm, hcut⟩ := ih hnext (Nat.le_of_succ_le_succ hfuel)
      exact ⟨after, hcalm, (hone serve fuel).trans hcut⟩

theorem Fails.calm {fault : Fault} (hpr : Primed base.memory.cellAt)
    (hfails : Fails base.memory.cellAt fault thread) (hfol : Follows base thread m) :
    ∃ count after, base.Calm after ∧
      (∀ serve fuel, runThread serve (fuel + count) m = .error (.fault fault) after) ∧
      ∀ serve fuel, fuel < count →
        ∃ cut, base.Calm cut ∧ runThread serve fuel m = .error .outOfFuel cut := by
  obtain ⟨count, last, op, hleads, hop, hrun⟩ := hfails
  obtain ⟨middle, hmid, hmost⟩ := hleads.runThread hpr hfol
  have hround := hop.runThread_eq hpr hmid
  rw [hrun] at hround
  obtain ⟨after, hcalm, herror⟩ := hround
  refine ⟨1 + count, after, hcalm, fun serve fuel => ?_, fun serve fuel hfuel => ?_⟩
  · rw [← Nat.add_assoc]
    exact (hmost serve _).trans (herror serve fuel)
  · exact hleads.calm serve hpr hfol (by omega)

end Running

/-! ### Words that are executed -/

/-- With enough fuel the run ends so. -/
def Ends (run : Nat → EStateM.Result Halt Machine Unit) (result : EStateM.Result Halt Machine Unit) : Prop :=
  ∃ bound, ∀ fuel, bound ≤ fuel → run fuel = result

/-- How a program ends, with the items it leaves. It was cut off if there is nothing. -/
def EvalM.outcome {α : Type} (action : EvalM α) (items : Items) : Option (Except Fault Items) :=
  Option.map (Except.map Prod.snd) (action items)

theorem EvalM.outcome_ignore {α : Type} (action : EvalM α) (items : Items) :
    outcome (do let _ ← action) items = outcome action items := by
  change Option.map (Except.map Prod.snd) (Option.bind (action items) _) = Option.map (Except.map Prod.snd) (action items)
  match action items with
  | none | some (.error fault) | some (.ok (answer, items)) => rfl

/-- The run ended as the program did. It left the machine as it was, but for its two stacks. -/
def Matches (m : Machine) (returns : List Cell) : Except Fault Items → EStateM.Result Halt Machine Unit → Prop
  | .ok items, .ok _ after => Follows m ⟨m.ip, items, returns⟩ after
  | .error fault, .error (.fault other) _ => other = fault
  | _, _ => False

/-- Runs with different fuel realize an outcome, if the return stack does not overflow. For a program that was cut off,
with so much `fuel`, they run out of it. -/
def Realizes (m : Machine) (returns : List Cell) (run : Nat → EStateM.Result Halt Machine Unit) (fuel : Nat)
    (outcome : Option (Except Fault Items)) : Prop :=
  (∃ after, Ends run (.error (.fault (.stackOverflow .return)) after)) ∨
    match outcome with
    | none => ∀ less, less ≤ fuel → ∃ after, run less = .error .outOfFuel after
    | some outcome => ∃ result, Ends run result ∧ Matches m returns outcome result

section Executing

variable {α : Type} {m : Machine} {token fuel : Nat} {items : Items} {returns : List Cell} {action : EvalM α}

/-- The end of a run, back in the thread that was left for it. -/
abbrev backAt (ip : Nat) : EStateM.Result Halt Machine Unit → EStateM.Result Halt Machine Unit
  | .ok _ after => .ok () { after with ip }
  | .error halt after => .error halt { after with ip }

theorem serve_execute (fuel token : Nat) (m : Machine) : serve (fuel + 1) (.execute token) m =
    backAt m.ip ((do dispatch (serve fuel) token; runThread (serve fuel) fuel : RunM Unit) { m with ip := 0 }) :=
  rfl

/-- A word is entered, unless the return stack is full. -/
theorem Follows.execute_eq (hfol : Follows m ⟨m.ip, items, returns⟩ m)
    (hsound : (Op.call token).Sound m.memory.cellAt) :
    (Layout.returnCells ≤ returns.length ∧ ∃ after, ∀ fuel,
        Interpreter.serve (fuel + 1) (.execute token) m = .error (.fault (.stackOverflow .return)) after) ∨
      ∃ entered, Follows m ⟨Header.body token, items, Cell.ofNat 0 :: returns⟩ entered ∧
        ∀ fuel, Interpreter.serve (fuel + 1) (.execute token) m =
          backAt m.ip (runThread (Interpreter.serve fuel) fuel entered) := by
  have hstart := hfol.withIp 0
  have hcode : Code.ofCell? (m.memory.cellAt token) = some .colon := by
    rw [hsound.2.2, Code.ofCell?_toCell]
  have hread := hstart.readCell_eq hsound.2.1 hsound.1
  have hdisp (serve : Serve) := @dispatch_of_colon serve _ _ _ hread hcode
  have henter := OpAt.plays_enter token _ hstart
  cases hrun : (Op.call token).run ⟨0, items, returns⟩ with
  | error fault =>
    rw [hrun] at henter
    obtain ⟨after, herror⟩ := henter
    rw [Op.run] at hrun
    split at hrun <;> cases hrun
    next hfull =>
    refine .inl ⟨Nat.le_of_not_lt hfull, { after with ip := m.ip }, fun fuel => ?_⟩
    rw [serve_execute, bind_of_error ((hdisp _).trans (run_of_error herror))]
  | ok next =>
    rw [hrun] at henter
    obtain ⟨entered, hok, hent⟩ := henter
    have hnext : next = ⟨Header.body token, items, Cell.ofNat 0 :: returns⟩ := by
      rw [Op.run] at hrun
      split at hrun <;> cases hrun
      rfl
    refine .inr ⟨entered, hnext ▸ hent, fun fuel => ?_⟩
    rw [serve_execute, bind_of_ok ((hdisp _).trans (run_of_ok hok))]

/-- A run that enters a thread, and leaves the instruction pointer as it was, realizes what the thread attains. -/
theorem Attains.realizes_entered {run : Nat → EStateM.Result Halt Machine Unit} {entered : Machine} {thread : Thread}
    {outcome : Option (Except Fault (α × Items))} (hpr : Primed m.memory.cellAt)
    (hent : Follows m thread entered) (hcut : ∃ after, run 0 = .error .outOfFuel after)
    (hrun : ∀ fuel, run (fuel + 1) =
      backAt m.ip (runThread (serve fuel) fuel entered))
    (hattains : Attains m.memory.cellAt fuel (fun _ : α => 0) (fun _ items => ⟨0, items, returns⟩) thread outcome) :
    Realizes m returns run fuel (outcome.map (Except.map Prod.snd)) := by
  have hfails {fault : Fault} (hfails : Fails m.memory.cellAt fault thread) :
      ∃ after, Ends run (.error (.fault fault) after) := by
    obtain ⟨count, after, -, hthread, -⟩ := hfails.calm hpr hent
    refine ⟨{ after with ip := m.ip }, count + 1, fun more hmore => ?_⟩
    obtain ⟨more, rfl⟩ := Nat.exists_eq_add_of_le' hmore
    change run (more + count + 1) = _
    rw [hrun, hthread]
  rcases hattains with hover | hrest
  · exact .inl (hfails hover)
  · refine .inr ?_
    match outcome with
    | none =>
      obtain ⟨count, last, hcount, hleads⟩ := hrest
      intro less hless
      cases less with
      | zero => exact hcut
      | succ less =>
        obtain ⟨after, -, hout⟩ := hleads.calm (serve less) hpr hent (show less ≤ count by omega)
        refine ⟨{ after with ip := m.ip }, (hrun less).trans ?_⟩
        rw [hout]
    | some (.error fault) =>
      obtain ⟨after, hends⟩ := hfails hrest
      exact ⟨_, hends, rfl⟩
    | some (.ok (answer, left)) =>
      obtain ⟨count, _, hleads⟩ := hrest
      obtain ⟨after, hafter, hthread⟩ := hleads.runThread hpr hent
      refine ⟨.ok () { after with ip := m.ip }, ⟨count + 2, fun more hmore => ?_⟩, hafter.withIp m.ip⟩
      obtain ⟨more, rfl⟩ := Nat.exists_eq_add_of_le' hmore
      change run (more + (count + 1) + 1) = _
      rw [hrun, ← Nat.add_assoc, Nat.add_right_comm, hthread, runThread_of_idle hafter.ip_eq]

theorem Attains.realizes (hpr : Primed m.memory.cellAt)
    (hfol : Follows m ⟨m.ip, items, returns⟩ m)
    (hsound : (Op.call token).Sound m.memory.cellAt)
    (hattains : Attains m.memory.cellAt fuel (fun _ : α => 0) (fun _ items => ⟨0, items, returns⟩)
      ⟨Header.body token, items, Cell.ofNat 0 :: returns⟩ (action items)) :
    Realizes m returns (fun fuel => serve fuel (.execute token) m) fuel (EvalM.outcome action items) := by
  rcases hfol.execute_eq hsound with ⟨_, after, hfull⟩ | ⟨entered, hent, hserve⟩
  · refine .inl ⟨after, 1, fun more hmore => ?_⟩
    obtain ⟨more, rfl⟩ := Nat.exists_eq_add_of_le' hmore
    exact hfull more
  · exact hattains.realizes_entered hpr hent ⟨m, rfl⟩ hserve

end Executing

/-! ### Both ways -/

/-- If the return stack does not overflow, then the runs end whenever the program does with some fuel, and a run that
ends is one that the program has with some fuel; and in either case they end in the same way. -/
def Refines (m : Machine) (returns : List Cell) (run : Nat → EStateM.Result Halt Machine Unit)
    (meaning : Nat → Option (Except Fault Items)) : Prop :=
  (∃ after, Ends run (.error (.fault (.stackOverflow .return)) after)) ∨
    (∀ fuel outcome, meaning fuel = some outcome → ∃ result, Ends run result ∧ Matches m returns outcome result) ∧
      ∀ fuel, (∀ after, run fuel ≠ .error .outOfFuel after) →
        ∃ more outcome, meaning more = some outcome ∧ Matches m returns outcome (run fuel)

theorem refines_of_realizes {m : Machine} {returns : List Cell} {run : Nat → EStateM.Result Halt Machine Unit}
    {meaning : Nat → Option (Except Fault Items)} (hrealizes : ∀ fuel, Realizes m returns run fuel (meaning fuel))
    (hmore : ∀ {fuel more}, fuel ≤ more → (∃ after, run fuel = .error .outOfFuel after) ∨ run more = run fuel) :
    Refines m returns run meaning := by
  by_cases hover : ∃ after, Ends run (.error (.fault (.stackOverflow .return)) after)
  · exact .inl hover
  refine .inr ⟨fun fuel outcome houtcome => ?_, fun fuel hended => ?_⟩
  · have hfuel := (hrealizes fuel).resolve_left hover
    rw [houtcome] at hfuel
    exact hfuel
  · have hfuel := (hrealizes fuel).resolve_left hover
    cases hmeaning : meaning fuel with
    | none =>
      rw [hmeaning] at hfuel
      obtain ⟨after, hout⟩ := hfuel fuel (Nat.le_refl fuel)
      exact (hended after hout).elim
    | some outcome =>
      rw [hmeaning] at hfuel
      obtain ⟨result, ⟨bound, hends⟩, hmatches⟩ := hfuel
      have hres : run fuel = result := by
        rcases hmore (Nat.le_max_left fuel bound) with ⟨after, hout⟩ | hsame
        · exact (hended after hout).elim
        · rw [← hsame]
          exact hends _ (Nat.le_max_right fuel bound)
      exact ⟨fuel, outcome, hmeaning, hres ▸ hmatches⟩

end ThreadedForth
