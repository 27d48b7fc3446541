
import ThreadedForth.Proofs.Compiler.Drafting
import ThreadedForth.Proofs.Structured.Execution

/-!
# Code with an address in front of it

A word made by a defining word has no code of its own. It pushes the address of its body and enters code that stands
elsewhere, and that code returns to where the word was called. Here are the ways in which this comes about: the word is
executed, by name or by `EXECUTE`, or its token stands in a thread. In each of them the dictionary is left alone, even by
a run that fails.
-/

namespace ThreadedForth

open WordM Interpreter Layout Header Items

/-! ### What a run leaves alone -/

section Calm

variable {base m : Machine} {thread : Thread}

theorem Follows.trans {middle : Machine} {next : Thread} (hfst : Follows base thread middle)
    (hsnd : Follows middle next m) : Follows base next m := by
  refine ⟨hsnd.bounded, ?_, hfst.memory.trans hsnd.memory, hsnd.items, hsnd.returns⟩
  rw [hsnd.machine_eq, hfst.machine_eq]

variable {fault : Fault} {fuel : Nat}

/-- Code that comes to an end leaves the dictionary alone, however far it is run. -/
theorem Attains.calm {α : Type} {returns : List Cell} {less : Nat} {outcome : Option (Except Fault (α × Items))}
    (serve : Serve) (hpr : Primed base.memory.cellAt) (hfol : Follows base thread m)
    (hattains : Attains base.memory.cellAt fuel (fun _ : α => 0) (fun _ items => ⟨0, items, returns⟩) thread outcome)
    (hless : less ≤ fuel) : base.Calm (stateAfter (runThread serve less) m) := by
  have hfails {fault : Fault} (hfails : Fails base.memory.cellAt fault thread) :
      base.Calm (stateAfter (runThread serve less) m) := by
    obtain ⟨count, after, hcalm, herror, hcut⟩ := hfails.calm hpr hfol
    rcases Nat.lt_or_ge less count with hfew | henough
    · obtain ⟨cut, hcalm, hrun⟩ := hcut serve less hfew
      rwa [stateAfter_of_error hrun]
    · obtain ⟨more, rfl⟩ := Nat.exists_eq_add_of_le' henough
      rwa [stateAfter_of_error (herror serve more)]
  rcases hattains with hover | hrest
  · exact hfails hover
  match outcome with
  | none =>
    obtain ⟨count, last, hcount, hleads⟩ := hrest
    obtain ⟨after, hcalm, hrun⟩ := hleads.calm serve hpr hfol (Nat.le_trans hless hcount)
    rwa [stateAfter_of_error hrun]
  | some (.error fault) => exact hfails hrest
  | some (.ok (answer, items)) =>
    obtain ⟨count, _, hleads⟩ := hrest
    rcases Nat.lt_or_ge count less with henough | hfew
    · obtain ⟨after, hafter, hthread⟩ := hleads.runThread hpr hfol
      obtain ⟨more, rfl⟩ := Nat.exists_eq_add_of_le' (Nat.succ_le_of_lt henough)
      have hdone : runThread serve (more + 1 + count) m = .ok () after :=
        (hthread serve (more + 1)).trans (runThread_of_idle hafter.ip_eq)
      rw [Nat.add_right_comm, Nat.add_assoc] at hdone
      rw [stateAfter_of_ok hdone]
      exact hafter.calm
    · obtain ⟨after, hcalm, hrun⟩ := hleads.calm serve hpr hfol hfew
      rwa [stateAfter_of_error hrun]

end Calm

/-! ### Words that enter code elsewhere -/

/-- The word pushes the address of its body, and enters the code at an address. -/
structure Directed (cells : Nat → Cell) (token behaviour : Nat) : Prop where
  isAligned : token % 4 = 0
  low : 16 ≤ token
  range : token + 4 ≤ dictionaryEnd
  code : cells token = Code.does.toCell
  does : cells (doesField (ofToken token)) = Cell.ofNat behaviour
  behaviour_le : behaviour ≤ dictionaryEnd

/-- Do something above the address of a body. -/
def EvalM.aboveBody {α : Type} (token : Nat) (action : EvalM α) : EvalM α := do
  effect (push (Cell.ofNat (body token)))
  action

namespace Directed

variable {base m : Machine} {token behaviour ip : Nat} {items : Items} {returns : List Cell}

/-- The address is pushed and the code is entered, if there is room on the stacks. -/
theorem plays_direct (hdir : Directed base.memory.cellAt token behaviour) :
    Plays base (direct token) ⟨ip, items, returns⟩ (do
      let pushed ← push (Cell.ofNat (body token)) items
      if returns.length < returnCells then .ok ((), ⟨behaviour, pushed, Cell.ofNat ip :: returns⟩)
      else .error (.stackOverflow .return)) := by
  have horder := order
  have hbeh := hdir.behaviour_le
  have halign := hdir.isAligned
  have hrange := hdir.range
  have hpush := denotes_push (Cell.ofNat (body token)) base ⟨ip, items, returns⟩
  rw [StackM.onThread, StackM.push, StackM.ofEffect] at hpush
  cases hitems : push (Cell.ofNat (body token)) items with
  | error fault =>
    simp only [hitems] at hpush
    exact hpush.bind_error
  | ok pushed =>
    simp only [hitems] at hpush
    have hip : Plays base (ask fun m => .ok m.ip) ⟨ip, pushed, returns⟩ (.ok (ip, ⟨ip, pushed, returns⟩)) :=
      Plays.ask_ok fun m hfol => congrArg Except.ok hfol.ip_eq
    have hdoes : Plays base (readCell (doesField (ofToken token))) ⟨ip, pushed, Cell.ofNat ip :: returns⟩
        (.ok (Cell.ofNat behaviour, ⟨ip, pushed, Cell.ofNat ip :: returns⟩)) :=
      Plays.ask_ok fun m hfol => by
        rw [hfol.readCell_eq (by rw [doesField, ofToken]; omega)
          (by rw [doesField, ofToken]; omega), hdir.does]
    have htarget : Plays base (ask (·.memory.address (Cell.ofNat behaviour))) ⟨ip, pushed, Cell.ofNat ip :: returns⟩
        (.ok (behaviour, ⟨ip, pushed, Cell.ofNat ip :: returns⟩)) :=
      Plays.ask_ok fun m hfol => by
        rw [Memory.address, Cell.toNatClampNeg_ofNat (by omega), hfol.bounded.size_eq, if_neg]
        rintro (hneg | hlarge)
        · exact Cell.ofNat_not_neg (by omega) hneg
        · omega
    refine Plays.bind hpush (hip.bind ?_)
    by_cases hroom : returns.length < returnCells
    · simp only [if_pos hroom]
      exact (plays_pushReturn_of_room _ hroom).bind (hdoes.bind (htarget.bind (ThreadWord.plays_setIp _)))
    · simp only [if_neg hroom]
      exact (plays_pushReturn_of_full _ (Nat.le_of_not_lt hroom)).bind_error

instance keeps_direct (token : Nat) : Keeps base.Calm (direct token) := by
  unfold direct
  infer_instance

/-- What is done for the token of the word, whatever requests are served by. -/
theorem dispatch_eq (hdir : Directed base.memory.cellAt token behaviour)
    (hfol : Follows base ⟨ip, items, returns⟩ m) :
    match push (Cell.ofNat (body token)) items with
    | .error fault => ∃ after, base.Calm after ∧
        ∀ serve, dispatch serve token m = .error (.fault fault) after
    | .ok pushed =>
      (∃ after, base.Calm after ∧
        ∀ serve, dispatch serve token m = .error (.fault (.stackOverflow .return)) after) ∨
      ∃ entered, Follows base ⟨behaviour, pushed, Cell.ofNat ip :: returns⟩ entered ∧
        ∀ serve, dispatch serve token m = .ok () entered := by
  have hread := hfol.readCell_eq hdir.range hdir.isAligned
  have hcode : Code.ofCell? (base.memory.cellAt token) = some .does := by
    rw [hdir.code, Code.ofCell?_toCell]
  have hdisp (serve : Serve) := @dispatch_of_does serve _ _ _ hread hcode
  have hplays := hdir.plays_direct m hfol
  have herror {fault : Fault} {after : Machine} (hdirect : direct token m = .error fault after) :
      base.Calm after ∧ ∀ serve, dispatch serve token m = .error (.fault fault) after :=
    ⟨Keeps.of_error hfol.calm hdirect, fun serve => (hdisp serve).trans (run_of_error hdirect)⟩
  cases hitems : push (Cell.ofNat (body token)) items with
  | error fault =>
    rw [hitems] at hplays
    obtain ⟨after, hdirect⟩ := hplays
    exact ⟨after, herror hdirect⟩
  | ok pushed =>
    rw [hitems] at hplays
    by_cases hroom : returns.length < returnCells
    · simp only [if_pos hroom] at hplays
      obtain ⟨entered, hdirect, hent⟩ := hplays
      exact .inr ⟨entered, hent, fun serve => (hdisp serve).trans (run_of_ok hdirect)⟩
    · simp only [if_neg hroom] at hplays
      obtain ⟨after, hdirect⟩ := hplays
      exact .inl ⟨after, herror hdirect⟩

/-- Executing the word. -/
theorem execute_eq (hdir : Directed m.memory.cellAt token behaviour)
    (hfol : Follows m ⟨m.ip, items, returns⟩ m) :
    match push (Cell.ofNat (body token)) items with
    | .error fault => ∃ after, m.Calm after ∧
        ∀ fuel, Interpreter.serve (fuel + 1) (.execute token) m = .error (.fault fault) after
    | .ok pushed =>
      (∃ after, m.Calm after ∧
        ∀ fuel, Interpreter.serve (fuel + 1) (.execute token) m = .error (.fault (.stackOverflow .return)) after) ∨
      ∃ entered, Follows m ⟨behaviour, pushed, Cell.ofNat 0 :: returns⟩ entered ∧
        ∀ fuel, Interpreter.serve (fuel + 1) (.execute token) m =
          backAt m.ip (runThread (Interpreter.serve fuel) fuel entered) := by
  have herror {fault : Fault} (hdisp : ∃ after, m.Calm after ∧ ∀ serve,
      dispatch serve token { m with ip := 0 } = .error (.fault fault) after) :
      ∃ after, m.Calm after ∧
        ∀ fuel, Interpreter.serve (fuel + 1) (.execute token) m = .error (.fault fault) after := by
    obtain ⟨after, hcalm, hdisp⟩ := hdisp
    refine ⟨{ after with ip := m.ip }, { hcalm with bounded := { hcalm.bounded with } }, fun fuel => ?_⟩
    rw [serve_execute, bind_of_error (hdisp _)]
  have hdisp := hdir.dispatch_eq (hfol.withIp 0)
  cases hitems : push (Cell.ofNat (body token)) items with
  | error fault =>
    rw [hitems] at hdisp
    exact herror hdisp
  | ok pushed =>
    rw [hitems] at hdisp
    refine hdisp.imp herror fun ⟨entered, hent, hdisp⟩ => ⟨entered, hent, fun fuel => ?_⟩
    rw [serve_execute, bind_of_ok (hdisp _)]

end Directed

/-! ### Runs -/

section Runs

variable {α : Type} {m : Machine} {token behaviour fuel : Nat} {items : Items} {returns : List Cell}
  {action : EvalM α}

theorem EvalM.outcome_aboveBody (token : Nat) (action : EvalM α) (items : Items) :
    outcome (aboveBody token action) items =
      match push (Cell.ofNat (body token)) items with
      | .ok pushed => outcome action pushed
      | .error fault => some (.error fault) := by
  have hpush : effect (push (Cell.ofNat (body token))) items =
      some (do return ((), ← push (Cell.ofNat (body token)) items)) := rfl
  have hbind : aboveBody token action items =
      Option.bind (effect (push (Cell.ofNat (body token))) items) fun
        | .ok (_, pushed) => action pushed
        | .error fault => some (.error fault) := by
    rw [aboveBody]
    simp only [bind, StateT.bind, ExceptT.bind, ExceptT.mk]
    congr 1
    funext pushed
    cases pushed <;> rfl
  rw [outcome, hbind, hpush]
  cases push (Cell.ofNat (body token)) items with
  | ok pushed => rfl
  | error fault => rfl

theorem Directed.realizes (hpr : Primed m.memory.cellAt)
    (hdir : Directed m.memory.cellAt token behaviour)
    (hfol : Follows m ⟨m.ip, items, returns⟩ m)
    (hattains : ∀ pushed, Attains m.memory.cellAt fuel (fun _ : α => 0) (fun _ items => ⟨0, items, returns⟩)
      ⟨behaviour, pushed, Cell.ofNat 0 :: returns⟩ (action pushed)) :
    Realizes m returns (fun fuel => serve fuel (.execute token) m) fuel
      (EvalM.outcome (EvalM.aboveBody token action) items) := by
  have hends {fault : Fault} {after : Machine} (herror : ∀ fuel,
      serve (fuel + 1) (.execute token) m = .error (.fault fault) after) :
      Ends (fun fuel => serve fuel (.execute token) m) (.error (.fault fault) after) := by
    refine ⟨1, fun more hmore => ?_⟩
    obtain ⟨more, rfl⟩ := Nat.exists_eq_add_of_le' hmore
    exact herror more
  have hexecute := hdir.execute_eq hfol
  rw [EvalM.outcome_aboveBody]
  cases hitems : push (Cell.ofNat (body token)) items with
  | error fault =>
    rw [hitems] at hexecute
    obtain ⟨after, -, herror⟩ := hexecute
    exact .inr ⟨_, hends herror, rfl⟩
  | ok pushed =>
    rw [hitems] at hexecute
    rcases hexecute with ⟨after, -, herror⟩ | ⟨entered, hent, hserve⟩
    · exact .inl ⟨after, hends herror⟩
    · exact (hattains pushed).realizes_entered hpr hent ⟨m, rfl⟩ hserve

/-- And it leaves the dictionary alone, however far it is run. -/
theorem Directed.calm_execute {less : Nat} (hpr : Primed m.memory.cellAt)
    (hdir : Directed m.memory.cellAt token behaviour)
    (hfol : Follows m ⟨m.ip, items, returns⟩ m)
    (hattains : ∀ pushed, Attains m.memory.cellAt fuel (fun _ : α => 0) (fun _ items => ⟨0, items, returns⟩)
      ⟨behaviour, pushed, Cell.ofNat 0 :: returns⟩ (action pushed)) (hless : less ≤ fuel) :
    m.Calm (stateAfter (serve less (.execute token)) m) := by
  cases less with
  | zero => exact hfol.calm
  | succ less =>
    have herrors {fault : Fault} (hexecute : ∃ after, m.Calm after ∧ ∀ fuel,
        serve (fuel + 1) (.execute token) m = .error (.fault fault) after) :
        m.Calm (stateAfter (serve (less + 1) (.execute token)) m) := by
      obtain ⟨after, hcalm, herror⟩ := hexecute
      rwa [stateAfter_of_error (herror less)]
    have hexecute := hdir.execute_eq hfol
    cases hitems : push (Cell.ofNat (body token)) items with
    | error fault =>
      rw [hitems] at hexecute
      exact herrors hexecute
    | ok pushed =>
      rw [hitems] at hexecute
      rcases hexecute with hfull | ⟨entered, hent, hserve⟩
      · exact herrors hfull
      · have hcalm := (hattains pushed).calm (serve less) hpr hent (Nat.le_of_succ_le hless)
        cases hthread : runThread (serve less) less entered with
        | ok answer after =>
          rw [stateAfter_of_ok hthread] at hcalm
          rw [stateAfter_of_ok ((hserve less).trans (congrArg _ hthread))]
          exact { hcalm with bounded := { hcalm.bounded with } }
        | error halt after =>
          rw [stateAfter_of_error hthread] at hcalm
          rw [stateAfter_of_error ((hserve less).trans (congrArg _ hthread))]
          exact { hcalm with bounded := { hcalm.bounded with } }

/-- Where a word is called in a thread, the thread goes on behind the call with what the outcome says, if the return
stack does not overflow. For a program that was cut off, with so much `fuel`, it runs out of it. The dictionary is left
alone until then. -/
def GoesOn (m : Machine) (returns : List Cell) (fuel : Nat) (outcome : Option (Except Fault Items)) : Prop :=
  (∃ count after, m.Calm after ∧ ∀ serve more,
      runThread serve (more + count) m = .error (.fault (.stackOverflow .return)) after) ∨
    match outcome with
    | none => ∀ serve less, less ≤ fuel → ∃ after, m.Calm after ∧
        runThread serve less m = .error .outOfFuel after
    | some (.error fault) => ∃ count after, m.Calm after ∧ ∀ serve more,
        runThread serve (more + count) m = .error (.fault fault) after
    | some (.ok items) => ∃ count after, Follows m ⟨m.ip + 4, items, returns⟩ after ∧
        ∀ serve more, runThread serve (more + count) m = runThread serve more after

/-- Calling the word goes on with what its code attains, above the address of its body. -/
theorem Directed.goesOn (hpr : Primed m.memory.cellAt)
    (hdir : Directed m.memory.cellAt token behaviour)
    (hfol : Follows m ⟨m.ip, items, returns⟩ m) (hpos : 0 < m.ip)
    (halign : m.ip % 4 = 0) (hrange : m.ip + 4 ≤ dictionaryEnd)
    (hcell : m.memory.cellAt m.ip = Cell.ofNat token)
    (hattains : ∀ pushed, Attains m.memory.cellAt fuel (fun _ : α => 0)
      (fun _ items => ⟨m.ip + 4, items, returns⟩)
      ⟨behaviour, pushed, Cell.ofNat (m.ip + 4) :: returns⟩ (action pushed)) :
    GoesOn m returns fuel (EvalM.outcome (EvalM.aboveBody token action) items) := by
  have hround := hfol.runThread_fetch hpos halign hrange hcell hdir.range
  have hdisp := hdir.dispatch_eq (hfol.withIp (m.ip + 4))
  have hfails {fault : Fault} {after : Machine} (herror : ∀ serve,
      dispatch serve token { m with ip := m.ip + 4 } = .error (.fault fault) after)
      (serve : Serve) (more : Nat) : runThread serve (more + 1) m = .error (.fault fault) after :=
    (hround serve more).trans (bind_of_error (herror serve))
  rw [EvalM.outcome_aboveBody]
  cases hitems : push (Cell.ofNat (body token)) items with
  | error fault =>
    rw [hitems] at hdisp
    obtain ⟨after, hcalm, herror⟩ := hdisp
    exact .inr ⟨1, after, hcalm, hfails herror⟩
  | ok pushed =>
    rw [hitems] at hdisp
    rcases hdisp with ⟨after, hcalm, herror⟩ | ⟨entered, hent, henter⟩
    · exact .inl ⟨1, after, hcalm, hfails herror⟩
    have hstep (serve : Serve) (more : Nat) :
        runThread serve (more + 1) m = runThread serve more entered :=
      (hround serve more).trans (bind_of_ok (henter serve))
    have hlater {fault : Fault} (hlater : Fails m.memory.cellAt fault
        ⟨behaviour, pushed, Cell.ofNat (m.ip + 4) :: returns⟩) : ∃ count after, m.Calm after ∧
          ∀ serve more, runThread serve (more + count) m = .error (.fault fault) after := by
      obtain ⟨count, after, hcalm, herror, -⟩ := hlater.calm hpr hent
      exact ⟨count + 1, after, hcalm, fun serve more => (hstep serve (more + count)).trans (herror serve more)⟩
    rcases hattains pushed with hover | hrest
    · exact .inl (hlater hover)
    refine .inr ?_
    simp only [EvalM.outcome]
    match houtcome : action pushed with
    | none =>
      rw [houtcome] at hrest
      obtain ⟨count, last, hcount, hleads⟩ := hrest
      intro serve less hless
      cases less with
      | zero => exact ⟨m, hfol.calm, rfl⟩
      | succ less =>
        obtain ⟨after, hcalm, hcut⟩ := hleads.calm serve hpr hent (show less ≤ count by omega)
        exact ⟨after, hcalm, (hstep serve less).trans hcut⟩
    | some (.error fault) =>
      rw [houtcome] at hrest
      exact hlater hrest
    | some (.ok (answer, left)) =>
      rw [houtcome] at hrest
      obtain ⟨count, _, hleads⟩ := hrest
      obtain ⟨after, hafter, hthread⟩ := hleads.runThread hpr hent
      exact ⟨count + 1, after, hafter, fun serve more => (hstep serve (more + count)).trans (hthread serve more)⟩

theorem Follows.dispatch_execute (hpr : Primed m.memory.cellAt) (htoken : token ≤ dictionaryEnd)
    (hfol : Follows m ⟨m.ip, Cell.ofNat token :: items, returns⟩ m) :
    ∃ popped, Follows m ⟨m.ip, items, returns⟩ popped ∧
      ∀ serve, dispatch serve (Prim.thread .execute).token m = serve (.execute token) popped := by
  have horder := order
  have hins := (Prim.thread .execute).token_inside
  have hread := hfol.readCell_eq hins.2 hins.1
  have hcode : Code.ofCell? (m.memory.cellAt (Prim.thread .execute).token) = some (.prim (.thread .execute)) := by
    rw [hpr, Code.ofCell?_toCell]
  obtain ⟨popped, hpop, hpopped⟩ := Plays.pop rfl m hfol
  have haddr : popped.memory.address (Cell.ofNat token) = .ok token := by
    rw [Memory.address, Cell.toNatClampNeg_ofNat (by omega), hpopped.bounded.size_eq, if_neg]
    rintro (hneg | hlarge)
    · exact Cell.ofNat_not_neg (by omega) hneg
    · omega
  have hperf : (Prim.thread .execute).perform m = .ok (some (.execute token)) popped :=
    bind_of_ok ((bind_of_ok hpop).trans (@ask_of_ok _ _ (·.memory.address (Cell.ofNat token)) _ haddr))
  refine ⟨popped, hpopped, fun serve => ?_⟩
  refine (bind_of_ok (run_of_ok (@ask_of_ok _ _ (·.memory.readCell (Prim.thread .execute).token) _ hread))).trans ?_
  simp only [hcode]
  exact bind_of_ok (run_of_ok hperf)

theorem Realizes.of_follows {popped : Machine} {run : Nat → EStateM.Result Halt Machine Unit}
    {outcome : Option (Except Fault Items)} (hpop : Follows m ⟨m.ip, items, returns⟩ popped)
    (hrealizes : Realizes popped returns run fuel outcome) : Realizes m returns run fuel outcome := by
  refine hrealizes.imp_right fun hrest => ?_
  cases outcome with
  | none => exact hrest
  | some ended =>
    obtain ⟨result, hends, hmatches⟩ := hrest
    refine ⟨result, hends, ?_⟩
    cases ended with
    | error fault =>
      cases result with
      | ok answer after => exact hmatches
      | error halt after => cases halt <;> exact hmatches
    | ok left =>
      cases result with
      | error halt after => exact hmatches
      | ok answer after =>
        have hafter : Follows popped ⟨popped.ip, left, returns⟩ after := hmatches
        rw [hpop.ip_eq] at hafter
        exact hpop.trans hafter

end Runs

end ThreadedForth
