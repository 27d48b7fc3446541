
import ThreadedForth.Proofs.Compiler.InStep
import ThreadedForth.Proofs.Session.Runs

/-!
# Runs that do not look at their text

Apart from taking the words of a line one after the other, an interpreter has little to do with the line it interprets.
Here are the steps that have nothing to do with it (`Moment.Blind`): numbers, stack words, arithmetic, control
structures, `;`, `:` with the name behind it, and the threads that are made of them, as long as no part of a thread is
itself a part of the line. The interpreter takes machines that differ in the line through such steps side by side.
-/

namespace ThreadedForth

open WordM Job
open Machine (Abreast InStep)

/-! ### Steps that do not look at the text -/

/-- The word has nothing to do with the text, except that `:` finds a name there. The words given are those of the line
that comes later, in which the name must not be the first. -/
def Prim.Blind (later : List (List UInt8)) (m : Machine) : Prim → Prop
  | stack _ | cell _ | double _ | control _ | defining .semicolon | defining .recurse => True
  | defining .colon => ∀ left, Reading left m → Text.words left ≠ [] ∧ Text.words left ≠ later
  | thread word => word.isStructural = true ∧ Away m.ip ∧ Away (m.ip + 4)
  | _ => False

/-- A definition of `:` or a primitive. -/
def Code.Blind (later : List (List UInt8)) (m : Machine) : Code → Prop
  | .colon => True
  | .prim word => word.Blind later m
  | _ => False

/-- The job has nothing to do with the text but to take the next word from it. -/
def Job.Blind (later : List (List UInt8)) (m : Machine) : Job → Prop
  | dispatch xt => Away xt ∧ ∀ cell code, m.memory.readCell xt = .ok cell → Code.ofCell? cell = some code →
      code.Blind later m
  | thread => Away m.ip
  | serve (.evaluate _) | serve (.load _) => False
  | _ => True

namespace Moment

def Blind (later : List (List UInt8)) (moment : Moment) : Prop :=
  ∀ job rest, moment.jobs = job :: rest → moment.fault = none → job.Blind later moment.machine

variable {later : List (List UInt8)} {before after : Moment} {entries : List Header} {markers : List Marker}

theorem Blind.tame (hblind : before.Blind later) : before.Tame := by
  intro prim hprim
  obtain ⟨m, jobs, fault⟩ := before
  match jobs, fault with
  | [], _ => cases hprim
  | _ :: _, some _ => cases hprim
  | job :: rest, none =>
    have hjob := hblind job rest rfl rfl
    cases job with
    | dispatch xt =>
      simp only [prim?, Job.prim?] at hprim
      split at hprim
      · next cell hread =>
        split at hprim
        · next found hcode =>
          cases hprim
          have hprim := hjob.2 cell _ hread hcode
          cases prim with
          | memory | input | output | diagnostic => exact hprim.elim
          | defining word => cases word <;> first | exact hprim.elim | trivial
          | thread | stack | cell | double | control => trivial
        · cases hprim
      · cases hprim
    | _ => cases hprim

/-- Every step from here on is blind. -/
def StaysBlind (later : List (List UInt8)) (moment : Moment) : Prop := ∀ last, moment.Leads last → last.Blind later

theorem StaysBlind.of_next (hblind : before.Blind later) (hnext : before.next = some after)
    (hafter : after.StaysBlind later) : before.StaysBlind later := by
  intro last hleads
  cases hleads with
  | refl => exact hblind
  | step hother hrest =>
    cases hnext.symm.trans hother
    exact hafter last hrest

theorem StaysBlind.done (m : Machine) (fault : Option Fault) : StaysBlind later ⟨m, [], fault⟩ := by
  intro last hleads
  cases hleads with
  | refl => exact fun _ _ hjobs => nomatch hjobs
  | step hnext _ => cases hnext

theorem StaysBlind.dispatch {m done : Machine} {xt : Nat} {prim : Prim} (haway : Away xt)
    (hprim : (Job.dispatch xt).prim? m = some prim) (hblind : prim.Blind later m)
    (hperf : prim.perform m = .ok none done) (hafter : StaysBlind later ⟨done, rest, none⟩) :
    StaysBlind later ⟨m, .dispatch xt :: rest, none⟩ := by
  have hjob : perform (.dispatch xt) m = .ok [] done :=
    (perform_of_prim? hprim).trans (bind_of_ok hperf)
  refine .of_next (fun job others hjobs _ => ?_) (by simp only [next, hjob, List.nil_append]) hafter
  cases hjobs
  refine ⟨haway, fun cell code hread hcode => ?_⟩
  simp only [Job.prim?, hread, hcode] at hprim
  split at hprim <;> cases hprim
  next hfound =>
  cases hfound
  exact hblind

theorem Quiet.blind (hquiet : before.Quiet) (later : List (List UInt8)) : before.Blind later := by
  intro job rest hjobs hfault
  have hjob := hquiet job rest hjobs hfault
  cases job with
  | dispatch xt => exact hjob.elim
  | thread =>
    have hip : before.machine.ip = 0 := hjob
    change Away before.machine.ip
    rw [hip]
    exact away_of_add_le (by decide)
  | serve request =>
    cases request with
    | execute xt => trivial
    | evaluate text | load path => exact hjob.elim
  | _ => trivial

theorem QuietlyLeads.staysBlind (hleads : before.QuietlyLeads after) (hafter : after.StaysBlind later) :
    before.StaysBlind later := by
  induction hleads with
  | refl => exact hafter
  | step hquiet hnext _ ih => exact .of_next (hquiet.blind later) hnext (ih hafter)

/-- Every step from here on is blind, and the machine stays in order. -/
def Watched (later : List (List UInt8)) (moment : Moment) : Prop :=
  ∀ last, moment.Leads last → last.Blind later ∧ ∃ entries markers, Sound entries markers last

theorem Watched.leads (hwatched : before.Watched later) (hleads : before.Leads after) : after.Watched later :=
  fun last hlast => hwatched last (hleads.trans hlast)

theorem Sound.watched (hsound : Sound entries markers before) (hblind : before.StaysBlind later) :
    before.Watched later := by
  intro last hleads
  refine ⟨hblind last hleads, ?_⟩
  induction hleads generalizing entries markers with
  | refl moment => exact ⟨entries, markers, hsound⟩
  | step hnext hrest ih =>
    obtain ⟨revised, others, hnow, -⟩ := hsound.step (hblind _ (.refl _)).tame (.job hnext)
    exact ih hnow fun last hlast => hblind last (.step hnext hlast)

end Moment

/-! ### Primitives -/

variable {later extra : List (List UInt8)} {entries : List Header} {markers : List Marker}
  {first second after : Machine} {rest : List Job}

theorem Machine.InStep.complete {action : WordM Unit}
    (hact : EndTogether (InStep extra) (action first) (action second)) :
    EndTogether (InStep extra) (complete action first) (complete action second) :=
  hact.bind (fun _ _ hends => hends) fun _ _ _ hends => ⟨rfl, hends⟩

theorem Prim.perform_together (hextra : extra = [] ∨ extra = later) (hinStep : InStep extra first second)
    (hord : Orderly entries markers [] first) {prim : Prim} (hblind : prim.Blind later first) :
    EndTogether (InStep extra) (prim.perform first) (prim.perform second) := by
  cases prim with
  | stack word => exact InStep.complete (Parallel.parallel first second hinStep)
  | cell word => exact InStep.complete (Parallel.parallel first second hinStep)
  | double word => exact InStep.complete (Parallel.parallel first second hinStep)
  | control word => exact InStep.complete (word.perform_together hinStep hord)
  | thread word =>
    obtain ⟨hword, hhere, hnext⟩ := hblind
    refine word.perform_together hword ⟨hinStep, fun n hn => ?_⟩
    match n with
    | 0 => exact hhere
    | 1 => exact hnext
  | defining word =>
    cases word with
    | semicolon => exact InStep.complete (DefiningWord.close_together hinStep hord)
    | recurse =>
      have hrecurse : Parallel (InStep extra) (DefiningWord.perform .recurse) := by
        simp only [DefiningWord.perform]
        infer_instance
      exact InStep.complete (hrecurse.parallel first second hinStep)
    | colon =>
      refine InStep.complete (DefiningWord.openNamed_together hinStep hord fun left hleft => ?_)
      rcases hextra with rfl | rfl
      · exact (hblind left hleft).1
      · exact (hblind left hleft).2
    | _ => exact hblind.elim
  | _ => exact hblind.elim

/-! ### The inner interpreter -/

namespace Interpreter

open Moment (Watched)

/-- Requests are served one level down as the steps say, and alike on machines that are in step. -/
structure ServesInStep (later extra : List (List UInt8)) (serve : Serve) : Prop where
  extra_eq : extra = [] ∨ extra = later
  amounts : ∀ request, Amounts [.serve request] (serve request)
  together : ∀ request rest first second, InStep extra first second →
    Watched later ⟨first, .serve request :: rest, none⟩ →
      EndTogether (InStep extra) (serve request first) (serve request second)

theorem bind_together {job : Job} {action more : RunM Unit} (hamounts : Amounts [job] action)
    (hwatched : Watched later ⟨first, job :: rest, none⟩)
    (hact : EndTogether (InStep extra) (action first) (action second))
    (hmore : ∀ first second, InStep extra first second → Watched later ⟨first, rest, none⟩ →
      EndTogether (InStep extra) (more first) (more second)) :
    EndTogether (InStep extra) ((action >>= fun _ => more) first) ((action >>= fun _ => more) second) := by
  have harrives := hamounts first
  rcases hact.cases with ⟨_, done, last, hfst, hsnd, hends⟩ | ⟨halt, done, last, hfst, hsnd, hends⟩
  · rw [hfst] at harrives
    rw [bind_of_ok hfst, bind_of_ok hsnd]
    exact hmore done last hends (hwatched.leads (harrives rest))
  · rw [bind_of_error hfst, bind_of_error hsnd]
    exact ⟨rfl, hends⟩

variable {serve : Serve} (hserve : ServesInStep later extra serve)

include hserve

variable {xt : Nat} {name : String}

theorem dispatch_together (hinStep : InStep extra first second)
    (hwatched : Watched later ⟨first, .dispatch xt :: rest, none⟩) :
    EndTogether (InStep extra) (dispatch serve xt first) (dispatch serve xt second) := by
  obtain ⟨hblind, entries, markers, hsound⟩ := hwatched _ (.refl _)
  obtain ⟨haway, hcodes⟩ := hblind (.dispatch xt) rest rfl rfl
  have hsame : first.memory.readCell xt = second.memory.readCell xt := by
    obtain ⟨-, memory, source, hmem, rfl⟩ := hinStep.abreast
    exact hmem.readCell haway
  cases hread : first.memory.readCell xt with
  | error fault =>
    have hfst : readCell xt first = .error fault first := by rw [readCell, ask, hread]
    have hsnd : readCell xt second = .error fault second := by rw [readCell, ask, ← hsame, hread]
    rw [dispatch, bind_of_error (run_of_error hfst), bind_of_error (run_of_error hsnd)]
    exact ⟨rfl, hinStep⟩
  | ok cell =>
    have hfst : readCell xt first = .ok cell first := ask_of_ok hread
    have hsnd : readCell xt second = .ok cell second := ask_of_ok (hsame.symm.trans hread)
    rw [dispatch, bind_of_ok (run_of_ok hfst), bind_of_ok (run_of_ok hsnd)]
    cases hcode : Code.ofCell? cell with
    | none => exact ⟨rfl, hinStep⟩
    | some code =>
      have hcodeBlind := hcodes cell code hread hcode
      cases code with
      | colon =>
        have henter : Parallel (InStep extra) (dispatch.enter (Header.body xt)) := by
          unfold dispatch.enter
          infer_instance
        exact (henter.parallel first second hinStep).run
      | prim prim =>
        have hperf : perform (.dispatch xt) first = (do return (← prim.perform).toList.map Job.serve) first :=
          perform_of_prim? (by simp only [prim?, hread, hcode])
        rcases (Prim.perform_together hserve.extra_eq hinStep hsound.orderly hcodeBlind).cases with
          ⟨request, after, other, hfst, hsnd, hends⟩ | ⟨fault, after, other, hfst, hsnd, hends⟩
        · dsimp only
          rw [bind_of_ok (run_of_ok hfst), bind_of_ok (run_of_ok hsnd)]
          cases request with
          | none => exact ⟨rfl, hends⟩
          | some request =>
            refine hserve.together request rest after other hends (hwatched.leads ?_)
            exact Moment.leads_of_ok (hperf.trans (bind_of_ok hfst))
        · dsimp only
          rw [bind_of_error (run_of_error hfst), bind_of_error (run_of_error hsnd)]
          exact ⟨rfl, hends⟩
      | _ => exact hcodeBlind.elim

omit hserve in
theorem fetchToken_together (hpoised : Machine.Poised extra 1 first second) :
    EndTogether (InStep extra) (fetchToken first) (fetchToken second) := by
  have haddr (cell : Cell) : Parallel (InStep extra) (ask (·.memory.address cell)) := inferInstance
  exact hpoised.inlineCell.bind (fun _ _ hends => hends.inStep) fun cell _ _ hends =>
    (haddr cell).parallel _ _ hends.inStep

theorem runThread_together (fuel : Nat) (hinStep : InStep extra first second)
    (hwatched : Watched later ⟨first, .thread :: rest, none⟩) :
    EndTogether (InStep extra) (runThread serve fuel first) (runThread serve fuel second) := by
  induction fuel generalizing first second with
  | zero => exact ⟨rfl, hinStep⟩
  | succ fuel ih =>
    have hget (m : Machine) : (get : RunM Machine) m = .ok m m := rfl
    rw [runThread, bind_of_ok (hget first), bind_of_ok (hget second), hinStep.abreast.ip_eq]
    by_cases hidle : first.ip = 0
    · rw [if_pos hidle]
      exact ⟨rfl, hinStep⟩
    rw [if_neg hidle]
    have haway : Away first.ip := (hwatched _ (.refl _)).1 .thread rest rfl rfl
    have hpoised : Machine.Poised extra 1 first second := ⟨hinStep, fun n hn => by
      rw [Nat.lt_one_iff.1 hn]
      exact haway⟩
    have hip : ask (fun m => .ok m.ip) first = .ok first.ip first := rfl
    have hthread : perform .thread first = (do return [Job.dispatch (← fetchToken), Job.thread]) first := by
      rw [perform, bind_of_ok hip, if_neg hidle]
    rcases (fetchToken_together hpoised).cases with ⟨xt, fetched, other, hfst, hsnd, hends⟩ |
      ⟨fault, fetched, other, hfst, hsnd, hends⟩
    · rw [bind_of_ok (run_of_ok hfst), bind_of_ok (run_of_ok hsnd)]
      have hfetched : Watched later ⟨fetched, .dispatch xt :: .thread :: rest, none⟩ :=
        hwatched.leads (Moment.leads_of_ok (hthread.trans (bind_of_ok hfst)))
      exact bind_together (amounts_dispatch hserve.amounts xt) hfetched (dispatch_together hserve hends hfetched)
        fun _ _ => ih
    · rw [bind_of_error (run_of_error hfst), bind_of_error (run_of_error hsnd)]
      exact ⟨rfl, hends⟩

theorem execute_together (fuel : Nat) (hinStep : InStep extra first second)
    (hwatched : Watched later ⟨first, .serve (.execute xt) :: rest, none⟩) :
    EndTogether (InStep extra) (execute serve fuel xt first) (execute serve fuel xt second) := by
  have hbegin : perform (.serve (.execute xt)) first =
      .ok [.dispatch xt, .thread, .putBack first.ip] { first with ip := 0 } := rfl
  have hbegun : Watched later ⟨{ first with ip := 0 }, .dispatch xt :: .thread :: .putBack first.ip :: rest, none⟩ :=
    hwatched.leads (Moment.leads_of_ok hbegin)
  have hbody : EndTogether (InStep extra) ((do dispatch serve xt; runThread serve fuel : RunM Unit) { first with ip := 0 })
      ((do dispatch serve xt; runThread serve fuel : RunM Unit) { second with ip := 0 }) :=
    bind_together (amounts_dispatch hserve.amounts xt) hbegun (dispatch_together hserve (hinStep.withIp 0) hbegun)
      fun _ _ => runThread_together hserve fuel
  rw [execute, execute, hinStep.abreast.ip_eq]
  rcases hbody.cases with ⟨_, done, last, hfst, hother, hends⟩ | ⟨halt, done, last, hfst, hother, hends⟩ <;>
    (rw [hfst, hother]; exact ⟨rfl, hends.withIp first.ip⟩)

omit hserve in
theorem serve_together (hextra : extra = [] ∨ extra = later) (fuel : Nat) :
    ServesInStep later extra (Interpreter.serve fuel) := by
  refine ⟨hextra, amounts_serve fuel, ?_⟩
  induction fuel with
  | zero => exact fun _ _ _ _ hinStep _ => ⟨rfl, hinStep⟩
  | succ fuel ih =>
    intro request rest first second hinStep hwatched
    cases request with
    | execute xt => exact execute_together ⟨hextra, amounts_serve fuel, ih⟩ fuel hinStep hwatched
    | evaluate text => exact ((hwatched _ (.refl _)).1 _ _ rfl rfl).elim
    | load path => exact ((hwatched _ (.refl _)).1 _ _ rfl rfl).elim

/-! ### The outer interpreter -/

section

variable (hinStep : InStep extra first second)

include hinStep

theorem interpretToken_together (hwatched : Watched later ⟨first, .token name :: rest, none⟩) :
    EndTogether (InStep extra) (interpretToken serve name first) (interpretToken serve name second) := by
  obtain ⟨-, entries, markers, hsound⟩ := hwatched _ (.refl _)
  have hother := hsound.orderly.calm hinStep.abreast.calm
  have hstate : second.memory.cellAt Layout.state = first.memory.cellAt Layout.state := by
    obtain ⟨-, memory, source, hmem, rfl⟩ := hinStep.abreast
    exact hmem.cellAt away_state
  have hcpl := isCompiling_eq hsound.orderly.bounded
  have hcompiles := isCompiling_eq hother.bounded
  rw [hstate] at hcompiles
  have hfind : ask (·.findHeader? name) first = .ok (lookup entries name) first :=
    ask_of_ok (hsound.orderly.lexicon.findHeader?_eq name)
  have hfinds : ask (·.findHeader? name) second = .ok (lookup entries name) second :=
    ask_of_ok (hother.lexicon.findHeader?_eq name)
  have htoken : perform (.token name) first = _ := (bind_of_ok hcpl).trans (bind_of_ok hfind)
  rw [interpretToken, bind_of_ok (run_of_ok hcpl), bind_of_ok (run_of_ok hcompiles),
    bind_of_ok (run_of_ok hfind), bind_of_ok (run_of_ok hfinds)]
  cases hlook : lookup entries name with
  | none =>
    have hnumber (compiling : Bool) : Parallel (InStep extra) (interpretNumber compiling name) := inferInstance
    exact ((hnumber _).parallel first second hinStep).run
  | some header =>
    rw [hlook] at htoken
    dsimp only at htoken ⊢
    split
    · have hcompile : Parallel (InStep extra) (compileToken header.xt) := inferInstance
      exact (hcompile.parallel first second hinStep).run
    · next hrun =>
      rw [if_neg hrun] at htoken
      split
      · exact ⟨rfl, hinStep⟩
      · next hallowed =>
        rw [if_neg hallowed] at htoken
        exact hserve.together _ rest first second hinStep (hwatched.leads (Moment.leads_of_ok htoken))

theorem interpretToken_cases (hwatched : Watched later ⟨first, .token name :: .goOn :: rest, none⟩) :
    (∃ done other, interpretToken serve name first = .ok () done ∧ interpretToken serve name second = .ok () other ∧
        InStep extra done other ∧ other.exiting = false ∧ Watched later ⟨done, .source :: rest, none⟩) ∨
      ∃ halt done other, interpretToken serve name first = .error halt done ∧
        interpretToken serve name second = .error halt other ∧ InStep extra done other := by
  have harrives := amounts_interpretToken hserve.amounts name first
  rcases (interpretToken_together hserve hinStep hwatched).cases with ⟨_, done, other, hfst, hsnd, hends⟩ |
    ⟨halt, done, other, hfst, hsnd, hends⟩
  · have hexiting : other.exiting = false := by
      obtain ⟨-, memory, source, -, rfl⟩ := hends.abreast
      exact hends.running
    have hgoOn : perform .goOn done = .ok [.source] done := by
      have hmore : ask (fun m => .ok m.exiting) done = .ok false done := by rw [ask, hends.running]
      exact bind_of_ok hmore
    rw [hfst] at harrives
    exact .inl ⟨done, other, hfst, hsnd, hends, hexiting,
      (hwatched.leads (harrives _)).leads (Moment.leads_of_ok hgoOn)⟩
  · exact .inr ⟨halt, done, other, hfst, hsnd, hends⟩

/-- One text is at its end and the other has its extra words left, or both interpreters take the same word and go on, or
both fail at it. -/
theorem nextWord_together (hwatched : Watched later ⟨first, .source :: rest, none⟩) :
    (∃ left toIn, Reading left first ∧ Text.words left = extra ∧ nextToken? second = .ok none (second.readTo toIn)) ∨
      (∃ done other, InStep extra done other ∧ Watched later ⟨done, .source :: rest, none⟩ ∧
        ∀ fuel, interpretSource serve (fuel + 1) first = interpretSource serve fuel done ∧
          interpretSource serve (fuel + 1) second = interpretSource serve fuel other) ∨
      ∃ halt done other, InStep extra done other ∧
        ∀ fuel, interpretSource serve (fuel + 1) first = .error halt done ∧
          interpretSource serve (fuel + 1) second = .error halt other := by
  rcases hinStep.next with hend | ⟨name, toIn, reached, hfst, hsnd, hread⟩
  · exact .inl hend
  have hsource : perform .source first = .ok [.token name, .goOn] (first.readTo toIn) := bind_of_ok hfst
  rcases interpretToken_cases hserve hread (hwatched.leads (Moment.leads_of_ok hsource)) with
    ⟨done, other, hone, htwo, hends, hexiting, hnext⟩ | ⟨halt, done, other, hone, htwo, hends⟩
  · exact .inr (.inl ⟨done, other, hends, hnext, fun fuel =>
      ⟨interpretSource_of_token hfst hone hends.running, interpretSource_of_token hsnd htwo hexiting⟩⟩)
  · exact .inr (.inr ⟨halt, done, other, hends, fun fuel =>
      ⟨interpretSource_of_error hfst hone, interpretSource_of_error hsnd htwo⟩⟩)

end

theorem interpretSource_together (hextra : extra = []) (fuel : Nat) (hinStep : InStep extra first second)
    (hwatched : Watched later ⟨first, .source :: rest, none⟩) :
    EndTogether Abreast (interpretSource serve fuel first) (interpretSource serve fuel second) := by
  induction fuel generalizing first second with
  | zero => exact ⟨rfl, hinStep.abreast⟩
  | succ fuel ih =>
    rcases nextWord_together hserve hinStep hwatched with ⟨left, toIn, hleft, hwords, hsnd⟩ |
      ⟨done, other, hends, hnext, hgoOn⟩ | ⟨halt, done, other, hends, hfail⟩
    · obtain ⟨reached, hfst⟩ := nextToken?_of_end hleft hinStep.abreast.1 (hwords.trans hextra)
      rw [interpretSource_of_end hfst, interpretSource_of_end hsnd]
      exact ⟨rfl, ((hinStep.abreast.readTo toIn).symm.readTo reached).symm⟩
    · rw [(hgoOn fuel).1, (hgoOn fuel).2]
      exact ih hends hnext
    · rw [(hfail fuel).1, (hfail fuel).2]
      exact ⟨rfl, hends.abreast⟩

/-- The interpreter has come to its extra words, and has taken as many others as the fuel allows. -/
structure CatchesUp (later extra : List (List UInt8)) (serve : Serve) (fuel : Nat) (first done : Machine) : Prop where
  running : done.exiting = false
  reading : ∃ left, Reading left done ∧ Text.words left = extra
  watched : Watched later ⟨done, [.source], none⟩
  goesOn : ∃ count ≤ fuel, ∀ more, interpretSource serve (count + more) first = interpretSource serve more done

/-- Where one text has words left when the other ends, the interpreters come to the end of the other alike. -/
theorem interpretSource_until (fuel : Nat) (hinStep : InStep extra first second)
    (hwatched : Watched later ⟨first, [.source], none⟩) :
    (∃ done other, interpretSource serve fuel second = .ok () other ∧ done.Abreast other ∧
        CatchesUp later extra serve fuel first done) ∨
      (∃ fault done other, interpretSource serve fuel second = .error (.fault fault) other ∧ done.Abreast other ∧
        ∀ more, interpretSource serve (fuel + more) first = .error (.fault fault) done) ∨
      ∃ done other, interpretSource serve fuel second = .error .outOfFuel other ∧
        interpretSource serve fuel first = .error .outOfFuel done := by
  induction fuel generalizing first second with
  | zero => exact .inr (.inr ⟨first, second, rfl, rfl⟩)
  | succ fuel ih =>
    rcases nextWord_together hserve hinStep hwatched with ⟨left, toIn, hleft, hwords, hsnd⟩ |
      ⟨done, other, hends, hnext, hgoOn⟩ | ⟨halt, done, other, hends, hfail⟩
    · exact .inl ⟨first, _, interpretSource_of_end hsnd, hinStep.abreast.readTo toIn, hinStep.running,
        ⟨left, hleft, hwords⟩, hwatched, 0, Nat.zero_le _, fun more => by rw [Nat.zero_add]⟩
    · rcases ih hends hnext with ⟨last, final, hsnd, habr, hcaught⟩ | ⟨fault, last, final, hsnd, habr, hfst⟩ |
        ⟨last, final, hsnd, hfst⟩
      · obtain ⟨count, hcount, hfst⟩ := hcaught.goesOn
        refine .inl ⟨last, final, (hgoOn fuel).2.trans hsnd, habr,
          { hcaught with goesOn := ⟨count + 1, Nat.succ_le_succ hcount, fun more => ?_⟩ }⟩
        rw [Nat.succ_add, (hgoOn _).1, hfst]
      · refine .inr (.inl ⟨fault, last, final, (hgoOn fuel).2.trans hsnd, habr, fun more => ?_⟩)
        rw [Nat.succ_add, (hgoOn _).1, hfst]
      · exact .inr (.inr ⟨last, final, (hgoOn fuel).2.trans hsnd, (hgoOn fuel).1.trans hfst⟩)
    · cases halt with
      | fault fault =>
        refine .inr (.inl ⟨fault, done, other, (hfail fuel).2, hends.abreast, fun more => ?_⟩)
        rw [Nat.succ_add, (hfail _).1]
      | outOfFuel => exact .inr (.inr ⟨done, other, (hfail fuel).2, (hfail fuel).1⟩)

end Interpreter

end ThreadedForth
