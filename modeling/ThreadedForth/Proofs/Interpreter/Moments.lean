
import ThreadedForth.Proofs.Interpreter.Token

/-!
# A run step by step

The interpreter is written as nested loops, so between its start and its end there is nothing to speak of. Here
the same run is a sequence of moments. A moment has the machine, the jobs that are left to do, the next one
first, and the fault that is on its way, if there is one. A step takes the next job: it is done, and may leave
other jobs in its place, or, once there is a fault, it is passed over, and only what it has to clean up is done.

Whenever a call of the interpreter comes back, the steps from the same machine lead to the same end
(`Amounts`). They need no fuel, so that a run that does not end has its moments too.
-/

namespace ThreadedForth

open WordM Layout

/-- What is left to do. -/
inductive Job where
  /-- Do what the word with an execution token does. -/
  | dispatch (xt : Nat)
  /-- Run the thread. -/
  | thread
  /-- Put the instruction pointer back. -/
  | putBack (ip : Nat)
  | serve (request : Request)
  /-- Make a text the source, and interpret it. -/
  | take (text : Source)
  /-- Interpret the rest of the source. -/
  | source
  /-- Execute, compile or read a word of the source. -/
  | token (name : String)
  /-- Go on with the source, unless the program has asked to end. -/
  | goOn
  /-- Take up the source that was set aside. -/
  | resume
  | lines (lines : List (Except DiskFault String))
  | line (text : String)
  /-- Go back to the line that asked for a file. -/
  | leave (readers : List Reader) (bytes : List UInt8)

namespace Job

/-- Go back to the line that asked for a file. -/
def leaveFile (readers : List Reader) (bytes : List UInt8) : WordM Unit := do
  update fun m => { m with readers }
  onMemory (Memory.writeBytes inputBuffer bytes)
  resumeSource

/-- Do what a code says of the word with an execution token. -/
def runCode (xt : Nat) : Option Code → WordM (List Job)
  | some .colon => do Interpreter.dispatch.enter (Header.body xt); return []
  | some .pushBody => do pushNat (Header.body xt); return []
  | some .pushCell => do push (← readCell (Header.body xt)); return []
  | some .does => do
    pushNat (Header.body xt)
    pushReturn (Cell.ofNat (← ask fun m => .ok m.ip))
    let does ← readCell (Header.doesField (Header.ofToken xt))
    ThreadWord.setIp (← ask (·.memory.address does))
    return []
  | some (.prim prim) => return (← prim.perform).toList.map serve
  | none => throw (.invalidAddress (signedAddress xt))

/-- Do a job. The answer is what has to be done in its place. -/
def perform : Job → WordM (List Job)
  | dispatch xt => do runCode xt (Code.ofCell? (← readCell xt))
  | thread => do
    if (← ask fun m => .ok m.ip) = 0 then return []
    return [dispatch (← Interpreter.fetchToken), thread]
  | putBack ip => do ThreadWord.setIp ip; return []
  | serve (.execute xt) => do
    let ip ← ask fun m => .ok m.ip
    ThreadWord.setIp 0
    return [dispatch xt, thread, putBack ip]
  | serve (.evaluate text) => do suspendSource; return [take text, resume]
  | serve (.load path) => do
    let file ← Interpreter.openFile path
    reportLoading path
    let bytes ← readBytes inputBuffer inputBufferSize
    suspendSource
    let readers ← ask fun m => .ok m.readers
    update fun m => { m with readers := ⟨path, 0⟩ :: readers }
    return [lines file.lines, leave readers bytes]
  | take text => do setSource text; return [source]
  | source => do
    match ← nextToken? with
    | none => return []
    | some name => return [token name, goOn]
  | token name => do
    let compiling ← isCompiling
    match ← ask (·.findHeader? name) with
    | some header =>
      if compiling ∧ !header.isImmediate then do compileToken header.xt; return []
      else if !compiling ∧ header.isCompileOnly then throw (.compileOnly header.name)
      else return [serve (.execute header.xt)]
    | none => do Interpreter.interpretNumber compiling name; return []
  | goOn => do
    if ← ask fun m => .ok m.exiting then return [] else return [source]
  | resume => do resumeSource; return []
  | lines [] => return []
  | lines (first :: rest) => do
    if ← ask fun m => .ok m.exiting then return []
    match first with
    | .error cause => throw (.io cause.message)
    | .ok text => do Interpreter.countLine; return [line text, lines rest]
  | line text => do
    let bytes := Utf8.encode text
    if inputBufferSize < bytes.length then throw .textOverflow
    onMemory (Memory.writeBytes inputBuffer bytes)
    setSource ⟨inputBuffer, bytes.length⟩
    return [source]
  | leave readers bytes => do leaveFile readers bytes; return []

/-- What has to be cleaned up of a job that is passed over because of a fault. -/
def cleanUp (fault : Fault) : Job → WordM Unit
  | putBack ip => ThreadWord.setIp ip
  | resume => resumeSource
  | leave readers bytes => do
    match ← ask fun m => .ok m.readers with
    | reader :: _ => reportFailed reader fault
    | [] => pure ()
    leaveFile readers bytes
  | _ => pure ()

/-- Nothing has to be cleaned up. -/
def isPlain : Job → Bool
  | putBack _ | resume | leave _ _ => false
  | _ => true

theorem cleanUp_of_isPlain {job : Job} (hplain : job.isPlain = true) (fault : Fault) : job.cleanUp fault = pure () := by
  cases job <;> first | (cases hplain; done) | rfl

end Job

/-- A moment of a run. -/
structure Moment where
  machine : Machine
  jobs : List Job
  fault : Option Fault

namespace Moment

/-- Take the next job. -/
def next (moment : Moment) : Option Moment :=
  match moment.jobs, moment.fault with
  | [], _ => none
  | job :: rest, none =>
    match job.perform moment.machine with
    | .ok jobs m => some ⟨m, jobs ++ rest, none⟩
    | .error fault m => some ⟨m, rest, some fault⟩
  | job :: rest, some fault =>
    match job.cleanUp fault moment.machine with
    | .ok _ m => some ⟨m, rest, some fault⟩
    | .error worse m => some ⟨m, rest, some worse⟩

/-- Steps lead from a moment to another. -/
inductive Leads : Moment → Moment → Prop where
  | refl (moment : Moment) : Leads moment moment
  | step {first second last : Moment} (hnext : first.next = some second) (hrest : Leads second last) : Leads first last

theorem Leads.trans {first second last : Moment} (hfst : Leads first second) (hsnd : Leads second last) :
    Leads first last := by
  induction hfst with
  | refl => exact hsnd
  | step hnext _ ih => exact .step hnext (ih hsnd)

variable {m after : Machine} {job : Job} {jobs rest : List Job} {fault worse : Fault}

theorem leads_of_ok (hperf : job.perform m = .ok jobs after) :
    Leads ⟨m, job :: rest, none⟩ ⟨after, jobs ++ rest, none⟩ :=
  .step (by simp only [next, hperf]) (.refl _)

theorem leads_of_error (hperf : job.perform m = .error fault after) :
    Leads ⟨m, job :: rest, none⟩ ⟨after, rest, some fault⟩ :=
  .step (by simp only [next, hperf]) (.refl _)

theorem leads_of_cleanUp_ok (hcleanUp : job.cleanUp fault m = .ok () after) :
    Leads ⟨m, job :: rest, some fault⟩ ⟨after, rest, some fault⟩ :=
  .step (by simp only [next, hcleanUp]) (.refl _)

theorem leads_of_cleanUp_error (hcleanUp : job.cleanUp fault m = .error worse after) :
    Leads ⟨m, job :: rest, some fault⟩ ⟨after, rest, some worse⟩ :=
  .step (by simp only [next, hcleanUp]) (.refl _)

theorem leads_of_isPlain (hplain : ∀ job ∈ jobs, job.isPlain = true) :
    Leads ⟨m, jobs ++ rest, some fault⟩ ⟨m, rest, some fault⟩ := by
  induction jobs with
  | nil => exact .refl _
  | cons job jobs ih =>
    have hcleanUp : job.cleanUp fault m = .ok () m := by
      rw [Job.cleanUp_of_isPlain (hplain job List.mem_cons_self)]
      rfl
    exact (leads_of_cleanUp_ok hcleanUp).trans (ih fun job hjob => hplain job (List.mem_cons_of_mem _ hjob))

end Moment

/-! ### The interpreter follows the steps -/

/-- The jobs lead from a machine to a result, whatever is to be done after them. A run that ended for want of
fuel has not come to its result. -/
def Arrives (jobs : List Job) (m : Machine) : EStateM.Result Halt Machine Unit → Prop
  | .ok _ after => ∀ rest, Moment.Leads ⟨m, jobs ++ rest, none⟩ ⟨after, rest, none⟩
  | .error (.fault fault) after => ∀ rest, Moment.Leads ⟨m, jobs ++ rest, none⟩ ⟨after, rest, some fault⟩
  | .error .outOfFuel _ => True

theorem Arrives.of_leads {first second : List Job} {m middle : Machine} {result : EStateM.Result Halt Machine Unit}
    (hleads : ∀ rest, Moment.Leads ⟨m, first ++ rest, none⟩ ⟨middle, second ++ rest, none⟩)
    (hsnd : Arrives second middle result) : Arrives first m result := by
  match result with
  | .ok _ _ => exact fun rest => (hleads rest).trans (hsnd rest)
  | .error (.fault _) _ => exact fun rest => (hleads rest).trans (hsnd rest)
  | .error .outOfFuel _ => trivial

/-- The jobs amount to an action. -/
def Amounts (jobs : List Job) (action : RunM Unit) : Prop := ∀ m, Arrives jobs m (action m)

/-- The first part of an action is done at once, and the jobs that are left do the rest. -/
def Opens (first : WordM (List Job)) (action : RunM Unit) : Prop := ∀ m,
  match first m with
  | .ok jobs after => Arrives jobs after (action m)
  | .error fault after => action m = .error (.fault fault) after

namespace Opens

variable {α : Type} {job : Job} {jobs : List Job} {action : RunM Unit}

theorem bind (step : WordM α) {more : α → WordM (List Job)} {rest : α → RunM Unit}
    (hrest : ∀ answer, Opens (more answer) (rest answer)) : Opens (step >>= more) ((liftM step : RunM α) >>= rest) := by
  intro m
  cases hstep : step m with
  | ok answer after =>
    rw [bind_of_ok hstep, bind_of_ok (WordM.run_of_ok hstep)]
    exact hrest answer after
  | error fault after =>
    rw [bind_of_error hstep, bind_of_error (WordM.run_of_error hstep)]

theorem ask_get (field : Machine → α) {more : α → WordM (List Job)} {rest : Machine → RunM Unit}
    (hrest : ∀ m, Opens (more (field m)) (rest m)) :
    Opens (WordM.ask (fun m => .ok (field m)) >>= more) ((get : RunM Machine) >>= rest) :=
  fun m => hrest m m

theorem throw (fault : Fault) : Opens (MonadExcept.throw fault) (MonadExcept.throw (.fault fault)) :=
  fun _ => rfl

theorem pure (hamounts : Amounts jobs action) : Opens (Pure.pure jobs) action := hamounts

theorem done : Opens (Pure.pure []) (Pure.pure ()) := fun _ _ => .refl _

theorem whole (step : WordM Unit) : Opens (step >>= fun _ => Pure.pure []) (liftM step) := by
  intro m
  cases hstep : step m with
  | ok answer after =>
    rw [bind_of_ok hstep, WordM.run_of_ok hstep]
    exact fun rest => .refl _
  | error fault after =>
    rw [bind_of_error hstep, WordM.run_of_error hstep]

theorem ite {condition : Prop} [Decidable condition] {first other : WordM (List Job)} {more less : RunM Unit}
    (hyes : Opens first more) (hno : Opens other less) :
    Opens (if condition then first else other) (if condition then more else less) := by
  split
  · exact hyes
  · exact hno

theorem amounts (hopens : Opens job.perform action) : Amounts [job] action := by
  intro m
  have hm := hopens m
  cases hperf : job.perform m with
  | ok jobs after =>
    rw [hperf] at hm
    exact hm.of_leads fun rest => Moment.leads_of_ok hperf
  | error fault after =>
    rw [hperf] at hm
    rw [hm]
    exact fun rest => Moment.leads_of_error hperf

end Opens

namespace Amounts

variable {first second jobs : List Job} {action more : RunM Unit} {job : Job}

theorem outOfFuel : Amounts jobs (throw .outOfFuel) := fun _ => trivial

theorem bind (hfst : Amounts first action) (hsnd : Amounts second more)
    (hplain : ∀ job ∈ second, job.isPlain = true) : Amounts (first ++ second) (action >>= fun _ => more) := by
  intro m
  have hm := hfst m
  cases hact : action m with
  | ok answer after =>
    rw [hact] at hm
    rw [bind_of_ok hact]
    refine (hsnd after).of_leads fun rest => ?_
    rw [List.append_assoc]
    exact hm _
  | error halt after =>
    rw [hact] at hm
    rw [bind_of_error hact]
    cases halt with
    | fault fault =>
      intro rest
      rw [List.append_assoc]
      exact (hm _).trans (Moment.leads_of_isPlain hplain)
    | outOfFuel => trivial

/-- The last job is what has to be done in any case. -/
theorem andAlways {cleanUp : Option Fault → RunM Unit} (hjobs : Amounts jobs action)
    (hdone : Opens job.perform (cleanUp none)) (hfailed : ∀ fault, cleanUp (some fault) = liftM (job.cleanUp fault)) :
    Amounts (jobs ++ [job]) (RunM.andAlways action cleanUp) := by
  intro m
  have hm := hjobs m
  rw [RunM.andAlways]
  cases hact : action m with
  | ok answer after =>
    rw [hact] at hm
    refine (hdone.amounts after).of_leads fun rest => ?_
    rw [List.append_assoc]
    exact hm _
  | error halt after =>
    rw [hact] at hm
    cases halt with
    | outOfFuel => trivial
    | fault fault =>
      dsimp only
      rw [hfailed]
      cases hclean : job.cleanUp fault after with
      | ok _ last =>
        rw [WordM.run_of_ok hclean]
        intro rest
        rw [List.append_assoc]
        exact (hm _).trans (Moment.leads_of_cleanUp_ok hclean)
      | error worse last =>
        rw [WordM.run_of_error hclean]
        intro rest
        rw [List.append_assoc]
        exact (hm _).trans (Moment.leads_of_cleanUp_error hclean)

end Amounts

namespace Interpreter

open Job WordM

theorem leave_eq (readers : List Reader) (bytes : List UInt8) :
    loadFile.leave readers bytes = liftM (leaveFile readers bytes) := by
  rw [loadFile.leave, leaveFile, liftM_bind]
  simp only [liftM_bind]

variable {serve : Serve} (hserve : ∀ request, Amounts [.serve request] (serve request))

include hserve

theorem amounts_dispatch (xt : Nat) : Amounts [.dispatch xt] (Interpreter.dispatch serve xt) := by
  refine Opens.amounts ?_
  unfold Job.perform Interpreter.dispatch
  refine Opens.bind _ fun cell => ?_
  cases Code.ofCell? cell with
  | none => exact Opens.throw _
  | some code =>
    cases code with
    | colon => exact Opens.whole _
    | pushBody => exact Opens.whole _
    | pushCell => exact Opens.bind _ fun value => Opens.whole _
    | does =>
      refine Opens.bind _ fun _ => Opens.ask_get (·.ip) fun _ => Opens.bind _ fun _ => Opens.bind _ fun does => ?_
      exact Opens.bind _ fun target => Opens.whole _
    | prim prim =>
      refine Opens.bind _ fun request => ?_
      cases request with
      | none => exact Opens.done
      | some request => exact Opens.pure (hserve request)

theorem amounts_runThread (fuel : Nat) : Amounts [.thread] (runThread serve fuel) := by
  induction fuel with
  | zero => exact Amounts.outOfFuel
  | succ fuel ih =>
    refine Opens.amounts ?_
    unfold Job.perform runThread
    refine Opens.ask_get (·.ip) fun _ => Opens.ite Opens.done ?_
    refine Opens.bind _ fun xt => Opens.pure ?_
    exact (amounts_dispatch hserve xt).bind ih (by simp [Job.isPlain])

theorem amounts_execute (fuel xt : Nat) : Amounts [.serve (.execute xt)] (execute serve fuel xt) := by
  intro m
  have hbody : Amounts [.dispatch xt, .thread] (do Interpreter.dispatch serve xt; runThread serve fuel) :=
    (amounts_dispatch hserve xt).bind (amounts_runThread hserve fuel) (by simp [Job.isPlain])
  have halways : Amounts [.dispatch xt, .thread, .putBack m.ip]
      (RunM.andAlways (do Interpreter.dispatch serve xt; runThread serve fuel)
        fun _ => liftM (ThreadWord.setIp m.ip)) :=
    hbody.andAlways (Opens.whole _) fun _ => rfl
  have harrives := halways { m with ip := 0 }
  rw [RunM.andAlways] at harrives
  suffices hbegun : Arrives [.dispatch xt, .thread, .putBack m.ip] { m with ip := 0 }
      (execute serve fuel xt m) from hbegun.of_leads fun rest => Moment.leads_of_ok rfl
  rw [execute]
  cases hrun : (do Interpreter.dispatch serve xt; runThread serve fuel : RunM Unit) { m with ip := 0 } with
  | ok _ after =>
    rw [hrun] at harrives
    exact harrives
  | error halt after =>
    rw [hrun] at harrives
    cases halt with
    | fault fault => exact harrives
    | outOfFuel => trivial

theorem amounts_interpretToken (name : String) : Amounts [.token name] (interpretToken serve name) := by
  refine Opens.amounts ?_
  unfold Job.perform interpretToken
  refine Opens.bind _ fun compiling => Opens.bind _ fun found => ?_
  cases found with
  | none => exact Opens.whole _
  | some header => exact Opens.ite (Opens.whole _) (Opens.ite (Opens.throw _) (Opens.pure (hserve _)))

theorem amounts_interpretSource (fuel : Nat) : Amounts [.source] (interpretSource serve fuel) := by
  induction fuel with
  | zero => exact Amounts.outOfFuel
  | succ fuel ih =>
    refine Opens.amounts ?_
    unfold Job.perform interpretSource
    refine Opens.bind _ fun found => ?_
    cases found with
    | none => exact Opens.done
    | some name =>
      have hgoOn : Amounts [.goOn] (do if (← get).exiting then return () else interpretSource serve fuel) :=
        Opens.amounts (Opens.ask_get (·.exiting) fun _ => Opens.ite Opens.done (Opens.pure ih))
      exact Opens.pure ((amounts_interpretToken hserve name).bind hgoOn (by simp [Job.isPlain]))

theorem amounts_interpretLine (fuel : Nat) (text : String) : Amounts [.line text] (interpretLine serve fuel text) := by
  refine Opens.amounts ?_
  unfold Job.perform interpretLine
  dsimp only
  split
  · exact Opens.throw _
  · refine Opens.bind _ fun _ => Opens.bind _ fun _ => Opens.pure (amounts_interpretSource hserve fuel)

theorem amounts_evaluate (fuel : Nat) (text : Source) :
    Amounts [.serve (.evaluate text)] (evaluate serve fuel text) := by
  have htake : Amounts [.take text] (do setSource text; interpretSource serve fuel) :=
    Opens.amounts (Opens.bind _ fun _ => Opens.pure (amounts_interpretSource hserve fuel))
  refine Opens.amounts (Opens.bind _ fun _ => Opens.pure ?_)
  exact htake.andAlways (Opens.whole _) fun _ => rfl

theorem amounts_interpretLines (fuel : Nat) (lines : List (Except DiskFault String)) :
    Amounts [.lines lines] (interpretLines serve fuel lines) := by
  induction lines with
  | nil => exact Opens.amounts Opens.done
  | cons first rest ih =>
    refine Opens.amounts ?_
    unfold Job.perform interpretLines
    refine Opens.ask_get (·.exiting) fun _ => Opens.ite Opens.done ?_
    cases first with
    | error cause => exact Opens.throw _
    | ok text =>
      refine Opens.bind _ fun _ => Opens.pure ?_
      exact (amounts_interpretLine hserve fuel text).bind ih (by simp [Job.isPlain])

theorem amounts_loadFile (fuel : Nat) (path : String) : Amounts [.serve (.load path)] (loadFile serve fuel path) := by
  refine Opens.amounts ?_
  unfold Job.perform loadFile
  refine Opens.bind _ fun file => Opens.bind _ fun _ => Opens.bind _ fun bytes => Opens.bind _ fun _ => ?_
  refine Opens.ask_get (·.readers) fun m => Opens.bind _ fun _ => Opens.pure ?_
  change Amounts ([.lines file.lines] ++ [.leave m.readers bytes]) _
  refine (amounts_interpretLines hserve fuel file.lines).andAlways ?_ fun fault => ?_
  · dsimp only
    rw [leave_eq]
    exact Opens.whole _
  · funext failed
    dsimp only
    have hask : ask (fun m => .ok m.readers) failed = .ok failed.readers failed := rfl
    have hget : (get : RunM Machine) failed = .ok failed failed := rfl
    rw [leave_eq, Job.cleanUp, liftM_bind, bind_of_ok (WordM.run_of_ok hask), bind_of_ok hget]
    cases failed.readers with
    | nil => rfl
    | cons reader others =>
      dsimp only
      rw [liftM_bind]

omit hserve in
theorem amounts_serve (fuel : Nat) (request : Request) : Amounts [.serve request] (Interpreter.serve fuel request) := by
  induction fuel generalizing request with
  | zero => exact Amounts.outOfFuel
  | succ fuel ih =>
    cases request with
    | execute xt => exact amounts_execute ih fuel xt
    | evaluate text => exact amounts_evaluate ih fuel text
    | load path => exact amounts_loadFile ih fuel path

end Interpreter

/-! ### Sessions -/

/-- The moment when a call has come back. -/
def Moment.back? : EStateM.Result Halt Machine Unit → Option Moment
  | .ok _ after => some ⟨after, [], none⟩
  | .error (.fault fault) after => some ⟨after, [], some fault⟩
  | .error .outOfFuel _ => none

theorem Arrives.leads {jobs : List Job} {m : Machine} {result : EStateM.Result Halt Machine Unit}
    (harrives : Arrives jobs m result) : ∀ moment ∈ Moment.back? result, Moment.Leads ⟨m, jobs, none⟩ moment := by
  rintro _ hback
  rcases result with _ | ⟨_ | _, _⟩ <;> cases hback <;> simpa using harrives []

/-- What a session may be asked to do. -/
inductive Call where
  | line (text : String)
  | load (path : String)
  | recover

namespace Call

/-- Answer a call. -/
def answer (fuel : Nat) : Call → RunM Unit
  | line text => Session.interpretLine fuel text
  | load path => Session.loadFile fuel path
  | recover => liftM (WordM.update Machine.recover)

/-- How a call is answered step by step: the machine it begins with, and the jobs it is made of. -/
def opening (m : Machine) : Call → Moment
  | line text => ⟨m, [.line text], none⟩
  | load path => ⟨m, [.serve (.load path)], none⟩
  | recover => ⟨m.recover, [], none⟩

theorem opening_leads (fuel : Nat) (call : Call) (m : Machine) :
    ∀ moment ∈ Moment.back? (call.answer fuel m), (call.opening m).Leads moment := by
  cases call with
  | line text => exact (Interpreter.amounts_interpretLine (Interpreter.amounts_serve fuel) fuel text m).leads
  | load path => exact (Interpreter.amounts_loadFile (Interpreter.amounts_serve fuel) fuel path m).leads
  | recover =>
    intro moment hback
    obtain rfl : ⟨m.recover, [], none⟩ = moment := Option.some.inj hback
    exact .refl _

end Call

/-- A step of a session: the next job is taken or, if there is none, a call is made, whether the last one came
back with a fault or not. -/
inductive Moment.Step : Moment → Moment → Prop where
  | job {before after : Moment} (hnext : before.next = some after) : Step before after
  | call (call : Call) (m : Machine) (fault : Option Fault) : Step ⟨m, [], fault⟩ (call.opening m)

/-- A machine that has been started, with or without the prelude. -/
def Machine.Started (m : Machine) : Prop :=
  ∃ fuel withPrelude disk verbose, Session.start fuel withPrelude (Machine.new disk verbose) = .ok () m

/-- A run of a session: its moments up to the last one, from a machine that has just been started. -/
structure Run where
  moment : Nat → Moment
  last : Nat
  started : (moment 0).machine.Started
  idle : (moment 0).jobs = []
  step : ∀ n < last, (moment n).Step (moment (n + 1))

namespace Run

/-- A machine that has been started, and no call yet. -/
def ofStarted {m : Machine} (hstarted : m.Started) : Run where
  moment _ := ⟨m, [], none⟩
  last := 0
  started := hstarted
  idle := rfl
  step n hn := absurd hn (Nat.not_lt_zero n)

/-- Go on for a step. -/
def snoc (run : Run) {next : Moment} (hstep : (run.moment run.last).Step next) : Run where
  moment n := if n ≤ run.last then run.moment n else next
  last := run.last + 1
  started := by simpa using run.started
  idle := by simpa using run.idle
  step n hn := by
    rcases Nat.lt_or_ge n run.last with hlt | hge
    · rw [if_pos (Nat.le_of_lt hlt), if_pos (Nat.succ_le_of_lt hlt)]
      exact run.step n hlt
    · obtain rfl : n = run.last := by omega
      rw [if_pos (Nat.le_refl _), if_neg (Nat.not_succ_le_self _)]
      exact hstep

variable {next : Moment}

@[simp] theorem snoc_last (run : Run) (hstep : (run.moment run.last).Step next) :
    (run.snoc hstep).last = run.last + 1 := rfl

@[simp] theorem moment_snoc_last (run : Run) (hstep : (run.moment run.last).Step next) :
    (run.snoc hstep).moment (run.last + 1) = next :=
  if_neg (Nat.not_succ_le_self _)

theorem moment_snoc_of_le (run : Run) (hstep : (run.moment run.last).Step next) {n : Nat}
    (hn : n ≤ run.last) : (run.snoc hstep).moment n = run.moment n :=
  if_pos hn

/-- The run can go on until the moment. -/
def Reaches (run : Run) (moment : Moment) : Prop :=
  ∃ longer : Run, longer.moment longer.last = moment ∧ run.last ≤ longer.last ∧
    ∀ n ≤ run.last, longer.moment n = run.moment n

theorem reaches_of_snoc (run : Run) (hstep : (run.moment run.last).Step next) {moment : Moment}
    (hreaches : (run.snoc hstep).Reaches moment) : run.Reaches moment := by
  obtain ⟨longer, hlast, hle, hsame⟩ := hreaches
  rw [snoc_last] at hle hsame
  exact ⟨longer, hlast, by omega, fun n hn => (hsame n (by omega)).trans (run.moment_snoc_of_le hstep hn)⟩

theorem reaches_of_leads (run : Run) {moment : Moment} (hleads : (run.moment run.last).Leads moment) :
    run.Reaches moment := by
  generalize hfst : run.moment run.last = first at hleads
  induction hleads generalizing run with
  | refl => exact ⟨run, hfst, Nat.le_refl _, fun n hn => rfl⟩
  | step hnext _ ih =>
    have hstep := Moment.Step.job (hfst ▸ hnext)
    exact run.reaches_of_snoc hstep (ih (run.snoc hstep) (run.moment_snoc_last hstep))

/-- A call that comes back is a part of a run. -/
theorem reaches_of_call (run : Run) {m : Machine} {fault : Option Fault}
    (hidle : run.moment run.last = ⟨m, [], fault⟩) (fuel : Nat) (call : Call) :
    ∀ moment ∈ Moment.back? (call.answer fuel m), run.Reaches moment := by
  intro moment hback
  have hstep : (run.moment run.last).Step (call.opening m) := hidle ▸ .call call m fault
  refine run.reaches_of_snoc hstep (reaches_of_leads _ ?_)
  rw [snoc_last, moment_snoc_last]
  exact call.opening_leads fuel m moment hback

end Run

end ThreadedForth
