
import ThreadedForth.Proofs.Machine.Steady

/-!
# One word of the source

What the outer interpreter does with a word depends on two questions: whether a definition is being
compiled, and what the dictionary says about the word. Once they are answered, a word is compiled,
executed or read as a number, and a primitive that is executed does its own action.
-/

namespace ThreadedForth

open Layout

namespace WordM

variable {α : Type} {action : WordM α} {before after : Machine}

theorem run_of_ok {answer : α} (hact : action before = .ok answer after) :
    (liftM action : RunM α) before = .ok answer after := by
  change run action before = _
  rw [run, hact]

theorem run_of_error {fault : Fault} (hact : action before = .error fault after) :
    (liftM action : RunM α) before = .error (.fault fault) after := by
  change run action before = _
  rw [run, hact]

theorem run_bind_of_ok {β : Type} {rest : α → WordM β} {answer : α} (hact : action before = .ok answer after) :
    (liftM (action >>= rest) : RunM β) before = (liftM (rest answer) : RunM β) after := by
  change run (action >>= rest) before = run (rest answer) after
  rw [run, bind_of_ok hact, run]

theorem of_run_eq_ok {answer : α} (hrun : (liftM action : RunM α) before = .ok answer after) :
    action before = .ok answer after := by
  change run action before = _ at hrun
  rw [run] at hrun
  split at hrun
  · next hact =>
    cases hrun
    exact hact
  · cases hrun

theorem ask_of_ok {question : Machine → Except Fault α} {answer : α}
    (hquestion : question before = .ok answer) : ask question before = .ok answer before := by
  rw [ask, hquestion]

theorem of_ask_eq_ok {question : Machine → Except Fault α} {answer : α}
    (hask : ask question before = .ok answer after) : question before = .ok answer ∧ after = before := by
  rw [ask] at hask
  split at hask
  · next hquestion =>
    cases hask
    exact ⟨hquestion, rfl⟩
  · cases hask

theorem writeCell_of_low (hb : before.Bounded) {addr : Nat} (value : Cell)
    (hlow : addr + 4 ≤ dictionaryStart) (halign : addr % 4 = 0) :
    writeCell addr value before = .ok () { before with memory := before.memory.setCell addr value } := by
  have horder := order
  rw [writeCell, onMemory, Memory.writeCell_eq_ok value (by rw [hb.size_eq]; omega) halign]

variable {text : Source}

variable (hb : before.Bounded)

include hb

theorem of_advance_eq_ok {offset length : Nat} (hadvance : advance offset length before = .ok text after) :
    ∃ toIn, after = { before with memory := before.memory.setCell Layout.toIn toIn } := by
  obtain ⟨source, _, hsource, hmove⟩ := of_bind_eq_ok hadvance
  cases (of_ask_eq_ok hsource).2
  obtain ⟨_, last, hwrite, hdone⟩ := of_bind_eq_ok hmove
  rw [writeCell_of_low hb _ (by decide) (by decide)] at hwrite
  cases hwrite
  cases hdone
  exact ⟨_, rfl⟩

theorem of_parse_eq_ok {delimiter : UInt8} (hparse : parse delimiter before = .ok text after) :
    ∃ toIn, after = { before with memory := before.memory.setCell Layout.toIn toIn } := by
  obtain ⟨offset, _, hoff, hscan⟩ := of_bind_eq_ok hparse
  cases (of_ask_eq_ok hoff).2
  obtain ⟨finish, _, hfin, hadvance⟩ := of_bind_eq_ok hscan
  cases (of_ask_eq_ok hfin).2
  exact of_advance_eq_ok hb hadvance

theorem of_nextToken?_eq_ok {token : Option String} (hnext : nextToken? before = .ok token after) :
    ∃ toIn, after = { before with memory := before.memory.setCell Layout.toIn toIn } := by
  obtain ⟨name, named, hname, hrest⟩ := of_bind_eq_ok hnext
  obtain ⟨offset, _, hoff, hskip⟩ := of_bind_eq_ok hname
  cases (of_ask_eq_ok hoff).2
  obtain ⟨start, _, hstart, hscan⟩ := of_bind_eq_ok hskip
  cases (of_ask_eq_ok hstart).2
  obtain ⟨finish, _, hfin, hadvance⟩ := of_bind_eq_ok hscan
  cases (of_ask_eq_ok hfin).2
  obtain ⟨toIn, rfl⟩ := of_advance_eq_ok hb hadvance
  refine ⟨toIn, ?_⟩
  split at hrest
  · cases hrest
    rfl
  · obtain ⟨text, _, htext, hdone⟩ := of_bind_eq_ok hrest
    cases (of_ask_eq_ok htext).2
    cases hdone
    rfl

theorem of_requireName_eq_ok {name : String} (hname : requireName before = .ok name after) :
    ∃ toIn, after = { before with memory := before.memory.setCell Layout.toIn toIn } := by
  obtain ⟨token, middle, hnext, hrest⟩ := of_bind_eq_ok hname
  obtain ⟨toIn, rfl⟩ := of_nextToken?_eq_ok hb hnext
  cases token with
  | none => cases hrest
  | some found =>
    cases hrest
    exact ⟨toIn, rfl⟩

theorem isCompiling_eq : isCompiling before = .ok (before.memory.cellAt state != 0) before := by
  have hread : before.memory.readCell state = .ok (before.memory.cellAt state) :=
    Memory.readCell_eq_ok (by rw [hb.size_eq]; decide) (by decide)
  exact bind_of_ok (show readCell state before = _ from ask_of_ok hread)

end WordM

theorem liftM_bind {α β : Type} (first : WordM α) (rest : α → WordM β) :
    (liftM (first >>= rest) : RunM β) = (liftM first : RunM α) >>= fun answer => liftM (rest answer) := by
  funext m
  cases hfst : first m with
  | ok answer after =>
    rw [WordM.run_bind_of_ok hfst, bind_of_ok (WordM.run_of_ok hfst)]
  | error fault after =>
    rw [WordM.run_of_error (bind_of_error hfst), bind_of_error (WordM.run_of_error hfst)]

namespace Machine

/-- A definition is being compiled. -/
def Compiling (m : Machine) : Prop := m.memory.cellAt state ≠ 0

end Machine

namespace Interpreter

open WordM

variable {serve : Serve} {m : Machine} {token : String} {header : Header}

/-! ### Answers of the dictionary -/

theorem interpretToken_of_compiled (hb : m.Bounded) (hcpl : m.Compiling)
    (hfind : m.findHeader? token = .ok (some header)) (himm : header.isImmediate = false) :
    interpretToken serve token m = (liftM (compileToken header.xt) : RunM Unit) m := by
  have htrue : (m.memory.cellAt state != 0) = true := bne_iff_ne.2 hcpl
  refine (bind_of_ok (run_of_ok (isCompiling_eq hb))).trans ?_
  refine (bind_of_ok (run_of_ok (ask_of_ok hfind))).trans ?_
  simp only [htrue, himm, Bool.not_false, and_self, if_true]

theorem interpretToken_of_immediate (hb : m.Bounded) (hcpl : m.Compiling)
    (hfind : m.findHeader? token = .ok (some header)) (himm : header.isImmediate = true) :
    interpretToken serve token m = serve (.execute header.xt) m := by
  have htrue : (m.memory.cellAt state != 0) = true := bne_iff_ne.2 hcpl
  refine (bind_of_ok (run_of_ok (isCompiling_eq hb))).trans ?_
  refine (bind_of_ok (run_of_ok (ask_of_ok hfind))).trans ?_
  simp only [htrue, himm, Bool.not_true, Bool.false_eq_true, and_false, if_false, false_and]

theorem interpretToken_of_interpreted (hb : m.Bounded) (hidle : ¬ m.Compiling)
    (hfind : m.findHeader? token = .ok (some header)) (honly : header.isCompileOnly = false) :
    interpretToken serve token m = serve (.execute header.xt) m := by
  have hfalse : (m.memory.cellAt state != 0) = false := by
    rw [Machine.Compiling, ne_eq, Decidable.not_not] at hidle
    rw [hidle]
    rfl
  refine (bind_of_ok (run_of_ok (isCompiling_eq hb))).trans ?_
  refine (bind_of_ok (run_of_ok (ask_of_ok hfind))).trans ?_
  simp only [hfalse, honly, Bool.false_eq_true, and_false, if_false, false_and]

theorem interpretToken_of_compileOnly (hb : m.Bounded) (hidle : ¬ m.Compiling)
    (hfind : m.findHeader? token = .ok (some header)) (honly : header.isCompileOnly = true) :
    interpretToken serve token m = .error (.fault (.compileOnly header.name)) m := by
  have hfalse : (m.memory.cellAt state != 0) = false := by
    rw [Machine.Compiling, ne_eq, Decidable.not_not] at hidle
    rw [hidle]
    rfl
  refine (bind_of_ok (run_of_ok (isCompiling_eq hb))).trans ?_
  refine (bind_of_ok (run_of_ok (ask_of_ok hfind))).trans ?_
  simp only [hfalse, honly, Bool.false_eq_true, Bool.not_false, and_self, if_true, if_false, false_and]
  rfl

theorem interpretToken_of_unknown (hb : m.Bounded) (hfind : m.findHeader? token = .ok none) :
    interpretToken serve token m =
      (liftM (interpretNumber (m.memory.cellAt state != 0) token) : RunM Unit) m := by
  refine (bind_of_ok (run_of_ok (isCompiling_eq hb))).trans ?_
  exact bind_of_ok (run_of_ok (@ask_of_ok _ _ (·.findHeader? token) _ hfind))

theorem of_header_eq_ok {memory : Memory} (hhdr : Dictionary.header memory addr = .ok header) :
    header.address = addr ∧ memory.readCell header.xt = .ok header.code := by
  rw [Dictionary.header] at hhdr
  obtain ⟨_, _, hhdr⟩ := of_question_eq_ok hhdr
  obtain ⟨_, _, hhdr⟩ := of_question_eq_ok hhdr
  obtain ⟨_, _, hhdr⟩ := of_question_eq_ok hhdr
  obtain ⟨_, _, hhdr⟩ := of_question_eq_ok hhdr
  obtain ⟨_, _, hhdr⟩ := of_question_eq_ok hhdr
  obtain ⟨code, hcode, hhdr⟩ := of_question_eq_ok hhdr
  cases hhdr
  exact ⟨rfl, hcode⟩

theorem header_of_findHeader? (hfind : m.findHeader? token = .ok (some header)) :
    Dictionary.header m.memory header.address = .ok header := by
  rw [Machine.findHeader?] at hfind
  obtain ⟨found, _, hfind⟩ := of_question_eq_ok hfind
  cases found with
  | none => cases hfind
  | some addr =>
    obtain ⟨read, hhdr, hread⟩ := of_question_eq_ok hfind
    cases hread
    rw [(of_header_eq_ok hhdr).1]
    exact hhdr

theorem readCell_of_findHeader? (hfind : m.findHeader? token = .ok (some header)) :
    m.memory.readCell header.xt = .ok header.code :=
  (of_header_eq_ok (header_of_findHeader? hfind)).2

/-! ### Primitives -/

variable {fuel addr : Nat} {cell : Cell} {prim : Prim} {before after : Machine}

theorem dispatch_of_ok (hread : before.memory.readCell addr = .ok cell)
    (hcode : Code.ofCell? cell = some (.prim prim)) (hperf : prim.perform before = .ok none after) :
    dispatch serve addr before = .ok () after := by
  refine (bind_of_ok (run_of_ok (@ask_of_ok _ _ (·.memory.readCell addr) _ hread))).trans ?_
  simp only [hcode]
  exact bind_of_ok (run_of_ok hperf)

variable {fault : Fault}

theorem dispatch_of_error (hread : before.memory.readCell addr = .ok cell)
    (hcode : Code.ofCell? cell = some (.prim prim)) (hperf : prim.perform before = .error fault after) :
    dispatch serve addr before = .error (.fault fault) after := by
  refine (bind_of_ok (run_of_ok (@ask_of_ok _ _ (·.memory.readCell addr) _ hread))).trans ?_
  simp only [hcode]
  exact bind_of_error (run_of_error hperf)

theorem of_dispatch_eq_ok (hread : before.memory.readCell addr = .ok cell)
    (hcode : Code.ofCell? cell = some (.prim prim)) (hdisp : dispatch serve addr before = .ok () after) :
    ∃ request middle, prim.perform before = .ok request middle ∧ (request = none → after = middle) := by
  cases hperf : prim.perform before with
  | error fault middle => cases hdisp.symm.trans (dispatch_of_error hread hcode hperf)
  | ok request middle =>
    refine ⟨request, middle, rfl, ?_⟩
    rintro rfl
    cases hdisp.symm.trans (dispatch_of_ok hread hcode hperf)
    rfl

theorem dispatch_of_colon (hread : before.memory.readCell addr = .ok cell) (hcode : Code.ofCell? cell = some .colon) :
    dispatch serve addr before = (liftM (dispatch.enter (Header.body addr)) : RunM Unit) before := by
  refine (bind_of_ok (run_of_ok (@ask_of_ok _ _ (·.memory.readCell addr) _ hread))).trans ?_
  rw [hcode]

/-- Push the address of the body of a word, and enter the code that the header of the word names. -/
def direct (token : Nat) : WordM Unit := do
  pushNat (Header.body token)
  pushReturn (Cell.ofNat (← ask fun m => .ok m.ip))
  let does ← readCell (Header.doesField (Header.ofToken token))
  ThreadWord.setIp (← ask (·.memory.address does))

theorem dispatch_of_does (hread : before.memory.readCell addr = .ok cell) (hcode : Code.ofCell? cell = some .does) :
    dispatch serve addr before = (liftM (direct addr) : RunM Unit) before := by
  refine (bind_of_ok (run_of_ok (@ask_of_ok _ _ (·.memory.readCell addr) _ hread))).trans ?_
  rw [hcode]
  simp only [direct, liftM_bind]
  rfl

theorem runThread_of_idle (hip : before.ip = 0) : runThread serve (fuel + 1) before = .ok () before := by
  rw [runThread]
  refine (bind_of_ok (show (get : RunM Machine) before = .ok before before from rfl)).trans ?_
  rw [if_pos hip]
  rfl

variable (hread : before.memory.readCell addr = .ok cell)

include hread

theorem serve_execute_of_ok (hcode : Code.ofCell? cell = some (.prim prim))
    (hperf : prim.perform { before with ip := 0 } = .ok none after) (hip : after.ip = 0) :
    Interpreter.serve (fuel + 2) (.execute addr) before = .ok () { after with ip := before.ip } := by
  have hdisp : dispatch (Interpreter.serve (fuel + 1)) addr { before with ip := 0 } = .ok () after :=
    dispatch_of_ok hread hcode hperf
  rw [Interpreter.serve, execute]
  simp only [bind_of_ok hdisp, runThread_of_idle hip]

theorem serve_execute_of_error (hcode : Code.ofCell? cell = some (.prim prim))
    (hperf : prim.perform { before with ip := 0 } = .error fault after) :
    Interpreter.serve (fuel + 1) (.execute addr) before = .error (.fault fault) { after with ip := before.ip } := by
  have hdisp : dispatch (Interpreter.serve fuel) addr { before with ip := 0 } = .error (.fault fault) after :=
    dispatch_of_error hread hcode hperf
  rw [Interpreter.serve, execute]
  simp only [bind_of_error hdisp]

/-- What the execution of a primitive that went well did. -/
theorem of_serve_execute_eq_ok (hcode : Code.ofCell? cell = some (.prim prim))
    (hserve : Interpreter.serve fuel (.execute addr) before = .ok () after) :
    ∃ request middle, prim.perform { before with ip := 0 } = .ok request middle ∧
      (request = none → middle.ip = 0 → after = { middle with ip := before.ip }) := by
  cases fuel with
  | zero => cases hserve
  | succ fuel =>
    rw [Interpreter.serve, execute] at hserve
    cases hdone : (do dispatch (Interpreter.serve fuel) addr; runThread (Interpreter.serve fuel) fuel :
        RunM Unit) { before with ip := 0 } with
    | error halt last =>
      simp only [hdone] at hserve
      cases hserve
    | ok answer last =>
      obtain ⟨_, middle, hdisp, hthread⟩ := of_bind_eq_ok hdone
      have hidle : ({ before with ip := 0 } : Machine).memory.readCell addr = .ok cell := hread
      obtain ⟨request, next, hperf, hnext⟩ := of_dispatch_eq_ok hidle hcode hdisp
      refine ⟨request, next, hperf, fun hrequest hip => ?_⟩
      cases hnext hrequest
      simp only [hdone] at hserve
      cases fuel with
      | zero => cases hthread
      | succ fuel =>
        rw [runThread_of_idle hip] at hthread
        cases hthread
        cases hserve
        rfl

end Interpreter

end ThreadedForth
