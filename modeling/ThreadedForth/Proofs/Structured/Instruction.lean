
import ThreadedForth.Proofs.Machine.Calm
import ThreadedForth.Proofs.Structured.DataWords

/-!
# Instructions

The instructions that structured code is made of, each with the cells that encode it and with what it
does to a thread. A machine that comes to an instruction in its memory does just that in one round of
the inner interpreter.
-/

namespace ThreadedForth

open Layout DoubleCell Plays

/-- An instruction. Targets are addresses. -/
inductive Op where
  | number (value : Number)
  | data (word : DataWord)
  /-- The index of the innermost loop, or of the one around it. -/
  | index (outer : Bool)
  | call (token : Nat)
  | jump (target : Nat)
  | jumpIfZero (target : Nat)
  | enter (maySkip : Bool) (target : Nat)
  | advance (stepped : Bool) (target : Nat)
  | unloop
  | testOf (target : Nat)
  | exit

/-- Step the index of the innermost loop, and go to `target` unless the loop is done. -/
def Thread.stepLoop (step : Cell) (target : Nat) (thread : Thread) : Except Fault Thread :=
  match thread.returns with
  | index :: limit :: outer =>
    if ThreadWord.loopDone index limit step then .ok { thread with returns := outer }
    else .ok { thread with returns := (index + step) :: limit :: outer, ip := target }
  | _ => .error (.stackUnderflow .return)

/-- The offset in a cell at `place` that leads to `target`. -/
def distance (target place : Nat) : Cell := Cell.ofNat target - Cell.ofNat place

namespace Op

/-- What is called: a definition by its token, or a primitive. -/
def callee : Op → Nat ⊕ Prim
  | number (.single _) => .inr (.thread .lit)
  | number (.double _) => .inr (.thread .twoLit)
  | data word => .inr word.prim
  | index outer => .inr (.stack (if outer then .outerIndex else .loopIndex))
  | call token => .inl token
  | jump _ => .inr (.thread .branch)
  | jumpIfZero _ => .inr (.thread .zeroBranch)
  | enter maySkip _ => .inr (.thread (if maySkip then .enterQuestionDo else .enterDo))
  | advance stepped _ => .inr (.thread (if stepped then .stepPlusLoop else .stepLoop))
  | unloop => .inr (.thread .unloop)
  | testOf _ => .inr (.thread .testOf)
  | exit => .inr (.thread .exit)

def token (op : Op) : Nat := op.callee.elim id Prim.token

/-- The cells behind the token, of which the first is at `place`. -/
def operands (place : Nat) : Op → List Cell
  | number (.single value) => [value]
  | number (.double value) => [low value, high value]
  | jump target => [distance target place]
  | jumpIfZero target => [distance target place]
  | enter _ target => [distance target place]
  | advance _ target => [distance target place]
  | testOf target => [distance target place]
  | data _ => []
  | index _ => []
  | call _ => []
  | unloop => []
  | exit => []

/-- The length of the code in bytes. -/
def size (op : Op) : Nat := 4 + 4 * (op.operands 0).length

/-- What it does to a thread that has stepped over it. -/
def run : Op → Thread → Except Fault Thread
  | number value, thread => do
    return { thread with items := ← Items.pushNumber value thread.items }
  | data word, thread => do
    return { thread with items := ← word.effect thread.items }
  | index outer, thread =>
    match thread.returns[if outer then 2 else 0]? with
    | some value => do return { thread with items := ← Items.push value thread.items }
    | none => .error (.stackUnderflow .return)
  | call token, thread =>
    if thread.returns.length < returnCells then
      .ok { thread with ip := Header.body token, returns := Cell.ofNat thread.ip :: thread.returns }
    else .error (.stackOverflow .return)
  | jump target, thread => .ok { thread with ip := target }
  | jumpIfZero target, thread =>
    match thread.items with
    | flag :: rest => .ok { thread with items := rest, ip := if flag = 0 then target else thread.ip }
    | [] => .error (.stackUnderflow .data)
  | enter maySkip target, thread =>
    match thread.items with
    | start :: limit :: rest =>
      if maySkip ∧ start = limit then .ok { thread with items := rest, ip := target }
      else if thread.returns.length + 2 ≤ returnCells then
        .ok { thread with items := rest, returns := start :: limit :: thread.returns }
      else .error (.stackOverflow .return)
    | _ => .error (.stackUnderflow .data)
  | advance false target, thread => thread.stepLoop 1 target
  | advance true target, thread =>
    match thread.items with
    | step :: rest => { thread with items := rest }.stepLoop step target
    | [] => .error (.stackUnderflow .data)
  | unloop, thread =>
    match thread.returns with
    | _ :: _ :: outer => .ok { thread with returns := outer }
    | _ => .error (.stackUnderflow .return)
  | testOf target, thread =>
    match thread.items with
    | candidate :: selector :: rest =>
      if selector = candidate then .ok { thread with items := rest }
      else .ok { thread with items := selector :: rest, ip := target }
    | _ => .error (.stackUnderflow .data)
  | exit, thread =>
    match thread.returns with
    | caller :: outer =>
      if caller < 0 ∨ memorySize ≤ caller.toNatClampNeg then .error (.invalidAddress caller.toInt)
      else .ok { thread with ip := caller.toNatClampNeg, returns := outer }
    | [] => .error (.stackUnderflow .return)

/-- What the instruction refers to is there. -/
def Sound (cells : Nat → Cell) : Op → Prop
  | call token => token % 4 = 0 ∧ token + 4 ≤ dictionaryEnd ∧ cells token = Code.colon.toCell
  | jump target | jumpIfZero target | enter _ target | advance _ target | testOf target =>
    target ≤ dictionaryEnd
  | _ => True

end Op

/-- The instruction stands at the address. -/
structure OpAt (cells : Nat → Cell) (address : Nat) (op : Op) : Prop where
  pos : 0 < address
  isAligned : address % 4 = 0
  range : address + op.size ≤ dictionaryEnd
  token : cells address = Cell.ofNat op.token
  operands : ∀ (place : Nat) (value : Cell), (op.operands (address + 4))[place]? = some value →
    cells (address + 4 + 4 * place) = value
  sound : op.Sound cells

/-- The primitives are in the dictionary. -/
def Primed (cells : Nat → Cell) : Prop := ∀ prim : Prim, cells prim.token = (Code.prim prim).toCell

/-! ### Steps of a thread -/

section Steps

variable {base m : Machine} {thread : Thread}

variable {addr : Nat}

theorem Follows.cellAt (hfol : Follows base thread m) (haddr : addr + 4 ≤ dictionaryEnd) :
    m.memory.cellAt addr = base.memory.cellAt addr := by
  have horder := order
  refine hfol.memory.cellAt ?_
  rintro other _ hother (⟨hlow, _⟩ | ⟨hlow, _⟩) <;> omega

theorem Follows.readCell_eq (hfol : Follows base thread m)
    (haddr : addr + 4 ≤ dictionaryEnd) (haligned : addr % 4 = 0) :
    m.memory.readCell addr = .ok (base.memory.cellAt addr) := by
  have hsize := hfol.bounded.size_eq
  have horder := order
  rw [Memory.readCell_eq_ok (by omega) haligned, hfol.cellAt haddr]

namespace WordM

theorem plays_pushReturn_of_room (value : Cell) (hroom : thread.returns.length < returnCells) :
    Plays base (pushReturn value) thread (.ok ((), { thread with returns := value :: thread.returns })) := by
  intro m hfol
  have hret := hfol.bounded.returns
  have hspace := hfol.returns_room
  have hfit : m.returns.limit + 4 ≤ m.returns.top := by omega
  refine ⟨{ m with
    returns := { m.returns with top := m.returns.top - 4 }
    memory := m.memory.setCell (m.returns.top - 4) value }, ?_, ?_⟩
  · rw [pushReturn, Stack.push_of_room hret hfol.bounded.size_eq value hfit]
  · exact hfol.withReturns (hret.lower hfit) (hret.sameOutside m.memory value hfit)
      (hfol.returns.push hret hfol.bounded.size_eq value hfit)

theorem plays_pushReturn_of_full (value : Cell) (hfull : returnCells ≤ thread.returns.length) :
    Plays base (pushReturn value) thread (.error (.stackOverflow .return)) := by
  intro m hfol
  have hspace := hfol.returns_room
  refine ⟨m, ?_⟩
  rw [pushReturn, Stack.push_of_full hfol.bounded.returns m.memory value (by omega)]

variable {rest : List Cell}

theorem plays_popReturn {value : Cell} (hret : thread.returns = value :: rest) :
    Plays base popReturn thread (.ok (value, { thread with returns := rest })) := by
  intro m hfol
  have hcar := hfol.returns
  rw [hret] at hcar
  have hfits := hfol.bounded.returns
  refine ⟨{ m with returns := { m.returns with top := m.returns.top + 4 } }, ?_, ?_⟩
  · rw [popReturn, Stack.pop_of_items hfits hfol.bounded.size_eq hcar.top_lt, hcar.held.head]
  · exact hfol.withReturns (hfits.raise hcar.top_lt) (.refl _ _) hcar.pop

theorem plays_popReturn_of_empty (hret : thread.returns = []) :
    Plays base popReturn thread (.error (.stackUnderflow .return)) := by
  intro m hfol
  have hcar := hfol.returns
  rw [hret] at hcar
  refine ⟨m, ?_⟩
  rw [popReturn, Stack.pop_of_empty hfol.bounded.returns m.memory hcar.base_le_top]

theorem plays_topReturn (place : Nat) :
    Plays base (topReturn place) thread
      (match thread.returns[place]? with
      | some value => .ok (value, thread)
      | none => .error (.stackUnderflow .return)) := by
  have hplays : Plays base (topReturn place) thread _ := Plays.ask fun m hfol =>
    hfol.returns.peek_eq hfol.bounded.returns hfol.bounded.size_eq place
  cases hplace : thread.returns[place]? with
  | some value =>
    rw [hplace] at hplays
    exact hplays
  | none =>
    rw [hplace] at hplays
    exact hplays

theorem plays_needReturn (count : Nat) :
    Plays base (needReturn count) thread
      (if thread.returns.length < count then .error (.stackUnderflow .return) else .ok ((), thread)) := by
  have hplays : Plays base (needReturn count) thread _ := Plays.ask fun m hfol =>
    hfol.returns.check_eq hfol.bounded.returns count
  by_cases hcount : thread.returns.length < count
  · rw [if_pos hcount] at hplays ⊢
    exact hplays
  · rw [if_neg hcount] at hplays ⊢
    exact hplays

theorem plays_pokeReturn {other : Cell} (value : Cell) (hret : thread.returns = other :: rest) :
    Plays base (pokeReturn 0 value) thread (.ok ((), { thread with returns := value :: rest })) := by
  intro m hfol
  have hcar := hfol.returns
  rw [hret] at hcar
  have hfits := hfol.bounded.returns
  have hlimit := hfits.limit_eq
  have hbase := hfits.base_eq
  have htop := hfits.limit_le
  have hdepth := hcar.depth_eq
  rw [List.length_cons] at hdepth
  obtain ⟨hpoke, hpoked⟩ := @Stack.Carries.poke _ _ _ _ _ value other hcar hfits hfol.bounded.size_eq
  refine ⟨{ m with memory := m.memory.setCell m.returns.top value }, ?_, ?_⟩
  · rw [pokeReturn, hpoke]
  · refine hfol.withReturns hfits ((Memory.sameOutside_setCell _ _ value).mono ?_) hpoked
    rintro addr ⟨hlow, hhigh⟩
    simp only at hlow hhigh
    exact ⟨by omega, by omega⟩

end WordM

namespace ThreadWord

open WordM

theorem plays_setIp (ip : Nat) : Plays base (setIp ip) thread (.ok ((), { thread with ip })) :=
  fun _ hfol => ⟨_, rfl, hfol.withIp ip⟩

theorem plays_skipCell : Plays base skipCell thread (.ok ((), { thread with ip := thread.ip + 4 })) := by
  intro m hfol
  refine ⟨{ m with ip := m.ip + 4 }, rfl, ?_⟩
  rw [hfol.ip_eq]
  exact hfol.withIp (thread.ip + 4)

theorem plays_inlineCell (haligned : thread.ip % 4 = 0) (hrange : thread.ip + 4 ≤ dictionaryEnd) :
    Plays base inlineCell thread
      (.ok (base.memory.cellAt thread.ip, { thread with ip := thread.ip + 4 })) := by
  have hread : Plays base (ask fun m => m.memory.readCell m.ip) thread
      (.ok (base.memory.cellAt thread.ip, thread)) :=
    ask_ok fun m hfol => by rw [hfol.ip_eq, hfol.readCell_eq hrange haligned]
  exact hread.bind (plays_skipCell.bind (pure _))

theorem plays_jump {target : Nat} (haligned : thread.ip % 4 = 0) (hrange : thread.ip + 4 ≤ dictionaryEnd)
    (hoff : base.memory.cellAt thread.ip = distance target thread.ip) (htarget : target ≤ dictionaryEnd) :
    Plays base jump thread (.ok ((), { thread with ip := target })) := by
  have horder := order
  have hdist : (distance target thread.ip).toInt = (target : Int) - thread.ip :=
    Cell.toInt_ofNat_sub_ofNat (by omega) (by omega)
  refine (ask_ok fun m hfol => ?_).bind (plays_setIp target)
  have hsize := hfol.bounded.size_eq
  rw [hfol.ip_eq, hfol.readCell_eq hrange haligned, hoff]
  change (if 0 ≤ (thread.ip : Int) + (distance target thread.ip).toInt ∧
    (thread.ip : Int) + (distance target thread.ip).toInt < m.memory.size then _ else _) = _
  rw [hdist, if_pos (by omega)]
  have hnat : ((thread.ip : Int) + ((target : Int) - thread.ip)).toNat = target := by omega
  rw [hnat]
  rfl

theorem plays_returnToCaller :
    Plays base returnToCaller thread ((Op.exit.run thread).map fun next => ((), next)) := by
  rw [Op.run]
  cases hret : thread.returns with
  | nil => exact (plays_popReturn_of_empty hret).bind_error
  | cons caller outer =>
    refine (plays_popReturn hret).bind ?_
    have haddr : Plays base (ask (·.memory.address caller)) { thread with returns := outer } _ :=
      ask fun m hfol => by rw [Memory.address, hfol.bounded.size_eq]
    by_cases hbad : caller < 0 ∨ memorySize ≤ caller.toNatClampNeg
    · rw [if_pos hbad] at haddr
      simp only [if_pos hbad]
      exact haddr.bind_error
    · rw [if_neg hbad] at haddr
      simp only [if_neg hbad]
      exact haddr.bind (plays_setIp _)

theorem plays_discardLoop :
    Plays base discardLoop thread ((Op.unloop.run thread).map fun next => ((), next)) := by
  have hneed := @plays_needReturn base thread 2
  rw [Op.run]
  match hret : thread.returns with
  | [] | [_] =>
    rw [hret] at hneed
    exact hneed.bind_error
  | index :: limit :: outer =>
    rw [hret, if_neg (by simp)] at hneed
    refine hneed.bind ((Plays.bind (plays_popReturn hret) (Plays.pure ())).bind ?_)
    exact Plays.bind (plays_popReturn rfl) (Plays.pure ())

end ThreadWord

end Steps

/-! ### Instructions of a thread -/

namespace Plays

variable {base : Machine} {thread : Thread}

theorem complete {action : WordM Unit} {result : Except Fault Thread}
    (hact : Plays base action thread (result.map fun next => ((), next))) :
    Plays base (do action; return (none : Option Request)) thread (result.map fun next => (none, next)) := by
  cases result with
  | error fault => exact bind_error hact
  | ok next => exact bind hact (pure none)

theorem ofEffect {action : WordM Unit} {effect : Items → Except Fault Items}
    (hact : Denotes action (StackM.ofEffect effect)) :
    Plays base action thread ((do return { thread with items := ← effect thread.items } :
      Except Fault Thread).map fun next => ((), next)) := by
  have hplays := hact base thread
  rw [StackM.onThread, StackM.ofEffect] at hplays
  cases heffect : effect thread.items with
  | error fault =>
    rw [heffect] at hplays
    exact hplays
  | ok items =>
    rw [heffect] at hplays
    exact hplays

variable {rest : Items} {value : Cell}

theorem pop (hitems : thread.items = value :: rest) :
    Plays base WordM.pop thread (.ok (value, { thread with items := rest })) := by
  have hplays := WordM.denotes_pop base thread
  rwa [StackM.onThread, hitems] at hplays

theorem pop_of_empty (hitems : thread.items = []) : Plays base WordM.pop thread (.error (.stackUnderflow .data)) := by
  have hplays := WordM.denotes_pop base thread
  rwa [StackM.onThread, hitems] at hplays

theorem top (hitems : thread.items = value :: rest) : Plays base (WordM.top 0) thread (.ok (value, thread)) := by
  obtain ⟨ip, items, returns⟩ := thread
  cases hitems
  exact WordM.denotes_top 0 base ⟨ip, value :: rest, returns⟩

theorem top_of_empty (hitems : thread.items = []) :
    Plays base (WordM.top 0) thread (.error (.stackUnderflow .data)) := by
  have hplays := WordM.denotes_top 0 base thread
  rwa [StackM.onThread, hitems] at hplays

end Plays

namespace ThreadWord

open WordM

variable {base : Machine} {thread : Thread} {target : Nat}

/-- The offset cell of a branch, with the thread at it. -/
structure AtOffset (base : Machine) (thread : Thread) (target : Nat) : Prop where
  isAligned : thread.ip % 4 = 0
  range : thread.ip + 4 ≤ dictionaryEnd
  offset : base.memory.cellAt thread.ip = distance target thread.ip
  target_le : target ≤ dictionaryEnd

theorem AtOffset.plays_jump (hoff : AtOffset base thread target) :
    Plays base jump thread (.ok ((), { thread with ip := target })) :=
  ThreadWord.plays_jump hoff.isAligned hoff.range hoff.offset hoff.target_le

theorem AtOffset.move (hoff : AtOffset base thread target) (items : Items) (returns : List Cell) :
    AtOffset base { thread with items, returns } target :=
  ⟨hoff.1, hoff.2, hoff.3, hoff.4⟩

theorem plays_zeroBranch (hoff : AtOffset base thread target) :
    Plays base (perform .zeroBranch) thread
      (((Op.jumpIfZero target).run { thread with ip := thread.ip + 4 }).map fun next => (none, next)) := by
  rw [Op.run]
  cases hitems : thread.items with
  | nil => exact (Plays.pop_of_empty hitems).bind_error
  | cons flag rest =>
    refine (Plays.pop hitems).bind ?_
    by_cases hflag : flag = 0
    · simp only [if_pos hflag]
      exact (hoff.move rest thread.returns).plays_jump.bind (pure none)
    · simp only [if_neg hflag]
      exact plays_skipCell.bind (pure none)

theorem plays_startLoop (maySkip : Bool) (hoff : AtOffset base thread target) :
    Plays base (startLoop maySkip) thread
      (((Op.enter maySkip target).run { thread with ip := thread.ip + 4 }).map fun next => ((), next)) := by
  rw [Op.run]
  match hitems : thread.items with
  | [] => exact (Plays.pop_of_empty hitems).bind_error
  | [index] => exact (Plays.pop hitems).bind (Plays.pop_of_empty rfl).bind_error
  | index :: limit :: rest =>
    refine (Plays.pop hitems).bind ((Plays.pop rfl).bind ?_)
    by_cases hskip : maySkip ∧ index = limit
    · simp only [if_pos hskip]
      exact (hoff.move rest thread.returns).plays_jump
    simp only [if_neg hskip]
    by_cases hroom : thread.returns.length + 2 ≤ returnCells
    · simp only [if_pos hroom]
      refine (plays_pushReturn_of_room limit (by simp only; omega)).bind ?_
      refine (plays_pushReturn_of_room index ?_).bind plays_skipCell
      simp only [List.length_cons]
      omega
    · simp only [if_neg hroom]
      by_cases hone : thread.returns.length < returnCells
      · refine (plays_pushReturn_of_room limit (by simpa using hone)).bind ?_
        refine (plays_pushReturn_of_full index ?_).bind_error
        simp only [List.length_cons]
        omega
      · exact (plays_pushReturn_of_full limit (by simp only; omega)).bind_error

theorem plays_loopParameters {index limit : Cell} {outer : List Cell} {α : Type} {rest : Cell → Cell → WordM α}
    {result : Except Fault (α × Thread)} (hret : thread.returns = index :: limit :: outer)
    (hrest : Plays base (rest index limit) thread result) :
    Plays base (do let index ← topReturn 0; let limit ← topReturn 1; rest index limit) thread result := by
  have hindex := @plays_topReturn base thread 0
  have hlimit := @plays_topReturn base thread 1
  rw [hret] at hindex hlimit
  exact bind hindex (bind hlimit hrest)

theorem plays_advanceLoop (step : Cell) (hoff : AtOffset base thread target) :
    Plays base (advanceLoop step) thread
      ((({ thread with ip := thread.ip + 4 } : Thread).stepLoop step target).map fun next => ((), next)) := by
  rw [Thread.stepLoop]
  have hindex := @plays_topReturn base thread 0
  have hlimit := @plays_topReturn base thread 1
  match hret : thread.returns with
  | [] =>
    rw [hret] at hindex
    exact bind_error hindex
  | [index] =>
    rw [hret] at hindex hlimit
    exact bind hindex (bind_error hlimit)
  | index :: limit :: outer =>
    refine plays_loopParameters hret ?_
    by_cases hdone : loopDone index limit step
    · simp only [if_pos hdone]
      have hdiscard := @plays_discardLoop base thread
      rw [Op.run, hret] at hdiscard
      exact bind hdiscard plays_skipCell
    · simp only [if_neg hdone]
      exact (plays_pokeReturn (index + step) hret).bind (hoff.move _ _).plays_jump

theorem plays_stepLoop (stepped : Bool) (hoff : AtOffset base thread target) :
    Plays base (perform (if stepped then .stepPlusLoop else .stepLoop)) thread
      (((Op.advance stepped target).run { thread with ip := thread.ip + 4 }).map fun next => (none, next)) := by
  cases stepped with
  | false => exact (plays_advanceLoop 1 hoff).complete
  | true =>
    rw [Op.run]
    cases hitems : thread.items with
    | nil => exact (Plays.pop_of_empty hitems).bind_error
    | cons step rest =>
      exact (Plays.pop hitems).bind (plays_advanceLoop step (hoff.move rest thread.returns)).complete

theorem plays_testOf (hoff : AtOffset base thread target) :
    Plays base (perform .testOf) thread
      (((Op.testOf target).run { thread with ip := thread.ip + 4 }).map fun next => (none, next)) := by
  rw [Op.run]
  match hitems : thread.items with
  | [] => exact (Plays.pop_of_empty hitems).bind_error
  | [candidate] => exact (Plays.pop hitems).bind (Plays.top_of_empty rfl).bind_error
  | candidate :: selector :: rest =>
    refine (Plays.pop hitems).bind ((Plays.top rfl).bind ?_)
    by_cases hequal : selector = candidate
    · simp only [if_pos hequal]
      refine (Plays.bind (Plays.pop rfl) (Plays.pure ())).bind ?_
      exact plays_skipCell.bind (Plays.pure none)
    · simp only [if_neg hequal]
      exact (hoff.move _ _).plays_jump.bind (Plays.pure none)

end ThreadWord

open Interpreter

namespace Follows

variable {base m : Machine} {thread : Thread} {token : Nat}

theorem inlineCell_eq (hfol : Follows base thread m) (halign : thread.ip % 4 = 0)
    (hrange : thread.ip + 4 ≤ dictionaryEnd) :
    ThreadWord.inlineCell m = .ok (base.memory.cellAt thread.ip) { m with ip := thread.ip + 4 } := by
  have hread : m.memory.readCell m.ip = .ok (base.memory.cellAt thread.ip) := by
    rw [hfol.ip_eq]
    exact hfol.readCell_eq hrange halign
  refine (bind_of_ok (@WordM.ask_of_ok _ _ (fun m => m.memory.readCell m.ip) _ hread)).trans ?_
  rw [← hfol.ip_eq]
  rfl

theorem runThread_fetch (hfol : Follows base thread m) (hpos : 0 < thread.ip) (halign : thread.ip % 4 = 0)
    (hrange : thread.ip + 4 ≤ dictionaryEnd) (hcell : base.memory.cellAt thread.ip = Cell.ofNat token)
    (htoken : token + 4 ≤ dictionaryEnd) (serve : Serve) (fuel : Nat) :
    runThread serve (fuel + 1) m =
      (do dispatch serve token; runThread serve fuel) { m with ip := thread.ip + 4 } := by
  have horder := order
  have haddr : m.memory.address (base.memory.cellAt thread.ip) = .ok token := by
    rw [hcell, Memory.address, Cell.toNatClampNeg_ofNat (by omega), hfol.bounded.size_eq, if_neg]
    rintro (hneg | hlarge)
    · exact Cell.ofNat_not_neg (by omega) hneg
    · omega
  have hfetch : fetchToken m = .ok token { m with ip := thread.ip + 4 } :=
    (bind_of_ok (hfol.inlineCell_eq halign hrange)).trans
      (@WordM.ask_of_ok _ { m with ip := thread.ip + 4 } (·.memory.address _) _ haddr)
  rw [runThread]
  refine (bind_of_ok (show (get : RunM Machine) m = .ok m m from rfl)).trans ?_
  rw [if_neg (by rw [hfol.ip_eq]; omega)]
  exact bind_of_ok (WordM.run_of_ok hfetch)

end Follows

theorem Prim.token_inside (prim : Prim) : prim.token % 4 = 0 ∧ prim.token + 4 ≤ dictionaryEnd := by
  have hindex : prim.index < 180 := prim.index_lt_count
  have hend : dictionaryStart = 1428 ∧ 10000 ≤ dictionaryEnd := by decide
  rw [Prim.token, Header.token, Header.size]
  omega

section Rounds

variable {base m moved : Machine} {thread : Thread} {token : Nat} {prim : Prim} {action : WordM Unit}

/-- The primitive stands behind the token. -/
structure Backs (m : Machine) (token : Nat) (prim : Prim) : Prop where
  isAligned : token % 4 = 0
  range : token + 4 ≤ dictionaryEnd
  code : Code.ofCell? (m.memory.cellAt token) = some (.prim prim)

theorem Follows.round (hfol : Follows base thread m) (hpos : 0 < thread.ip) (halign : thread.ip % 4 = 0)
    (hrange : thread.ip + 4 ≤ dictionaryEnd) (hcell : base.memory.cellAt thread.ip = Cell.ofNat token)
    (hbacks : Backs base token prim) (hperf : prim.perform { m with ip := thread.ip + 4 } = WordM.complete action moved)
    (serve : Serve) (fuel : Nat) : runThread serve (fuel + 1) m =
      (do (liftM action : RunM Unit); runThread serve fuel) moved := by
  have hread := (hfol.withIp (thread.ip + 4)).readCell_eq hbacks.range hbacks.isAligned
  rw [hfol.runThread_fetch hpos halign hrange hcell hbacks.range]
  cases hact : action moved with
  | ok answer after =>
    have hdone : prim.perform { m with ip := thread.ip + 4 } = .ok none after :=
      hperf.trans (bind_of_ok hact)
    rw [bind_of_ok (dispatch_of_ok hread hbacks.code hdone), bind_of_ok (WordM.run_of_ok hact)]
  | error fault after =>
    have hdone : prim.perform { m with ip := thread.ip + 4 } = .error fault after :=
      hperf.trans (bind_of_error hact)
    rw [bind_of_error (dispatch_of_error hread hbacks.code hdone), bind_of_error (WordM.run_of_error hact)]

theorem Follows.round_of_plays {next : Thread} (hfol : Follows base thread m) (hpos : 0 < thread.ip)
    (halign : thread.ip % 4 = 0) (hrange : thread.ip + 4 ≤ dictionaryEnd)
    (hcell : base.memory.cellAt thread.ip = Cell.ofNat token) (hbacks : Backs base token prim)
    (hplays : Plays base prim.perform { thread with ip := thread.ip + 4 } (.ok (none, next))) :
    ∃ after, Follows base next after ∧
      ∀ serve fuel, runThread serve (fuel + 1) m = runThread serve fuel after := by
  obtain ⟨after, hok, hafter⟩ := hplays _ (hfol.withIp (thread.ip + 4))
  exact ⟨after, hafter, hfol.round hpos halign hrange hcell hbacks
    (hok.trans (show _ = WordM.complete (pure ()) after from rfl))⟩

end Rounds

theorem Follows.above (addr : Nat) (hin : StackArea addr) : returnStack ≤ addr := by
  have horder := order
  rcases hin with ⟨hlow, _⟩ | ⟨hlow, _⟩ <;> omega

theorem Follows.calm {base m : Machine} {thread : Thread} (hfol : Follows base thread m) : base.Calm m := by
  refine .above hfol.bounded ?_ ?_ (hfol.memory.mono Follows.above)
  · rw [hfol.machine_eq]
  · rw [hfol.machine_eq]

theorem Op.isSteady_of_callee {op : Op} {prim : Prim} (hcallee : op.callee = .inr prim) : prim.isSteady = true := by
  cases op with
  | number value => cases value <;> (cases hcallee; rfl)
  | data word => cases word <;> (cases hcallee; rfl)
  | index outer => cases hcallee; rfl
  | call token => cases hcallee
  | enter maySkip target => cases maySkip <;> (cases hcallee; rfl)
  | advance stepped target => cases stepped <;> (cases hcallee; rfl)
  | _ => cases hcallee; rfl

namespace OpAt

open WordM ThreadWord

variable {base m : Machine} {thread : Thread} {op : Op}

/-- The thread has stepped over the token. -/
private abbrev afterToken (thread : Thread) : Thread := { thread with ip := thread.ip + 4 }

theorem atOffset {target : Nat} (hop : OpAt base.memory.cellAt thread.ip op)
    (hoperands : op.operands (thread.ip + 4) = [distance target (thread.ip + 4)]) (hsize : op.size = 8)
    (htarget : target ≤ dictionaryEnd) : AtOffset base (afterToken thread) target := by
  have haligned := hop.isAligned
  have hrange := hop.range
  rw [hsize] at hrange
  exact ⟨by simp only; omega, hrange, hop.operands 0 _ (by rw [hoperands]; rfl), htarget⟩

variable {prim : Prim}

theorem plays_number {value : Number} (hop : OpAt base.memory.cellAt thread.ip (.number value))
    (hcallee : (Op.number value).callee = .inr prim) :
    Plays base prim.perform (afterToken thread)
      (((Op.number value).run { thread with ip := thread.ip + (Op.number value).size }).map
        fun next => (none, next)) := by
  have haligned := hop.isAligned
  have hrange := hop.range
  cases value with
  | single value =>
    cases hcallee
    have hcell : base.memory.cellAt (thread.ip + 4) = value := hop.operands 0 value rfl
    have hrange : thread.ip + 8 ≤ dictionaryEnd := hrange
    have hinline := @plays_inlineCell base (afterToken thread) (by simp only; omega) hrange
    rw [hcell] at hinline
    exact hinline.bind (ofEffect (denotes_push value)).complete
  | double value =>
    cases hcallee
    have hlow : base.memory.cellAt (thread.ip + 4) = low value := hop.operands 0 _ rfl
    have hhigh : base.memory.cellAt (thread.ip + 4 + 4) = high value := hop.operands 1 _ rfl
    have hrange : thread.ip + 12 ≤ dictionaryEnd := hrange
    have hfst := @plays_inlineCell base (afterToken thread) (by simp only; omega) (by simp only; omega)
    have hsnd := @plays_inlineCell base (afterToken (afterToken thread)) (by simp only; omega) hrange
    rw [hlow] at hfst
    rw [hhigh] at hsnd
    have hpush := @ofEffect base (afterToken (afterToken (afterToken thread))) _ _ (denotes_pushDouble value)
    refine hfst.bind (hsnd.bind ?_)
    rw [join_low_high]
    exact hpush.complete

theorem plays_index (outer : Bool) :
    Plays base (Prim.stack (if outer then .outerIndex else .loopIndex)).perform (afterToken thread)
      (((Op.index outer).run { thread with ip := thread.ip + (Op.index outer).size }).map
        fun next => (none, next)) := by
  have htop := @plays_topReturn base (afterToken thread) (if outer then 2 else 0)
  have hword : Prim.perform (.stack (if outer then .outerIndex else .loopIndex)) =
      WordM.complete (do push (← topReturn (if outer then 2 else 0))) := by
    cases outer <;> rfl
  rw [hword, Op.run]
  refine Plays.complete ?_
  cases hindex : thread.returns[if outer then 2 else 0]? with
  | none =>
    simp only [hindex] at htop ⊢
    exact htop.bind_error
  | some value =>
    simp only [hindex] at htop ⊢
    exact htop.bind (ofEffect (denotes_push value))

theorem plays_data (word : DataWord) :
    Plays base word.prim.perform (afterToken thread)
      (((Op.data word).run { thread with ip := thread.ip + (Op.data word).size }).map
        fun next => (none, next)) := by
  have hplays := word.denotes base (afterToken thread)
  rw [Op.run]
  have hmeaning : (StackM.ofEffect word.effect >>= fun _ => pure (none : Option Request)).onThread
      (afterToken thread) = ((do return { afterToken thread with items := ← word.effect thread.items } :
        Except Fault Thread).map fun next => (none, next)) := by
    change (((word.effect thread.items >>= _) >>= _) >>= _) = _
    cases word.effect thread.items <;> rfl
  rwa [hmeaning] at hplays

/-- The primitive of an instruction does what the instruction does. -/
theorem plays_perform (hop : OpAt base.memory.cellAt thread.ip op)
    (hcallee : op.callee = .inr prim) :
    Plays base prim.perform (afterToken thread)
      ((op.run { thread with ip := thread.ip + op.size }).map fun next => (none, next)) := by
  cases op with
  | number value => exact hop.plays_number hcallee
  | data word =>
    cases hcallee
    exact plays_data word
  | index outer =>
    cases hcallee
    exact plays_index outer
  | call token => cases hcallee
  | jump target =>
    cases hcallee
    exact (hop.atOffset rfl rfl hop.sound).plays_jump.bind (pure none)
  | jumpIfZero target =>
    cases hcallee
    exact plays_zeroBranch (hop.atOffset rfl rfl hop.sound)
  | enter maySkip target =>
    cases hcallee
    have hplays := (plays_startLoop maySkip (hop.atOffset rfl rfl hop.sound)).complete
    cases maySkip <;> exact hplays
  | advance stepped target =>
    cases hcallee
    exact plays_stepLoop stepped (hop.atOffset rfl rfl hop.sound)
  | unloop =>
    cases hcallee
    exact plays_discardLoop.complete
  | testOf target =>
    cases hcallee
    exact plays_testOf (hop.atOffset rfl rfl hop.sound)
  | exit =>
    cases hcallee
    exact plays_returnToCaller.complete

theorem plays_enter (token : Nat) :
    Plays base (dispatch.enter (Header.body token)) thread
      (((Op.call token).run thread).map fun next => ((), next)) := by
  have hip : Plays base (ask fun m => .ok m.ip) thread (.ok (thread.ip, thread)) :=
    ask_ok fun m hfol => congrArg Except.ok hfol.ip_eq
  refine hip.bind ?_
  rw [Op.run]
  by_cases hroom : thread.returns.length < returnCells
  · rw [if_pos hroom]
    exact (plays_pushReturn_of_room _ hroom).bind (plays_setIp _)
  · rw [if_neg hroom]
    exact (plays_pushReturn_of_full _ (Nat.le_of_not_lt hroom)).bind_error

/-! ### One round -/

theorem token_inside (hop : OpAt base.memory.cellAt thread.ip op) :
    op.token % 4 = 0 ∧ op.token + 4 ≤ dictionaryEnd := by
  cases hcallee : op.callee with
  | inr prim =>
    rw [Op.token, hcallee]
    exact prim.token_inside
  | inl token =>
    cases op with
    | call token => exact ⟨hop.sound.1, hop.sound.2.1⟩
    | number value => cases value <;> cases hcallee
    | _ => cases hcallee

/-- Doing what a token stands for, whatever requests are served by. A fault leaves the dictionary alone. -/
theorem dispatch_eq (hpr : Primed base.memory.cellAt) (hop : OpAt base.memory.cellAt thread.ip op)
    (hfol : Follows base (afterToken thread) m) :
    match op.run { thread with ip := thread.ip + op.size } with
    | .ok next => ∃ after, Follows base next after ∧
        ∀ serve, dispatch serve op.token m = .ok () after
    | .error fault => ∃ after, base.Calm after ∧
        ∀ serve, dispatch serve op.token m = .error (.fault fault) after := by
  have htoken := hop.token_inside
  have hread := hfol.readCell_eq htoken.2 htoken.1
  cases hcallee : op.callee with
  | inr prim =>
    have : Keeps base.Calm prim.perform := Prim.parallel_of_isSteady (Op.isSteady_of_callee hcallee)
    have hperf := hop.plays_perform hcallee m hfol
    have hcode : Code.ofCell? (base.memory.cellAt op.token) = some (.prim prim) := by
      rw [Op.token, hcallee]
      exact (congrArg Code.ofCell? (hpr prim)).trans (Code.ofCell?_toCell _)
    cases hrun : op.run { thread with ip := thread.ip + op.size } with
    | ok next =>
      rw [hrun] at hperf
      obtain ⟨after, hok, hnext⟩ := hperf
      exact ⟨after, hnext, fun serve => dispatch_of_ok hread hcode hok⟩
    | error fault =>
      rw [hrun] at hperf
      obtain ⟨after, herror⟩ := hperf
      exact ⟨after, Keeps.of_error hfol.calm herror, fun serve => dispatch_of_error hread hcode herror⟩
  | inl token =>
    cases op with
    | call token =>
      have henter := plays_enter token m hfol
      rw [show (Op.call token).token = token from rfl] at hread ⊢
      have hcode : Code.ofCell? (base.memory.cellAt token) = some .colon := by
        rw [hop.sound.2.2, Code.ofCell?_toCell]
      have hdisp (serve : Serve) := @dispatch_of_colon serve _ _ _ hread hcode
      have hsize : ({ thread with ip := thread.ip + (Op.call token).size } : Thread) = afterToken thread := rfl
      simp only [hdisp, hsize]
      cases hrun : (Op.call token).run (afterToken thread) with
      | ok next =>
        rw [hrun] at henter
        obtain ⟨after, hok, hnext⟩ := henter
        exact ⟨after, hnext, fun _ => run_of_ok hok⟩
      | error fault =>
        rw [hrun] at henter
        obtain ⟨after, herror⟩ := henter
        exact ⟨after, Keeps.of_error hfol.calm herror, fun _ => run_of_error herror⟩
    | number value => cases value <;> cases hcallee
    | _ => cases hcallee

theorem runThread_fetch (hop : OpAt base.memory.cellAt thread.ip op) (hfol : Follows base thread m)
    (serve : Serve) (fuel : Nat) : runThread serve (fuel + 1) m =
      (do dispatch serve op.token; runThread serve fuel) { m with ip := thread.ip + 4 } := by
  have hrange := hop.range
  rw [Op.size] at hrange
  exact hfol.runThread_fetch hop.pos hop.isAligned (by omega) hop.token hop.token_inside.2 serve fuel

theorem runThread_eq (hpr : Primed base.memory.cellAt) (hop : OpAt base.memory.cellAt thread.ip op)
    (hfol : Follows base thread m) :
    match op.run { thread with ip := thread.ip + op.size } with
    | .ok next => ∃ after, Follows base next after ∧
        ∀ serve fuel, runThread serve (fuel + 1) m = runThread serve fuel after
    | .error fault => ∃ after, base.Calm after ∧
        ∀ serve fuel, runThread serve (fuel + 1) m = .error (.fault fault) after := by
  have hround := hop.runThread_fetch hfol
  have hdisp := hop.dispatch_eq hpr (hfol.withIp (thread.ip + 4))
  cases hrun : op.run { thread with ip := thread.ip + op.size } with
  | ok next =>
    rw [hrun] at hdisp
    obtain ⟨after, hnext, hok⟩ := hdisp
    exact ⟨after, hnext, fun serve fuel => (hround serve fuel).trans (bind_of_ok (hok serve))⟩
  | error fault =>
    rw [hrun] at hdisp
    obtain ⟨after, hcalm, herror⟩ := hdisp
    exact ⟨after, hcalm, fun serve fuel => (hround serve fuel).trans (bind_of_error (herror serve))⟩

end OpAt

end ThreadedForth
