
import ThreadedForth.Proofs.Interpreter.Token
import ThreadedForth.Proofs.Machine.Items
import ThreadedForth.Proofs.Structured.Effect

/-!
# Threads

What running code can see of a machine is where it is and what stands on the data stack and on the
return stack. `Follows` ties a machine to such a thread, and `Plays` says that an action of the machine
does to the thread what a function on threads does. Every data word plays its stack effect.
-/

namespace ThreadedForth

open Layout

structure Thread where
  ip : Nat
  items : Items
  /-- The items of the return stack, the top one first. -/
  returns : List Cell

/-- The bytes that running code may change. -/
def StackArea (address : Nat) : Prop :=
  Layout.dataRegion.Holds address ∨ Layout.returnRegion.Holds address

/-- The machine is at this point of the thread. It was `base` before, and still is but for the two
stacks. -/
structure Follows (base : Machine) (thread : Thread) (m : Machine) : Prop where
  bounded : m.Bounded
  machine_eq : m = { base with
    memory := m.memory, data := m.data, returns := m.returns, ip := thread.ip }
  memory : Memory.SameOutside StackArea base.memory m.memory
  items : m.data.Carries m.memory thread.items
  returns : m.returns.Carries m.memory thread.returns

namespace Follows

variable {base m : Machine} {thread : Thread}

section

variable (hfol : Follows base thread m)

include hfol

theorem ip_eq : m.ip = thread.ip := by
  rw [hfol.machine_eq]

theorem data_room : m.data.limit + 4 * dataCells = m.data.top + 4 * thread.items.length := by
  have hlimit := hfol.bounded.data.limit_eq
  have hbase := hfol.bounded.data.base_eq
  have hdepth := hfol.items.depth_eq
  have horder := Layout.order
  omega

theorem returns_room : m.returns.limit + 4 * returnCells = m.returns.top + 4 * thread.returns.length := by
  have hlimit := hfol.bounded.returns.limit_eq
  have hbase := hfol.bounded.returns.base_eq
  have hdepth := hfol.returns.depth_eq
  have horder := Layout.order
  omega

theorem length_le : thread.items.length ≤ dataCells := by
  have hroom := hfol.data_room
  have hlimit := hfol.bounded.data.limit_le
  omega

theorem withIp (ip : Nat) : Follows base { thread with ip } { m with ip } := by
  refine ⟨⟨hfol.bounded.1, hfol.bounded.2, hfol.bounded.3, hfol.bounded.4,
    hfol.bounded.5, hfol.bounded.6⟩, ?_, hfol.memory, hfol.items, hfol.returns⟩
  rw [hfol.machine_eq]

end

variable {memory : Memory}

theorem withData (hfol : Follows base thread m) {data : Stack} {items : Items}
    (hdata : data.Fits .data dataRegion) (hmem : Memory.SameOutside Layout.dataRegion.Holds m.memory memory)
    (hitems : data.Carries memory items) : Follows base { thread with items } { m with data, memory } := by
  have hlimit := hfol.bounded.returns.limit_eq
  have htop := hfol.bounded.returns.limit_le
  have hbase := hfol.bounded.returns.base_eq
  have horder := Layout.order
  refine ⟨(hfol.bounded.withMemory hmem.size).withData hdata, ?_,
    hfol.memory.trans (hmem.mono fun _ => .inl), hitems, hfol.returns.frame hmem ?_⟩
  · rw [hfol.machine_eq]
  · rintro addr _ hhigh ⟨hlow, _⟩
    omega

theorem withReturns (hfol : Follows base thread m) {returns : Stack}
    {values : List Cell} (hret : returns.Fits .return returnRegion)
    (hmem : Memory.SameOutside Layout.returnRegion.Holds m.memory memory) (hvalues : returns.Carries memory values) :
    Follows base { thread with returns := values } { m with returns, memory } := by
  have hlimit := hfol.bounded.data.limit_eq
  have htop := hfol.bounded.data.limit_le
  have horder := Layout.order
  refine ⟨(hfol.bounded.withMemory hmem.size).withReturns hret, ?_,
    hfol.memory.trans (hmem.mono fun _ => .inr), hfol.items.frame hmem ?_, hvalues⟩
  · rw [hfol.machine_eq]
  · rintro addr hlow _ ⟨_, hhigh⟩
    omega

end Follows

theorem Stack.Fits.sameOutside {kind : StackKind} {region : Region} {stack : Stack}
    (hfits : stack.Fits kind region) (memory : Memory) (value : Cell) (hroom : stack.limit + 4 ≤ stack.top) :
    Memory.SameOutside region.Holds memory (memory.setCell (stack.top - 4) value) := by
  have hlimit := hfits.limit_eq
  have hbase := hfits.base_eq
  have htop := hfits.top_le
  refine (Memory.sameOutside_setCell memory _ value).mono ?_
  rintro addr ⟨hlow, hhigh⟩
  simp only at hlow hhigh
  exact ⟨by omega, by omega⟩

/-! ### Actions on threads -/

/-- On every machine at this point of the thread, the action gives the answer and is at the next point,
or ends in the fault. -/
def Plays {α : Type} (base : Machine) (action : WordM α) (thread : Thread)
    (result : Except Fault (α × Thread)) : Prop :=
  ∀ m, Follows base thread m →
    match result with
    | .ok (answer, next) => ∃ after, action m = .ok answer after ∧ Follows base next after
    | .error fault => ∃ after, action m = .error fault after

namespace Plays

variable {α β : Type} {base : Machine} {thread next : Thread}

theorem pure (answer : α) : Plays base (Pure.pure answer) thread (.ok (answer, thread)) :=
  fun m hfol => ⟨m, rfl, hfol⟩

theorem bind {action : WordM α} {rest : α → WordM β} {answer : α} {result : Except Fault (β × Thread)}
    (hact : Plays base action thread (.ok (answer, next))) (hrest : Plays base (rest answer) next result) :
    Plays base (action >>= rest) thread result := by
  intro m hfol
  obtain ⟨middle, hok, hmid⟩ := hact m hfol
  have hres := hrest middle hmid
  match result with
  | .ok (answer, next) =>
    obtain ⟨after, hafter, hnext⟩ := hres
    exact ⟨after, (bind_of_ok hok).trans hafter, hnext⟩
  | .error fault =>
    obtain ⟨after, hafter⟩ := hres
    exact ⟨after, (bind_of_ok hok).trans hafter⟩

theorem bind_error {action : WordM α} {rest : α → WordM β} {fault : Fault}
    (hact : Plays base action thread (.error fault)) : Plays base (action >>= rest) thread (.error fault) := by
  intro m hfol
  obtain ⟨after, herror⟩ := hact m hfol
  exact ⟨after, bind_of_error herror⟩

theorem ask {question : Machine → Except Fault α} {result : Except Fault α}
    (hquestion : ∀ m, Follows base thread m → question m = result) :
    Plays base (WordM.ask question) thread (result.map fun answer => (answer, thread)) := by
  intro m hfol
  cases result with
  | ok answer =>
    refine ⟨m, ?_, hfol⟩
    rw [WordM.ask, hquestion m hfol]
  | error fault =>
    refine ⟨m, ?_⟩
    rw [WordM.ask, hquestion m hfol]

theorem ask_ok {question : Machine → Except Fault α} {answer : α}
    (hquestion : ∀ m, Follows base thread m → question m = .ok answer) :
    Plays base (WordM.ask question) thread (.ok (answer, thread)) :=
  Plays.ask hquestion

end Plays

/-! ### The data stack -/

/-- An action on the items of the data stack. -/
abbrev StackM := StateT Items (Except Fault)

namespace StackM

/-- An action that gives no answer. -/
def ofEffect (effect : Items → Except Fault Items) : StackM Unit := fun items => do
  return ((), ← effect items)

def push (value : Cell) : StackM Unit := ofEffect (Items.push value)

def pushDouble (value : DoubleCell) : StackM Unit := ofEffect (Items.pushDouble value)

def pop : StackM Cell
  | value :: rest => .ok (value, rest)
  | [] => .error (.stackUnderflow .data)

def popDouble : StackM DoubleCell
  | high :: low :: rest => .ok (DoubleCell.join low high, rest)
  | _ => .error (.stackUnderflow .data)

/-- The item `place` places below the top. -/
def top (place : Nat) : StackM Cell := fun items =>
  match items[place]? with
  | some value => .ok (value, items)
  | none => .error (.stackUnderflow .data)

def need (count : Nat) : StackM Unit := fun items =>
  if items.length < count then .error (.stackUnderflow .data) else .ok ((), items)

/-- Bring the item at a place to the top. -/
def rollUp (place : Nat) : StackM Unit := fun items =>
  if place = 0 then .ok ((), items)
  else
    match items[place]? with
    | some value => .ok ((), value :: items.eraseIdx place)
    | none => .error (.stackUnderflow .data)

/-- The action on a thread. -/
def onThread {α : Type} (action : StackM α) (thread : Thread) : Except Fault (α × Thread) := do
  let (answer, items) ← action thread.items
  return (answer, { thread with items })

end StackM

/-- The action of the machine does to the data stack what the action on its items does. -/
def Denotes {α : Type} (action : WordM α) (meaning : StackM α) : Prop :=
  ∀ (base : Machine) (thread : Thread), Plays base action thread (meaning.onThread thread)

namespace Denotes

variable {α β : Type}

theorem pure (answer : α) : Denotes (Pure.pure answer) (Pure.pure answer) :=
  fun _ _ => Plays.pure answer

theorem bind {action : WordM α} {rest : α → WordM β} {meaning : StackM α} {next : α → StackM β}
    (hact : Denotes action meaning) (hrest : ∀ answer, Denotes (rest answer) (next answer)) :
    Denotes (action >>= rest) (meaning >>= next) := by
  intro base thread
  have hplays := hact base thread
  cases hmeaning : meaning thread.items with
  | error fault =>
    have hbind : (meaning >>= next).onThread thread = .error fault := by
      change ((meaning thread.items >>= fun part => next part.1 part.2) >>= _) = _
      rw [hmeaning]
      rfl
    rw [StackM.onThread, hmeaning] at hplays
    rw [hbind]
    exact hplays.bind_error
  | ok part =>
    have hbind : (meaning >>= next).onThread thread =
        (next part.1).onThread { thread with items := part.2 } := by
      change ((meaning thread.items >>= fun part => next part.1 part.2) >>= _) = _
      rw [hmeaning]
      rfl
    rw [StackM.onThread, hmeaning] at hplays
    rw [hbind]
    exact hplays.bind (hrest part.1 base { thread with items := part.2 })

theorem congr {action : WordM α} {meaning other : StackM α} (hdenotes : Denotes action meaning)
    (hequal : ∀ items : Items, items.length ≤ dataCells → meaning items = other items) :
    Denotes action other := by
  intro base thread m hfol
  have hplays := hdenotes base thread m hfol
  rwa [StackM.onThread, hequal thread.items hfol.length_le] at hplays

theorem ask (result : Except Fault α) :
    Denotes (WordM.ask fun _ => result) (fun items => result.map fun answer => (answer, items)) := by
  intro base thread
  have hplays : Plays base (WordM.ask fun _ => result) thread _ := Plays.ask fun _ _ => rfl
  cases result <;> exact hplays

end Denotes

namespace WordM

theorem denotes_push (value : Cell) : Denotes (push value) (StackM.push value) := by
  intro base thread m hfol
  have hdata := hfol.bounded.data
  have hroom := hfol.data_room
  rw [StackM.onThread, StackM.push, StackM.ofEffect, Items.push]
  by_cases hfull : thread.items.length < dataCells
  · rw [if_pos hfull]
    have hfit : m.data.limit + 4 ≤ m.data.top := by omega
    refine ⟨{ m with
      data := { m.data with top := m.data.top - 4 }
      memory := m.memory.setCell (m.data.top - 4) value }, ?_, ?_⟩
    · rw [push, pushing, Stack.push_of_room hdata hfol.bounded.size_eq value hfit]
    · exact hfol.withData (hdata.lower hfit) (hdata.sameOutside m.memory value hfit)
        (hfol.items.push hdata hfol.bounded.size_eq value hfit)
  · rw [if_neg hfull]
    refine ⟨m, ?_⟩
    rw [push, pushing, Stack.push_of_full hdata m.memory value (by omega)]

theorem denotes_pop : Denotes pop StackM.pop := by
  intro base thread m hfol
  have hdata := hfol.bounded.data
  have hitems := hfol.items
  cases hlist : thread.items with
  | nil =>
    rw [hlist] at hitems
    rw [StackM.onThread, hlist]
    refine ⟨m, ?_⟩
    rw [pop, popping, Stack.pop_of_empty hdata m.memory hitems.base_le_top]
  | cons value rest =>
    rw [hlist] at hitems
    rw [StackM.onThread, hlist]
    refine ⟨{ m with data := { m.data with top := m.data.top + 4 } }, ?_, ?_⟩
    · rw [pop, popping, Stack.pop_of_items hdata hfol.bounded.size_eq hitems.top_lt,
        hitems.held.head]
    · exact hfol.withData (hdata.raise hitems.top_lt) (.refl _ _) hitems.pop

theorem denotes_top (place : Nat) : Denotes (top place) (StackM.top place) := by
  intro base thread
  have hplays : Plays base (top place) thread _ := Plays.ask fun m hfol =>
    hfol.items.peek_eq hfol.bounded.data hfol.bounded.size_eq place
  rw [StackM.onThread, StackM.top]
  cases hplace : thread.items[place]? with
  | some value =>
    rw [hplace] at hplays
    exact hplays
  | none =>
    rw [hplace] at hplays
    exact hplays

theorem denotes_need (count : Nat) : Denotes (need count) (StackM.need count) := by
  intro base thread
  have hplays : Plays base (need count) thread _ := Plays.ask fun m hfol =>
    hfol.items.check_eq hfol.bounded.data count
  rw [StackM.onThread, StackM.need]
  by_cases hcount : thread.items.length < count
  · rw [if_pos hcount] at hplays ⊢
    exact hplays
  · rw [if_neg hcount] at hplays ⊢
    exact hplays

theorem denotes_rollUp (place : Nat) : Denotes (rollUp place) (StackM.rollUp place) := by
  intro base thread m hfol
  have hdata := hfol.bounded.data
  have hsize := hfol.bounded.size_eq
  have hlimit := hdata.limit_eq
  have hbase := hdata.base_eq
  have htop := hdata.limit_le
  rw [StackM.onThread, StackM.rollUp]
  by_cases hplace : place = 0
  · subst hplace
    exact ⟨m, rfl, hfol⟩
  rw [if_neg hplace]
  cases hvalue : thread.items[place]? with
  | some value =>
    obtain ⟨memory, hroll, hsame, hcar⟩ := hfol.items.roll hdata hsize hplace hvalue
    have hlen := (List.getElem?_eq_some_iff.1 hvalue).1
    have hdepth := hfol.items.depth_eq
    refine ⟨{ m with memory }, ?_, hfol.withData hdata (hsame.mono ?_) hcar⟩
    · rw [rollUp, pushing]
      simp only [bind_of_ok hroll]
      rfl
    · rintro addr ⟨hlow, hhigh⟩
      simp only at hlow hhigh
      exact ⟨by omega, by omega⟩
  | none =>
    refine ⟨m, ?_⟩
    rw [rollUp, pushing]
    simp only [bind_of_error (hfol.items.roll_none hdata hsize hplace hvalue)]

theorem denotes_pushDouble (value : DoubleCell) : Denotes (pushDouble value) (StackM.pushDouble value) := by
  intro base thread m hfol
  have hroom := hfol.data_room
  rw [StackM.onThread, StackM.pushDouble, StackM.ofEffect, Items.pushDouble]
  by_cases hfull : thread.items.length + 2 ≤ dataCells
  · have hcells := ((denotes_push (DoubleCell.low value)).bind fun _ =>
      denotes_push (DoubleCell.high value)) base thread m hfol
    have hboth : (StackM.push (DoubleCell.low value) >>= fun _ => StackM.push (DoubleCell.high value))
        thread.items = .ok ((), Items.double value thread.items) := by
      change ((Items.push _ thread.items >>= fun items => _) >>= _) = _
      rw [Items.push, if_pos (by omega)]
      change (Items.push _ _ >>= _) = _
      rw [Items.push, if_pos (by rw [List.length_cons]; omega)]
      rfl
    rw [StackM.onThread, hboth] at hcells
    rw [if_pos hfull, pushDouble_of_room hfol.bounded value (by omega)]
    exact hcells
  · rw [if_neg hfull]
    refine ⟨m, ?_⟩
    rw [pushDouble, pushing, Stack.pushDouble, if_pos (by omega), hfol.bounded.data.kind_eq]
    rfl

theorem denotes_popDouble : Denotes popDouble StackM.popDouble := by
  intro base thread m hfol
  have hitems := hfol.items
  have hcheck := hitems.check_eq hfol.bounded.data 2
  match hlist : thread.items with
  | [] =>
    rw [hlist] at hcheck
    rw [StackM.onThread, hlist]
    refine ⟨m, ?_⟩
    rw [popDouble, popping, Stack.popDouble, hcheck]
    rfl
  | [_] =>
    rw [hlist] at hcheck
    rw [StackM.onThread, hlist]
    refine ⟨m, ?_⟩
    rw [popDouble, popping, Stack.popDouble, hcheck]
    rfl
  | high :: low :: rest =>
    have hdepth := hitems.depth_eq
    have hcells := (denotes_pop.bind fun high => denotes_pop.bind fun low =>
      Denotes.pure (DoubleCell.join low high)) base thread m hfol
    rw [StackM.onThread, hlist] at hcells ⊢
    rw [hlist, List.length_cons, List.length_cons] at hdepth
    rw [popDouble_of_items hfol.bounded (by omega)]
    exact hcells

theorem denotes_depth :
    Denotes (ask fun m => .ok m.data.depth) fun items => .ok (items.length, items) := by
  intro base thread
  exact Plays.ask fun m hfol => congrArg Except.ok hfol.items.length_eq

theorem denotes_clear :
    Denotes (update fun m => { m with data := m.data.clear })
      (fun _ => .ok ((), [])) := by
  intro base thread m hfol
  refine ⟨_, rfl, hfol.withData hfol.bounded.data.clear (.refl _ _) ⟨rfl, nofun⟩⟩

theorem denotes_discard {α : Type} {action : WordM α} {meaning : StackM α} (hact : Denotes action meaning) :
    Denotes (discard action) (meaning >>= fun _ => pure ()) :=
  hact.bind fun _ => Denotes.pure ()

end WordM

end ThreadedForth
