import ThreadedForth.Proofs.Machine.Items
import ThreadedForth.Proofs.Machine.Reachable

/-!
# The operands of a word

A word that works on the data stack alone needs a number of operands, says so before it does anything else, and touches
nothing beneath them. Both follow from the way it is put together: `Guarded` words begin with a question that fails
unless there are enough items, and a word `Takes` its steps from a count of items that each step leaves to the next.
-/

namespace ThreadedForth

open WordM Layout Division

variable {place count : Nat} {action : WordM α} {m : Machine}

/-- All that may have changed are items of the data stack below the address `floor`, and the stack still reaches down to
it. -/
structure Machine.Grounded (origin : Machine) (floor : Nat) (m : Machine) : Prop where
  bounded : m.Bounded
  machine : m = { origin with memory := m.memory, data := m.data }
  memory : Memory.SameOutside (Region.mk dataStack floor).Holds origin.memory m.memory
  top_le : m.data.top ≤ floor
  floor_le : floor ≤ dataRegion.finish

namespace Machine.Grounded

variable {origin m : Machine} {floor : Nat}

variable (hground : origin.Grounded floor m)

include hground

theorem popped (hcells : m.data.top + 4 ≤ floor) :
    pop m = .ok (m.memory.cellAt m.data.top) { m with data := { m.data with top := m.data.top + 4 } } ∧
      origin.Grounded floor { m with data := { m.data with top := m.data.top + 4 } } := by
  have hfits := hground.bounded.data
  have hitems : m.data.top < m.data.base := by
    have hbase := hfits.base_eq
    have hfloor := hground.floor_le
    omega
  refine ⟨?_, hground.bounded.withData (hfits.raise hitems), ?_, hground.memory, hcells, hground.floor_le⟩
  · rw [pop, popping, Stack.pop_of_items hfits hground.bounded.size_eq hitems]
  · rw [hground.machine]

/-- A write above the floor is one that may be. -/
theorem written {data : Stack} {memory : Memory}
    (hdata : data.Fits .data dataRegion) (htop : data.top ≤ m.data.top) {area : Nat → Prop}
    (hsame : Memory.SameOutside area m.memory memory)
    (harea : ∀ addr, area addr → dataStack ≤ addr ∧ addr < floor) :
    origin.Grounded floor { m with data, memory } where
  bounded := (hground.bounded.withData hdata).withMemory hsame.size
  machine := by rw [hground.machine]
  memory := hground.memory.trans (hsame.mono harea)
  top_le := Nat.le_trans htop hground.top_le
  floor_le := hground.floor_le

theorem pushed (value : Cell) (hroom : m.data.limit + 4 ≤ m.data.top) :
    ∃ memory, push value m = .ok () { m with data := { m.data with top := m.data.top - 4 }, memory } ∧
      origin.Grounded floor { m with data := { m.data with top := m.data.top - 4 }, memory } := by
  have hfits := hground.bounded.data
  have hlimit : m.data.limit = dataStack := hfits.limit_eq
  have htop := hground.top_le
  refine ⟨_, ?_, hground.written (hfits.lower hroom) (Nat.sub_le _ _)
    (Memory.sameOutside_setCell m.memory (m.data.top - 4) value) fun addr harea => ?_⟩
  · rw [push, pushing, Stack.push_of_room hfits hground.bounded.size_eq value hroom]
  · rw [Region.holds_mk] at harea
    omega

theorem rolled  (hcells : m.data.top + 4 * place + 4 ≤ floor) :
    ∃ memory, rollUp place m = .ok () { m with memory } ∧ origin.Grounded floor { m with memory } := by
  by_cases hplace : place = 0
  · subst hplace
    exact ⟨m.memory, rfl, hground⟩
  have hfits := hground.bounded.data
  have hlimit : m.data.limit = dataStack := hfits.limit_eq
  have hlow := hfits.limit_le
  have hbase := hfits.base_eq
  have hfloor := hground.floor_le
  obtain ⟨items, hcar⟩ := hfits.exists_carries m.memory
  have hdepth := hcar.depth_eq
  have hlen : place < items.length := by omega
  obtain ⟨memory, hroll, hsame, -⟩ :=
    hcar.roll hfits hground.bounded.size_eq hplace (List.getElem?_eq_getElem hlen)
  refine ⟨memory, ?_, hground.written hfits (Nat.le_refl _) hsame fun addr harea => ?_⟩
  · rw [rollUp, pushing]
    simp only [bind_of_ok hroll]
    rfl
  · rw [Region.holds_mk] at harea
    omega

end Machine.Grounded

/-! ### Counting items -/

/-- With so many items above the floor the action stays above it and does not miss any. If it succeeds, it leaves the
second number of items. -/
class Takes {α : Type} (before : Nat) (action : WordM α) (after : outParam Nat) : Prop where
  takes {origin m : Machine} {floor : Nat} (hground : origin.Grounded floor m) (hcells : m.data.top + 4 * before ≤ floor) :
    match action m with
    | .ok _ next => origin.Grounded floor next ∧ next.data.top + 4 * after ≤ floor
    | .error fault next => origin.Grounded floor next ∧ fault ≠ .stackUnderflow .data

namespace Takes

variable {α β : Type} {count : Nat}

instance pure (answer : α) : Takes count (Pure.pure answer) count := ⟨fun hground hcells => ⟨hground, hcells⟩⟩

instance bind {middle after : Nat} (action : WordM α) (rest : α → WordM β) [haction : Takes count action middle]
    [hrest : ∀ answer, Takes middle (rest answer) after] : Takes count (action >>= rest) after := by
  refine ⟨fun {origin m floor} hground hcells => ?_⟩
  have hfst := haction.takes hground hcells
  cases hact : action m with
  | ok answer next =>
    rw [hact] at hfst
    rw [bind_of_ok hact]
    exact (hrest answer).takes hfst.1 hfst.2
  | error fault next =>
    rw [hact] at hfst
    rw [bind_of_error hact]
    exact hfst

instance discard {after : Nat} (action : WordM α) [Takes count action after] :
    Takes count (Functor.discard action) after := by
  rw [Parallel.discard_eq_bind]
  infer_instance

theorem less {after fewer : Nat} (haction : Takes count action after) (hless : fewer ≤ after) :
    Takes count action fewer := by
  refine ⟨fun {origin m floor} hground hcells => ?_⟩
  have htakes := haction.takes hground hcells
  cases hact : action m <;> rw [hact] at htakes
  · exact ⟨htakes.1, by have := htakes.2; omega⟩
  · exact htakes

theorem ask {question : Machine → Except Fault α}
    (hquestion : ∀ m : Machine, m.Bounded → m.data.top + 4 * count ≤ m.data.base →
      question m ≠ .error (.stackUnderflow .data)) : Takes count (ask question) count := by
  refine ⟨fun {origin m floor} hground hcells => ?_⟩
  have hbase := hground.bounded.data.base_eq
  have hfloor := hground.floor_le
  have hanswer := hquestion m hground.bounded (by omega)
  rw [WordM.ask]
  cases hask : question m with
  | ok answer => exact ⟨hground, hcells⟩
  | error fault =>
    refine ⟨hground, ?_⟩
    rintro rfl
    exact hanswer hask

theorem top  (hplace : place < count) : Takes count (WordM.top place) count := by
  refine ask fun m hb hitems => ?_
  obtain ⟨items, hcar⟩ := hb.data.exists_carries m.memory
  have hdepth := hcar.depth_eq
  rw [hcar.peek_eq hb.data hb.size_eq, List.getElem?_eq_getElem (by omega)]
  nofun

instance topLast (place : Nat) : Takes (place + 1) (WordM.top place) (place + 1) := top (Nat.lt_succ_self place)

instance need (count : Nat) : Takes count (need count) count := by
  refine ask fun m hb hitems => ?_
  obtain ⟨items, hcar⟩ := hb.data.exists_carries m.memory
  have hdepth := hcar.depth_eq
  rw [hcar.check_eq hb.data, if_neg (by omega)]
  nofun

instance pop : Takes (count + 1) pop count := by
  refine ⟨fun {origin m floor} hground hcells => ?_⟩
  obtain ⟨hpop, hpopped⟩ := hground.popped (by omega)
  rw [hpop]
  exact ⟨hpopped, by simp only; omega⟩

instance push (value : Cell) : Takes count (push value) (count + 1) := by
  refine ⟨fun {origin m floor} hground hcells => ?_⟩
  by_cases hroom : m.data.limit + 4 ≤ m.data.top
  · obtain ⟨memory, hpush, hpushed⟩ := hground.pushed value hroom
    rw [hpush]
    exact ⟨hpushed, by simp only; omega⟩
  · rw [WordM.push, pushing, Stack.push_of_full hground.bounded.data m.memory value (by omega)]
    exact ⟨hground, nofun⟩

instance rollUp (place : Nat) : Takes (place + 1) (WordM.rollUp place) (place + 1) := by
  refine ⟨fun {origin m floor} hground hcells => ?_⟩
  obtain ⟨memory, hroll, hrolled⟩ := hground.rolled (by omega)
  rw [hroll]
  exact ⟨hrolled, hcells⟩

instance popDouble : Takes (count + 2) popDouble count := by
  refine ⟨fun {origin m floor} hground hcells => ?_⟩
  have hbase := hground.bounded.data.base_eq
  have hfloor := hground.floor_le
  have hpops : Takes (count + 2) (do let high ← WordM.pop; let low ← WordM.pop; return DoubleCell.join low high) count :=
    inferInstance
  rw [popDouble_of_items hground.bounded (by omega)]
  exact hpops.takes hground hcells

instance pushDouble (value : DoubleCell) : Takes count (pushDouble value) (count + 2) := by
  refine ⟨fun {origin m floor} hground hcells => ?_⟩
  by_cases hroom : m.data.limit + 8 ≤ m.data.top
  · have hpushes : Takes count (do WordM.push (DoubleCell.low value); WordM.push (DoubleCell.high value)) (count + 2) :=
      inferInstance
    rw [pushDouble_of_room hground.bounded value hroom]
    exact hpushes.takes hground hcells
  · rw [WordM.pushDouble, pushing, Stack.pushDouble, if_pos (by omega)]
    exact ⟨hground, nofun⟩

end Takes

/-! ### Guards -/

/-- With fewer items the action fails at once. -/
class Guarded {α : Type} (count : Nat) (action : WordM α) : Prop where
  guarded {m : Machine} (hb : m.Bounded) (hfew : m.data.depth < count) :
    action m = .error (.stackUnderflow .data) m

namespace Guarded

variable {α β : Type} {count : Nat}

instance bind (action : WordM α) (rest : α → WordM β) [haction : Guarded count action] :
    Guarded count (action >>= rest) :=
  ⟨fun hb hfew => bind_of_error (haction.guarded hb hfew)⟩

instance discard (action : WordM α) [Guarded count action] : Guarded count (Functor.discard action) := by
  rw [Parallel.discard_eq_bind]
  infer_instance

theorem check_of_few  (hb : m.Bounded) (hfew : m.data.depth < count) :
    m.data.check count = .error (.stackUnderflow .data) := by
  rw [Stack.check, if_pos hfew, hb.data.kind_eq]

instance need (count : Nat) : Guarded count (WordM.need count) :=
  ⟨fun hb hfew => by rw [WordM.need, ask, check_of_few hb hfew]⟩

theorem peek_of_few   (hb : m.Bounded) (hfew : m.data.depth < place + 1) :
    m.data.peek m.memory place = .error (.stackUnderflow .data) := by
  rw [Stack.peek, check_of_few hb hfew]
  rfl

instance top (place : Nat) : Guarded (place + 1) (WordM.top place) :=
  ⟨fun hb hfew => by rw [WordM.top, ask, peek_of_few hb hfew]⟩

instance pop : Guarded 1 pop := by
  refine ⟨fun {m} hb hfew => ?_⟩
  have hwhole := hb.data.whole
  rw [Stack.depth] at hfew
  rw [WordM.pop, popping, Stack.pop_of_empty hb.data m.memory (by omega)]

instance popDouble : Guarded 2 WordM.popDouble :=
  ⟨fun hb hfew => by rw [WordM.popDouble, popping, Stack.popDouble, check_of_few hb hfew]; rfl⟩

instance rollUp (place : Nat) : Guarded (place + 2) (WordM.rollUp (place + 1)) := by
  refine ⟨fun {m} hb hfew => ?_⟩
  have hroll : m.data.roll (place + 1) m.memory = .error (.stackUnderflow .data) m.memory := by
    rw [Stack.roll, if_neg (Nat.succ_ne_zero place), peek_of_few hb hfew]
  rw [WordM.rollUp, pushing]
  simp only [bind_of_error hroll]

end Guarded

/-! ### Words -/

/-- The number of cells in the operands of a word that only works on the data stack, always on the same number of items
and at least on one. -/
def Prim.operands? : Prim → Option Nat
  | .stack word =>
    match word with
    | .dup | .drop | .questionDup => some 1
    | .swap | .over_ | .nip | .tuck | .twoDup | .twoDrop => some 2
    | .rot | .minusRot => some 3
    | .twoSwap | .twoOver => some 4
    | _ => none
  | .cell word =>
    match word with
    | .onePlus | .oneMinus | .negate | .abs | .invert | .twoStar | .twoSlash | .zeroEqual | .zeroNotEqual | .zeroLess
    | .zeroGreater => some 1
    | .starSlash | .starSlashMod | .within => some 3
    | .trueFlag | .falseFlag => none
    | _ => some 2
  | .double word =>
    match word with
    | .sToD => some 1
    | .mStar | .umStar | .dNegate | .dAbs | .dToS | .dZeroEqual => some 2
    | .umSlashMod | .fmSlashMod | .smSlashRem | .mPlus => some 3
    | .dPlus | .dMinus | .dEqual | .dLess => some 4
  | _ => none

/-- The action has its operands in so many cells. -/
structure Operates {α : Type} (count : Nat) (action : WordM α) : Prop where
  guarded : Guarded count action
  takes : ∃ left, Takes count action left

namespace Operates

variable {α : Type} {count left : Nat}

theorem of  [hguarded : Guarded count action] [htakes : Takes count action left] :
    Operates count action :=
  ⟨hguarded, left, htakes⟩

theorem complete {action : WordM Unit} (hoperates : Operates count action) : Operates count action.complete := by
  obtain ⟨_, left, _⟩ := hoperates
  have htakes : Takes count (action >>= fun _ => (pure none : WordM (Option Request))) left := inferInstance
  exact ⟨inferInstanceAs (Guarded count (action >>= fun _ => pure none)), left, htakes⟩

/-- What an action does from any state follows from what it takes. -/
theorem contract  (hoperates : Operates count action) (hb : m.Bounded) :
    ((∃ after, action m = .error (.stackUnderflow .data) after) ↔ m.data.depth < count) ∧
      (m.data.depth < count → action m = .error (.stackUnderflow .data) m) ∧
      (count ≤ m.data.depth → m.Grounded (m.data.top + 4 * count) (stateAfter action m)) := by
  obtain ⟨hguarded, left, htakes⟩ := hoperates
  have henough (hcount : count ≤ m.data.depth) := by
    refine htakes.takes (show m.Grounded (m.data.top + 4 * count) m from ?_) (Nat.le_refl _)
    have hbase := hb.data.base_eq
    have htop := hb.data.top_le
    rw [Stack.depth] at hcount
    exact ⟨hb, rfl, .refl _ _, Nat.le_add_right _ _, by omega⟩
  refine ⟨⟨fun ⟨after, herror⟩ => Nat.not_le.1 fun hcount => ?_, fun hfew => ⟨m, hguarded.guarded hb hfew⟩⟩,
    hguarded.guarded hb, fun hcount => ?_⟩
  · have hends := henough hcount
    rw [herror] at hends
    exact hends.2 rfl
  · have hends := henough hcount
    unfold stateAfter
    cases hact : action m <;> (rw [hact] at hends; exact hends.1)

end Operates

namespace StackWord

instance : Guarded 2 swapItems := inferInstanceAs (Guarded 2 (need 2 >>= _))

instance : Takes 2 swapItems 2 := by
  unfold swapItems
  infer_instance

instance (place : Nat) : Guarded (place + 2) (copyPair place) := by
  refine ⟨fun {m} hb hfew => ?_⟩
  by_cases hfirst : m.data.depth < place + 1
  · exact bind_of_error (Guarded.guarded hb hfirst)
  · obtain ⟨items, hcar⟩ := hb.data.exists_carries m.memory
    have hlen : place < items.length := by
      rw [hcar.length_eq] at hfirst
      omega
    have htop : top place m = .ok items[place] m := by
      rw [top, ask, hcar.peek_eq hb.data hb.size_eq, List.getElem?_eq_getElem hlen]
    exact (bind_of_ok htop).trans (bind_of_error (Guarded.guarded hb hfew))

instance (place : Nat) : Takes (place + 2) (copyPair place) (place + 2 + 1 + 1) := by
  have : Takes (place + 2) (top place) (place + 2) := .top (by omega)
  have : Takes (place + 2) (top (place + 1)) (place + 2) := .top (by omega)
  unfold copyPair
  infer_instance

theorem operates {word : StackWord} (hcount : (Prim.stack word).operands? = some count) :
    Operates count word.perform := by
  cases word with
  | questionDup =>
    cases hcount
    have (value : Cell) : Takes 1 (if value ≠ 0 then push value else pure ()) 1 := by
      split
      · exact Takes.less inferInstance (Nat.le_succ 1)
      · infer_instance
    simp only [perform]
    exact .of
  | twoDup => exact Option.some.inj hcount ▸ (Operates.of : Operates 2 (copyPair 0))
  | twoOver => exact Option.some.inj hcount ▸ (Operates.of : Operates 4 (copyPair 2))
  | _ =>
    cases hcount <;> simp only [perform, copyOver] <;> exact .of

end StackWord

/-! ### Division -/

theorem bind_ne_error {α β : Type} {fault : Fault} {first : Except Fault α} {rest : α → Except Fault β}
    (hfirst : first ≠ .error fault) (hrest : ∀ answer, rest answer ≠ .error fault) : first >>= rest ≠ .error fault := by
  cases first with
  | ok answer => exact hrest answer
  | error other => exact fun heq => hfirst (congrArg Except.error (Except.error.inj heq))

theorem Division.toCells_ne {result : Except Fault (Int × Int)} {fault : Fault} (hrange : fault ≠ .outOfRange)
    (hresult : result ≠ .error fault) : toCells result ≠ .error fault := by
  have hcell (n : Int) : toCell n ≠ .error fault := by
    unfold toCell
    split
    · nofun
    · exact fun heq => hrange (Except.error.inj heq).symm
  exact bind_ne_error hresult fun pair => bind_ne_error (hcell pair.1) fun _ => bind_ne_error (hcell pair.2) nofun

theorem Division.floored_ne (n d : Int) : toCells (floored n d) ≠ .error (.stackUnderflow .data) :=
  toCells_ne nofun (by unfold floored; split <;> nofun)

namespace CellWord

instance : Guarded 2 divide := inferInstanceAs (Guarded 2 (need 2 >>= _))

instance : Takes 2 divide 0 := by
  have (n d : Cell) : Takes 0 (ask fun _ => toCells (floored n.toInt d.toInt)) 0 :=
    .ask fun _ _ _ => floored_ne _ _
  unfold divide
  infer_instance

instance : Guarded 3 scale := inferInstanceAs (Guarded 3 (need 3 >>= _))

instance : Takes 3 scale 0 := by
  have (a b d : Cell) : Takes 0 (ask fun _ => toCells (floored (a.toInt * b.toInt) d.toInt)) 0 :=
    .ask fun _ _ _ => floored_ne _ _
  unfold scale
  infer_instance

theorem operates {word : CellWord} (hcount : (Prim.cell word).operands? = some count) :
    Operates count word.perform := by
  cases word <;> cases hcount <;> simp only [perform, compare, test, unary, binary, pushFlag] <;> exact .of

end CellWord

namespace DoubleWord

theorem operates_divide {f : DoubleCell → Cell → Except Fault (Cell × Cell)}
    (hresult : ∀ n d, f n d ≠ .error (.stackUnderflow .data)) : Operates 3 (divide f) := by
  have (n : DoubleCell) (d : Cell) : Takes 0 (ask fun _ => f n d) 0 := .ask fun _ _ _ => hresult n d
  simp only [divide]
  exact .of

theorem operates {word : DoubleWord} (hcount : (Prim.double word).operands? = some count) :
    Operates count word.perform := by
  cases word with
  | umSlashMod =>
    cases hcount
    refine operates_divide fun n d => ?_
    unfold unsigned
    simp only
    split
    · nofun
    · split <;> nofun
  | fmSlashMod => exact Option.some.inj hcount ▸ operates_divide fun _ _ => floored_ne _ _
  | smSlashRem =>
    cases hcount
    exact operates_divide fun n d => toCells_ne nofun (by unfold symmetric; split <;> nofun)
  | _ =>
    cases hcount
    simp only [perform, compare, multiply, binary, popDoubles, pushFlag, bind_assoc]
    exact .of

end DoubleWord

theorem Prim.operates {prim : Prim} (hcount : prim.operands? = some count) :
    Operates count prim.perform := by
  cases prim with
  | stack word => exact (StackWord.operates hcount).complete
  | cell word => exact (CellWord.operates hcount).complete
  | double word => exact (DoubleWord.operates hcount).complete
  | _ => cases hcount

/-! ### Words that address an item -/

/-- One past the item that the number on top of the stack addresses, or past the last item. -/
def Machine.pastAddressed (m : Machine) : Nat :=
  min (m.data.top + 4 * ((m.memory.cellAt m.data.top).toNatClampNeg + 2)) m.data.base

namespace StackWord

variable {m : Machine}

/-- The number that addresses an item is taken off, whether or not it can be a place. -/
theorem popLength_grounded (hb : m.Bounded) (hitems : 0 < m.data.depth) :
    let popped : Machine := { m with data := { m.data with top := m.data.top + 4 } }
    m.Grounded m.pastAddressed popped ∧ (popLength m = .error .outOfRange popped ∨
      popLength m = .ok (m.memory.cellAt m.data.top).toNatClampNeg popped) := by
  intro popped
  have hbase := hb.data.base_eq
  have htop := hb.data.top_le
  have hwhole := hb.data.whole
  rw [Stack.depth] at hitems
  have hcells : m.data.top + 4 ≤ m.pastAddressed := by
    rw [Machine.pastAddressed]
    omega
  have hground : m.Grounded m.pastAddressed m :=
    ⟨hb, rfl, .refl _ _, by omega, Nat.le_trans (Nat.min_le_right _ _) (Nat.le_of_eq hbase)⟩
  obtain ⟨hpop, hpopped⟩ := hground.popped hcells
  refine ⟨hpopped, ?_⟩
  rw [popLength, bind_of_ok hpop]
  split
  · exact .inl rfl
  · exact .inr rfl

theorem pick_grounded (hb : m.Bounded) (hitems : 0 < m.data.depth) :
    m.Grounded m.pastAddressed (stateAfter (perform .pick) m) := by
  obtain ⟨hpopped, herror | hok⟩ := popLength_grounded hb hitems
  · exact stateAfter_of_error (bind_of_error herror) ▸ hpopped
  · have hpush (value : Cell) : Keeps (m.Grounded m.pastAddressed) (push value) := by
      refine .of fun other hground => ?_
      have hends := (inferInstance : Takes 0 (push value) 1).takes hground hground.top_le
      unfold stateAfter
      cases hres : push value other <;> (rw [hres] at hends; exact hends.1)
    have hcopy (place : Nat) : Keeps (m.Grounded m.pastAddressed) (top place >>= push) := inferInstance
    rw [perform, stateAfter, bind_of_ok hok]
    exact (hcopy _).keeps _ hpopped

theorem roll_grounded (hb : m.Bounded) (hitems : 0 < m.data.depth) :
    m.Grounded m.pastAddressed (stateAfter (perform .roll) m) := by
  obtain ⟨hpopped, herror | hok⟩ := popLength_grounded hb hitems
  · exact stateAfter_of_error (bind_of_error herror) ▸ hpopped
  · rw [perform, stateAfter, bind_of_ok hok]
    have hbase := hb.data.base_eq
    have htop := hb.data.top_le
    have hfloor : m.pastAddressed = min (m.data.top + 4 * ((m.memory.cellAt m.data.top).toNatClampNeg + 2)) m.data.base :=
      rfl
    generalize (m.memory.cellAt m.data.top).toNatClampNeg = place at hfloor
    by_cases hcells : m.data.top + 4 + 4 * place + 4 ≤ m.pastAddressed
    · obtain ⟨memory, hroll, hrolled⟩ := hpopped.rolled hcells
      rw [hroll]
      exact hrolled
    · cases place with
      | zero => exact hpopped
      | succ place =>
        -- The item is deeper than the stack.
        have hfew : ({ m.data with top := m.data.top + 4 } : Stack).depth < place + 2 := by
          simp only [Stack.depth]
          omega
        have hguarded : Guarded (place + 2) (rollUp (place + 1)) := inferInstance
        rw [hguarded.guarded hpopped.bounded hfew]
        exact hpopped

end StackWord

/-- Words that work on the data stack alone miss an operand before they change anything, and leave all alone that is not
among their operands. -/
theorem operands_guard_words {m : Machine} (hb : m.Bounded) :
    (∀ prim count, Prim.operands? prim = some count →
      ((∃ after, prim.perform m = .error (.stackUnderflow .data) after) ↔ m.data.depth < count) ∧
      (m.data.depth < count → prim.perform m = .error (.stackUnderflow .data) m) ∧
      (count ≤ m.data.depth → m.Grounded (m.data.top + 4 * count) (stateAfter prim.perform m))) ∧
    ∀ word, word = .pick ∨ word = .roll →
      (m.data.depth = 0 → (Prim.stack word).perform m = .error (.stackUnderflow .data) m) ∧
      (0 < m.data.depth → m.Grounded m.pastAddressed (stateAfter (Prim.stack word).perform m)) := by
  refine ⟨fun prim count hcount => (Prim.operates hcount).contract hb, ?_⟩
  have hlength : Guarded 1 popLength := inferInstanceAs (Guarded 1 (pop >>= _))
  rintro word (rfl | rfl)
  · refine ⟨fun hempty => bind_of_error (bind_of_error (hlength.guarded hb (by omega))), fun hitems => ?_⟩
    exact (Prim.stateAfter_complete _ m).symm ▸ StackWord.pick_grounded hb hitems
  · refine ⟨fun hempty => bind_of_error (bind_of_error (hlength.guarded hb (by omega))), fun hitems => ?_⟩
    exact (Prim.stateAfter_complete _ m).symm ▸ StackWord.roll_grounded hb hitems

theorem operands_guard_words_two_items :
    let start := Machine.new .empty false
    let m := { start with data := { start.data with top := start.data.top - 8 } }
    m.Bounded ∧ Prim.operands? (.cell .plus) = some 2 ∧ 2 ≤ m.data.depth ∧
      m.Grounded (m.data.top + 4 * 2) (stateAfter (Prim.cell .plus).perform m) := by
  have hb := Machine.bounded_new .empty false
  have hitems := hb.withData (hb.data.moveTop (by decide : _ ≤ Layout.dataStack + Layout.dataCells * 4 - 8) (by decide)
    (by decide))
  exact ⟨hitems, rfl, by decide, ((operands_guard_words hitems).1 (.cell .plus) 2 rfl).2.2 (by decide)⟩

end ThreadedForth
