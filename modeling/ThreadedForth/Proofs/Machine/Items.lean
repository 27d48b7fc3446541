
import ThreadedForth.Proofs.Machine.Bounds
import ThreadedForth.Proofs.Stack.Items

/-!
# The items of the machine's stacks

The stacks of a bounded machine stand in its memory, so each of them is a list of items.
-/

namespace ThreadedForth.Stack

open Layout

variable {kind : StackKind} {region : Region} {stack : Stack} {memory : Memory} {items : List Cell}

theorem Fits.stands (hfits : stack.Fits kind region) (hsize : memory.size = memorySize) :
    stack.Stands memory := by
  have hfin := hfits.usable.finish_le
  have haligned := hfits.usable.finish_aligned
  have hbase := hfits.base_eq
  exact ⟨by omega, by omega⟩

theorem Fits.exists_carries (hfits : stack.Fits kind region) (memory : Memory) :
    ∃ items, stack.Carries memory items := by
  have htop := hfits.top_le
  have hwhole := hfits.whole
  obtain ⟨items, hlen, hholds⟩ :=
    HoldsItems.exists_items memory stack.top ((stack.base - stack.top) / 4)
  exact ⟨items, by omega, hholds⟩

namespace Carries

section

variable (hcar : stack.Carries memory items)

include hcar

theorem push (hfits : stack.Fits kind region)
    (hsize : memory.size = memorySize) (value : Cell) (hroom : stack.limit + 4 ≤ stack.top) :
    ({ stack with top := stack.top - 4 } : Stack).Carries (memory.setCell (stack.top - 4) value)
      (value :: items) :=
  hcar.pushed (hfits.stands hsize) value hroom

theorem check_eq (hfits : stack.Fits kind region) (needed : Nat) :
    stack.check needed =
      if items.length < needed then .error (.stackUnderflow kind) else .ok () := by
  rw [hcar.check_kind_eq, hfits.kind_eq]

theorem peek_eq (hfits : stack.Fits kind region)
    (hsize : memory.size = memorySize) (place : Nat) :
    stack.peek memory place =
      match items[place]? with
      | some value => .ok value
      | none => .error (.stackUnderflow kind) := by
  have hpeek := hcar.peek_kind_eq (hfits.stands hsize) place
  rw [hfits.kind_eq] at hpeek
  exact hpeek

end

theorem poke {value other : Cell} (hcar : stack.Carries memory (other :: items))
    (hfits : stack.Fits kind region) (hsize : memory.size = memorySize) :
    stack.poke 0 value memory = .ok () (memory.setCell stack.top value) ∧
      stack.Carries (memory.setCell stack.top value) (value :: items) :=
  ⟨hcar.poke_eq (hfits.stands hsize) (Nat.zero_lt_succ _) value,
    hcar.poked (hfits.stands hsize) (Nat.zero_lt_succ _) value⟩

variable {place : Nat}

theorem roll {value : Cell} (hcar : stack.Carries memory items)
    (hfits : stack.Fits kind region) (hsize : memory.size = memorySize) (hplace : place ≠ 0)
    (hvalue : items[place]? = some value) :
    ∃ after, stack.roll place memory = .ok () after ∧
      Memory.SameOutside (Region.mk stack.top (stack.top + 4 * place + 4)).Holds memory after ∧
      stack.Carries after (value :: items.eraseIdx place) :=
  hcar.rolled (hfits.stands hsize) hplace hvalue

theorem roll_none (hcar : stack.Carries memory items) (hfits : stack.Fits kind region)
    (hsize : memory.size = memorySize) (hplace : place ≠ 0) (hvalue : items[place]? = none) :
    stack.roll place memory = .error (.stackUnderflow kind) memory := by
  rw [Stack.roll, if_neg hplace, hcar.peek_eq hfits hsize, hvalue]

end Carries

end ThreadedForth.Stack

namespace ThreadedForth.WordM

variable {m : Machine}

theorem pushDouble_of_room (hb : m.Bounded) (value : DoubleCell)
    (hroom : m.data.limit + 8 ≤ m.data.top) :
    pushDouble value m =
      (do push (DoubleCell.low value); push (DoubleCell.high value) : WordM Unit) m := by
  have hlow := Stack.push_of_room hb.data hb.size_eq (DoubleCell.low value) (by omega)
  have hsize : (m.memory.setCell (m.data.top - 4) (DoubleCell.low value)).size =
      Layout.memorySize := by
    rw [Memory.size_setCell, hb.size_eq]
  have hhigh := Stack.push_of_room (hb.data.lower (by omega)) hsize (DoubleCell.high value)
    (show m.data.limit + 4 ≤ m.data.top - 4 by omega)
  have hfst : push (DoubleCell.low value) m = .ok () { m with
      data := { m.data with top := m.data.top - 4 }
      memory := m.memory.setCell (m.data.top - 4) (DoubleCell.low value) } := by
    rw [push, pushing, hlow]
  rw [bind_of_ok hfst, pushDouble, pushing, Stack.pushDouble, if_neg (by omega)]
  simp only [bind_of_ok hlow, push, pushing, hhigh]

theorem popDouble_of_items (hb : m.Bounded) (hitems : m.data.top + 8 ≤ m.data.base) :
    popDouble m = (do let high ← pop; let low ← pop; return DoubleCell.join low high : WordM DoubleCell) m := by
  have hcheck : m.data.check 2 = .ok () := by
    rw [Stack.check, if_neg]
    rw [Stack.depth]
    omega
  have hhigh := Stack.pop_of_items hb.data hb.size_eq (by omega)
  have hlow := Stack.pop_of_items (hb.data.raise (by omega)) hb.size_eq (show m.data.top + 4 < m.data.base by omega)
  have hfst : pop m = .ok (m.memory.cellAt m.data.top) { m with data := { m.data with top := m.data.top + 4 } } := by
    rw [pop, popping, hhigh]
  have hsnd : pop { m with data := { m.data with top := m.data.top + 4 } } = .ok (m.memory.cellAt (m.data.top + 4))
      { m with data := { m.data with top := m.data.top + 4 + 4 } } := by
    rw [pop, popping, hlow]
  have hpair : m.data.popDouble m.memory = .ok (DoubleCell.join (m.memory.cellAt (m.data.top + 4))
      (m.memory.cellAt m.data.top), { m.data with top := m.data.top + 4 + 4 }) := by
    rw [Stack.popDouble, hcheck]
    change (m.data.pop m.memory >>= _) = _
    rw [hhigh]
    change (Stack.pop _ m.memory >>= _) = _
    rw [hlow]
    rfl
  rw [bind_of_ok hfst, bind_of_ok hsnd, popDouble, popping, hpair]
  rfl

end ThreadedForth.WordM
