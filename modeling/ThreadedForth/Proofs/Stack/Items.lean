
import ThreadedForth.Proofs.Actions
import ThreadedForth.Proofs.Memory.Frame

/-!
# The items of a stack

A stack is three cursors and the cells of memory between two of them. `Carries` says which list of
items that is, the top one first, and each operation of a stack is an operation on that list. All
that is asked of memory is that the stack `Stands` in it.
-/

namespace ThreadedForth

open List Memory

variable {after : Memory} {value : Cell}

/-- The items stand in memory from `top` on. -/
def HoldsItems (memory : Memory) (top : Nat) (items : List Cell) : Prop :=
  ∀ (place : Nat) (value : Cell), items[place]? = some value → memory.cellAt (top + 4 * place) = value

namespace HoldsItems

variable {memory : Memory} {top : Nat} {value : Cell} {items : List Cell}

theorem frame {area : Nat → Prop} (hholds : HoldsItems memory top items)
    (hsame : Memory.SameOutside area memory after)
    (hout : ∀ addr, top ≤ addr → addr < top + 4 * items.length → ¬ area addr) :
    HoldsItems after top items := by
  intro place value hplace
  have hlen := (List.getElem?_eq_some_iff.1 hplace).1
  rw [hsame.cellAt fun other hlow hhigh => hout other (by omega) (by omega)]
  exact hholds place value hplace

theorem cons (hvalue : memory.cellAt top = value) (hholds : HoldsItems memory (top + 4) items) :
    HoldsItems memory top (value :: items) := by
  intro place other hplace
  cases place with
  | zero =>
    rw [getElem?_cons_zero] at hplace
    cases hplace
    exact hvalue
  | succ place =>
    rw [getElem?_cons_succ] at hplace
    rw [← hholds place other hplace]
    congr 1
    omega

theorem head (hholds : HoldsItems memory top (value :: items)) : memory.cellAt top = value :=
  hholds 0 value getElem?_cons_zero

theorem tail (hholds : HoldsItems memory top (value :: items)) : HoldsItems memory (top + 4) items := by
  intro place other hplace
  rw [← hholds (place + 1) other (by rwa [getElem?_cons_succ])]
  congr 1
  omega

theorem of_append {more : List Cell} (hholds : HoldsItems memory top (items ++ more)) :
    HoldsItems memory (top + 4 * items.length) more := by
  intro place value hplace
  rw [← hholds (items.length + place) value (by rw [getElem?_append_right (by omega), Nat.add_sub_cancel_left, hplace])]
  congr 1
  omega

theorem exists_items (memory : Memory) (top count : Nat) :
    ∃ items : List Cell, items.length = count ∧ HoldsItems memory top items := by
  refine ⟨(List.range count).map fun place => memory.cellAt (top + 4 * place), by simp, ?_⟩
  intro place value hplace
  rw [getElem?_map] at hplace
  obtain ⟨index, hindex, rfl⟩ := Option.map_eq_some_iff.1 hplace
  obtain ⟨hlt, hindex⟩ := List.getElem?_eq_some_iff.1 hindex
  rw [List.getElem_range] at hindex
  rw [hindex]

end HoldsItems

/-- The stack is this list of items. -/
structure Stack.Carries (stack : Stack) (memory : Memory) (items : List Cell) : Prop where
  depth_eq : stack.top + 4 * items.length = stack.base
  held : HoldsItems memory stack.top items

namespace Stack

/-- The stack's cells lie inside memory and end at a cell boundary. -/
structure Stands (stack : Stack) (memory : Memory) : Prop where
  aligned : stack.base % 4 = 0
  base_le : stack.base ≤ memory.size

variable {stack : Stack} {memory : Memory} {items : List Cell}

theorem Stands.same (hstands : stack.Stands memory) (hsize : after.size = memory.size) :
    stack.Stands after :=
  ⟨hstands.aligned, hsize ▸ hstands.base_le⟩

theorem Stands.withTop (hstands : stack.Stands memory) (top : Nat) : ({ stack with top } : Stack).Stands memory :=
  ⟨hstands.aligned, hstands.base_le⟩

namespace Carries

theorem frame {area : Nat → Prop} (hcar : stack.Carries memory items)
    (hsame : Memory.SameOutside area memory after)
    (hout : ∀ addr, stack.top ≤ addr → addr < stack.base → ¬ area addr) : stack.Carries after items := by
  have hdepth := hcar.depth_eq
  exact ⟨hdepth, hcar.held.frame hsame fun addr hlow hhigh => hout addr hlow (by omega)⟩

theorem length_eq (hcar : stack.Carries memory items) : stack.depth = items.length := by
  have hdepth := hcar.depth_eq
  rw [depth]
  omega

theorem unique {others : List Cell} (hcar : stack.Carries memory items) (hothers : stack.Carries memory others) :
    items = others := by
  have hdepth := hcar.depth_eq
  have hlen : items.length = others.length := by
    have hother := hothers.depth_eq
    omega
  refine ext_getElem hlen fun place hplace hother => ?_
  rw [← hcar.held place _ (getElem?_eq_getElem hplace), hothers.held place _ (getElem?_eq_getElem hother)]

theorem top_lt (hcar : stack.Carries memory (value :: items)) : stack.top < stack.base := by
  have hdepth := hcar.depth_eq
  rw [length_cons] at hdepth
  omega

theorem base_le_top (hcar : stack.Carries memory []) : stack.base ≤ stack.top :=
  Nat.le_of_eq hcar.depth_eq.symm

/-! ### Pushing and popping -/

theorem push_eq (hcar : stack.Carries memory items) (hstands : stack.Stands memory) (value : Cell)
    (hroom : stack.limit + 4 ≤ stack.top) :
    stack.push value memory =
      .ok { stack with top := stack.top - 4 } (memory.setCell (stack.top - 4) value) := by
  have hdepth := hcar.depth_eq
  have halign := hstands.aligned
  have hbase := hstands.base_le
  rw [Stack.push, if_neg (by omega)]
  exact bind_of_ok (writeCell_eq_ok value (by omega) (by omega))

theorem pushed (hcar : stack.Carries memory items) (hstands : stack.Stands memory) (value : Cell)
    (hroom : stack.limit + 4 ≤ stack.top) :
    ({ stack with top := stack.top - 4 } : Stack).Carries (memory.setCell (stack.top - 4) value)
      (value :: items) := by
  have hbase := hstands.base_le
  have hdepth := hcar.depth_eq
  have htop : stack.top - 4 + 4 = stack.top := by omega
  refine ⟨by simp only [length_cons]; omega, .cons ?_ ?_⟩
  · exact cellAt_setCell memory _ value (by omega)
  · rw [htop]
    refine hcar.held.frame (sameOutside_setCell memory _ value) ?_
    rintro addr hlow hhigh ⟨_, hfar⟩
    simp only at hfar
    omega

theorem pop_eq (hcar : stack.Carries memory (value :: items)) (hstands : stack.Stands memory) :
    stack.pop memory = .ok (value, { stack with top := stack.top + 4 }) := by
  have hdepth := hcar.depth_eq
  have halign := hstands.aligned
  have hbase := hstands.base_le
  have htop := hcar.top_lt
  rw [Stack.pop, if_neg (by omega), readCell_eq_ok (by omega) (by omega), hcar.held.head]
  rfl

theorem pop (hcar : stack.Carries memory (value :: items)) :
    ({ stack with top := stack.top + 4 } : Stack).Carries memory items := by
  have hdepth := hcar.depth_eq
  rw [length_cons] at hdepth
  exact ⟨by simp only; omega, hcar.held.tail⟩

/-! ### Looking and replacing -/

section

variable (hcar : stack.Carries memory items)

include hcar

theorem check_kind_eq (needed : Nat) :
    stack.check needed =
      if items.length < needed then .error (.stackUnderflow stack.kind) else .ok () := by
  rw [check, hcar.length_eq]

theorem peek_kind_eq (hstands : stack.Stands memory) (place : Nat) :
    stack.peek memory place =
      match items[place]? with
      | some value => .ok value
      | none => .error (.stackUnderflow stack.kind) := by
  have halign := hstands.aligned
  have hbase := hstands.base_le
  have hdepth := hcar.depth_eq
  rw [peek, hcar.check_kind_eq]
  by_cases hplace : place < items.length
  · have hvalue := hcar.held place items[place] (getElem?_eq_getElem hplace)
    rw [if_neg (by omega), getElem?_eq_getElem hplace, Nat.mul_comm place 4]
    change memory.readCell (stack.top + 4 * place) = _
    rw [readCell_eq_ok (by omega) (by omega), hvalue]
  · rw [if_pos (by omega), getElem?_eq_none (by omega)]
    rfl

theorem contents_eq (hstands : stack.Stands memory) : stack.contents memory = .ok items.reverse := by
  have hpeek (place : Nat) (hplace : place < items.length) : stack.peek memory place = .ok items[place] := by
    rw [hcar.peek_kind_eq hstands, getElem?_eq_getElem hplace]
  -- the items are read from the bottom, so the induction is on how many of them are on top
  have hread (count : Nat) (hcount : count ≤ items.length) :
      (List.range count).reverse.mapM (stack.peek memory) = .ok (items.take count).reverse := by
    induction count with
    | zero => rfl
    | succ count ih =>
      rw [range_succ, reverse_append, reverse_singleton, singleton_append, mapM_cons,
        hpeek count (by omega), ih (by omega), take_succ_eq_append_getElem (by omega), reverse_append,
        reverse_singleton, singleton_append]
      rfl
  rw [contents, hcar.length_eq, hread items.length (Nat.le_refl _), take_length]

end

variable {place : Nat}

theorem poke_eq (hcar : stack.Carries memory items) (hstands : stack.Stands memory)
    (hplace : place < items.length) (value : Cell) :
    stack.poke place value memory = .ok () (memory.setCell (stack.top + 4 * place) value) := by
  have halign := hstands.aligned
  have hbase := hstands.base_le
  have hdepth := hcar.depth_eq
  rw [Stack.poke, hcar.check_kind_eq, if_neg (by omega), Nat.mul_comm place 4]
  exact writeCell_eq_ok value (by omega) (by omega)

theorem poked (hcar : stack.Carries memory items) (hstands : stack.Stands memory)
    (hplace : place < items.length) (value : Cell) :
    stack.Carries (memory.setCell (stack.top + 4 * place) value) (items.set place value) := by
  have hbase := hstands.base_le
  have hdepth := hcar.depth_eq
  refine ⟨by rw [length_set]; exact hdepth, fun index other hindex => ?_⟩
  rw [getElem?_set] at hindex
  split at hindex
  · next heq =>
    subst heq
    cases hindex
    exact cellAt_setCell memory _ value (by omega)
  · next hne =>
    rw [cellAt_setCell_of_apart _ _ (by omega)]
    exact hcar.held index other hindex

end Carries

/-! ### Rolling -/

/-- Sinking copies each cell to the place one deeper, and leaves those further down alone. -/
theorem sink_eq_ok {top : Nat} (htop : top % 4 = 0) (count : Nat) (memory : Memory)
    (hrange : top + 4 * count + 4 ≤ memory.size) :
    ∃ after, sink top count memory = .ok () after ∧
      Memory.SameOutside (Region.mk (top + 4) (top + 4 * count + 4)).Holds memory after ∧
      ∀ place, place < count → after.cellAt (top + 4 * (place + 1)) = memory.cellAt (top + 4 * place) := by
  induction count generalizing memory with
  | zero => exact ⟨memory, rfl, .refl _ _, nofun⟩
  | succ count ih =>
    have hread : memory.readCell (top + count * 4) = .ok (memory.cellAt (top + 4 * count)) := by
      rw [Nat.mul_comm count 4]
      exact readCell_eq_ok (by omega) (by omega)
    have hwrite : writeCell (top + (count + 1) * 4) (memory.cellAt (top + 4 * count)) memory =
        .ok () (memory.setCell (top + 4 * (count + 1)) (memory.cellAt (top + 4 * count))) := by
      rw [Nat.mul_comm (count + 1) 4]
      exact writeCell_eq_ok _ (by omega) (by omega)
    have hset := sameOutside_setCell memory (top + 4 * (count + 1)) (memory.cellAt (top + 4 * count))
    obtain ⟨after, hsink, hsame, hsunk⟩ := ih
      (memory.setCell (top + 4 * (count + 1)) (memory.cellAt (top + 4 * count)))
      (by rw [size_setCell]; omega)
    refine ⟨after, ?_, ?_, fun place hplace => ?_⟩
    · simp only [sink, hread, hwrite]
      exact hsink
    · refine (hset.mono ?_).trans (hsame.mono ?_)
      all_goals
        rintro addr ⟨hlow, hhigh⟩
        simp only at hlow hhigh
        exact ⟨by simp only; omega, by simp only; omega⟩
    · by_cases hlast : place = count
      · subst hlast
        rw [hsame.cellAt, cellAt_setCell _ _ _ (by omega)]
        rintro other hlow _ ⟨_, hfar⟩
        simp only at hfar
        omega
      · rw [hsunk place (by omega), cellAt_setCell_of_apart _ _ (by omega)]

theorem roll_zero (stack : Stack) (memory : Memory) : stack.roll 0 memory = .ok () memory :=
  if_pos rfl

/-- Rolling takes an item out and puts it on top. -/
theorem Carries.rolled {place : Nat} (hcar : stack.Carries memory items)
    (hstands : stack.Stands memory) (hplace : place ≠ 0) (hvalue : items[place]? = some value) :
    ∃ after, stack.roll place memory = .ok () after ∧
      Memory.SameOutside (Region.mk stack.top (stack.top + 4 * place + 4)).Holds memory after ∧
      stack.Carries after (value :: items.eraseIdx place) := by
  have halign := hstands.aligned
  have hbase := hstands.base_le
  have hdepth := hcar.depth_eq
  have htop : stack.top % 4 = 0 := by omega
  have hlen := (List.getElem?_eq_some_iff.1 hvalue).1
  have hpeek : stack.peek memory place = .ok value := by rw [hcar.peek_kind_eq hstands, hvalue]
  obtain ⟨sunk, hsink, hsame, hsunk⟩ := sink_eq_ok htop place memory (by omega)
  have hsunkSize : sunk.size = memory.size := hsame.size
  have hset := sameOutside_setCell sunk stack.top value
  refine ⟨sunk.setCell stack.top value, ?_, ?_, ?_, ?_⟩
  · rw [Stack.roll, if_neg hplace, hpeek]
    exact (bind_of_ok hsink).trans (writeCell_eq_ok value (by omega) htop)
  · refine (hsame.mono ?_).trans (hset.mono ?_)
    all_goals
      rintro addr ⟨hlow, hhigh⟩
      simp only at hlow hhigh
      exact ⟨by simp only; omega, by simp only; omega⟩
  · rw [length_cons, length_eraseIdx, if_pos hlen]
    omega
  · refine .cons (cellAt_setCell _ _ _ (by omega)) fun index other hindex => ?_
    have hbelow : stack.top + 4 + 4 * index = stack.top + 4 * (index + 1) := by omega
    rw [hbelow, cellAt_setCell_of_apart _ _ (by omega)]
    rw [getElem?_eraseIdx] at hindex
    split at hindex
    · next hlow =>
      rw [hsunk index hlow]
      exact hcar.held index other hindex
    · next hhigh =>
      rw [hsame.cellAt]
      · exact hcar.held (index + 1) other hindex
      · rintro addr hfrom _ ⟨_, hto⟩
        simp only at hto
        omega

end Stack

end ThreadedForth
