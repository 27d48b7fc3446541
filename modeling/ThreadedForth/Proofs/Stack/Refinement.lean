
import ThreadedForth.Proofs.Stack.Items

/-!
# A stack is a bounded list

The operations of a stack are run side by side on the stack in its memory and on a list of items with
a capacity. On the list an operation is three things: how many items it needs, the list it leaves and
its reply. It underflows when items are missing, overflows when the list it would leave is too long,
and otherwise cannot fail. Whatever operations came before, the two sides give the same replies.
-/

namespace ThreadedForth.Stack

open DoubleCell List

/-- What a caller may ask of a stack. -/
inductive Operation where
  | push (value : Cell)
  | pop
  | peek (depth : Nat)
  | poke (depth : Nat) (value : Cell)
  | check (needed : Nat)
  | roll (depth : Nat)
  | pushDouble (value : DoubleCell)
  | popDouble
  | clear
  deriving DecidableEq, Repr

/-- What an operation that succeeds gives. -/
inductive Reply where
  | done
  | cell (value : Cell)
  | double (value : DoubleCell)
  deriving DecidableEq, Repr

/-- A stack together with the memory its items are in. -/
structure Placed where
  stack : Stack
  memory : Memory

namespace Operation

/-! ### On the stack in memory -/

/-- A step that moves the stack or stores in it. -/
def changing (step : Stack → MemoryM Stack) : EStateM Fault Placed Reply := fun placed =>
  match step placed.stack placed.memory with
  | .ok stack memory => .ok .done ⟨stack, memory⟩
  | .error fault memory => .error fault { placed with memory }

/-- A step that stores nothing. -/
def asking (question : Stack → Memory → Except Fault (Reply × Stack)) : EStateM Fault Placed Reply :=
  fun placed =>
    match question placed.stack placed.memory with
    | .ok (reply, stack) => .ok reply { placed with stack }
    | .error fault => .error fault placed

def perform : Operation → EStateM Fault Placed Reply
  | push value => changing (·.push value)
  | pop => asking fun stack memory => do
    let (value, stack) ← stack.pop memory
    return (.cell value, stack)
  | peek depth => asking fun stack memory => return (.cell (← stack.peek memory depth), stack)
  | poke depth value => changing fun stack => do
    stack.poke depth value
    return stack
  | check needed => asking fun stack _ => do
    stack.check needed
    return (.done, stack)
  | roll depth => changing fun stack => do
    stack.roll depth
    return stack
  | pushDouble value => changing (·.pushDouble value)
  | popDouble => asking fun stack memory => do
    let (value, stack) ← stack.popDouble memory
    return (.double value, stack)
  | clear => asking fun stack _ => return (.done, stack.clear)

/-! ### On a list, the top item first -/

/-- How many items must be there. -/
def needed : Operation → Nat
  | pop => 1
  | peek depth => depth + 1
  | poke depth _ => depth + 1
  | check needed => needed
  | roll depth => if depth = 0 then 0 else depth + 1
  | popDouble => 2
  | push _ | pushDouble _ | clear => 0

/-- The items afterwards. -/
def after (items : List Cell) : Operation → List Cell
  | push value => value :: items
  | pop => items.drop 1
  | poke depth value => items.set depth value
  | roll depth => items[depth]?.toList ++ items.eraseIdx depth
  | pushDouble value => DoubleCell.high value :: DoubleCell.low value :: items
  | popDouble => items.drop 2
  | clear => []
  | peek _ | check _ => items

def reply (items : List Cell) : Operation → Reply
  | pop => .cell (items.getD 0 0)
  | peek depth => .cell (items.getD depth 0)
  | popDouble => .double (join (items.getD 1 0) (items.getD 0 0))
  | push _ | poke .. | check _ | roll _ | pushDouble _ | clear => .done

/-- The operation on a list of at most `capacity` items. -/
def model (kind : StackKind) (capacity : Nat) (operation : Operation) :
    EStateM Fault (List Cell) Reply := fun items =>
  if items.length < operation.needed then .error (.stackUnderflow kind) items
  else if capacity < (operation.after items).length then .error (.stackOverflow kind) items
  else .ok (operation.reply items) (operation.after items)

/-! ### Histories -/

/-- The replies to a list of operations, and the state they leave. An operation that fails does not
end the history. -/
def history {σ : Type} (perform : Operation → EStateM Fault σ Reply) :
    List Operation → σ → List (Except Fault Reply) × σ
  | [], state => ([], state)
  | operation :: rest, state =>
    match perform operation state with
    | .ok reply state =>
      let (replies, last) := history perform rest state
      (.ok reply :: replies, last)
    | .error fault state =>
      let (replies, last) := history perform rest state
      (.error fault :: replies, last)

end Operation

/-! ### One operation -/

/-- The stack fills its region from `start` on and is this list of items. -/
structure Refines (kind : StackKind) (start cells : Nat) (placed : Placed) (items : List Cell) : Prop where
  kind_eq : placed.stack.kind = kind
  limit_eq : placed.stack.limit = start
  base_eq : placed.stack.base = start + cells * 4
  stands : placed.stack.Stands placed.memory
  carries : placed.stack.Carries placed.memory items
  length_le : items.length ≤ cells

/-- The bytes a stack may store in. -/
def region (start cells : Nat) : Region := ⟨start, start + cells * 4⟩

namespace Refines

variable {kind : StackKind} {start cells : Nat} {placed : Placed} {items : List Cell}

theorem ofNew (kind : StackKind) {memory : Memory} (haligned : start % 4 = 0)
    (hrange : start + cells * 4 ≤ memory.size) : Refines kind start cells ⟨new kind start cells, memory⟩ [] where
  kind_eq := rfl
  limit_eq := rfl
  base_eq := rfl
  stands := ⟨by simp only [new]; omega, hrange⟩
  carries := ⟨rfl, nofun⟩
  length_le := Nat.zero_le cells

theorem top_eq (href : Refines kind start cells placed items) :
    placed.stack.top + 4 * items.length = start + cells * 4 :=
  href.carries.depth_eq.trans href.base_eq

theorem contents_eq (href : Refines kind start cells placed items) :
    placed.stack.contents placed.memory = .ok items.reverse :=
  href.carries.contents_eq href.stands

theorem step (href : Refines kind start cells placed items) {top : Nat} {memory : Memory} {left : List Cell}
    (hsame : Memory.SameOutside (region start cells).Holds placed.memory memory)
    (hcar : ({ placed.stack with top } : Stack).Carries memory left) (hlen : left.length ≤ cells) :
    Refines kind start cells ⟨{ placed.stack with top }, memory⟩ left where
  kind_eq := href.kind_eq
  limit_eq := href.limit_eq
  base_eq := href.base_eq
  stands := (href.stands.same hsame.size).withTop top
  carries := hcar
  length_le := hlen

theorem sameOutside_setCell {addr : Nat} (hlow : start ≤ addr) (hhigh : addr + 4 ≤ start + cells * 4)
    (memory : Memory) (value : Cell) :
    Memory.SameOutside (region start cells).Holds memory (memory.setCell addr value) := by
  refine (Memory.sameOutside_setCell memory addr value).mono ?_
  rintro other ⟨hfrom, hto⟩
  exact ⟨Nat.le_trans hlow hfrom, Nat.lt_of_lt_of_le hto hhigh⟩

theorem check_eq (href : Refines kind start cells placed items) (needed : Nat) :
    placed.stack.check needed =
      if items.length < needed then .error (.stackUnderflow kind) else .ok () := by
  rw [href.carries.check_kind_eq, href.kind_eq]

theorem push_eq (href : Refines kind start cells placed items) (value : Cell) (hroom : items.length < cells) :
    ∃ stack memory, placed.stack.push value placed.memory = .ok stack memory ∧
      Memory.SameOutside (region start cells).Holds placed.memory memory ∧
      Refines kind start cells ⟨stack, memory⟩ (value :: items) := by
  have htop := href.top_eq
  have hlimit := href.limit_eq
  have hlow : start ≤ placed.stack.top - 4 := by omega
  have hsame := sameOutside_setCell hlow (by omega : _ ≤ start + cells * 4) placed.memory value
  exact ⟨_, _, href.carries.push_eq href.stands value (by omega), hsame,
    href.step hsame (href.carries.pushed href.stands value (by omega)) hroom⟩

theorem pop_eq {value : Cell} (href : Refines kind start cells placed (value :: items)) :
    ∃ stack, placed.stack.pop placed.memory = .ok (value, stack) ∧
      Refines kind start cells { placed with stack } items :=
  ⟨_, href.carries.pop_eq href.stands,
    href.step (.refl _ _) href.carries.pop (Nat.le_of_succ_le href.length_le)⟩

end Refines

/-- What an operation does in memory is what it does to the list. One that fails changes nothing. -/
def Matches (kind : StackKind) (start cells : Nat) (placed : Placed) (items : List Cell) :
    EStateM.Result Fault Placed Reply → EStateM.Result Fault (List Cell) Reply → Prop
  | .ok reply next, .ok expected left =>
    reply = expected ∧ Memory.SameOutside (region start cells).Holds placed.memory next.memory ∧
      Refines kind start cells next left
  | .error fault next, .error expected left => fault = expected ∧ next = placed ∧ left = items
  | _, _ => False

namespace Operation

variable {kind : StackKind} {start cells : Nat} {placed : Placed} {items : List Cell}

variable {operation : Operation}

theorem model_of_missing (hmissing : items.length < operation.needed) :
    operation.model kind cells items = .error (.stackUnderflow kind) items :=
  if_pos hmissing

theorem model_of_room (hneeded : operation.needed ≤ items.length) (hroom : (operation.after items).length ≤ cells) :
    operation.model kind cells items = .ok (operation.reply items) (operation.after items) := by
  rw [model, if_neg (Nat.not_lt.2 hneeded), if_neg (Nat.not_lt.2 hroom)]

theorem model_of_full (hneeded : operation.needed ≤ items.length) (hfull : cells < (operation.after items).length) :
    operation.model kind cells items = .error (.stackOverflow kind) items := by
  rw [model, if_neg (Nat.not_lt.2 hneeded), if_pos hfull]

section

variable (href : Refines kind start cells placed items)

include href

theorem matches_push (value : Cell) :
    Matches kind start cells placed items ((push value).perform placed) ((push value).model kind cells items) := by
  by_cases hroom : items.length < cells
  · obtain ⟨stack, memory, hpush, hsame, hnext⟩ := href.push_eq value hroom
    rw [model_of_room (Nat.zero_le _) (by exact hroom), perform, changing, hpush]
    exact ⟨rfl, hsame, hnext⟩
  · have htop := href.top_eq
    have hlimit := href.limit_eq
    have hpush : placed.stack.push value placed.memory = .error (.stackOverflow kind) placed.memory := by
      rw [Stack.push, if_pos (by omega), href.kind_eq]
      rfl
    rw [model_of_full (Nat.zero_le _) (by simp only [after, length_cons]; omega), perform, changing, hpush]
    exact ⟨rfl, rfl, rfl⟩

theorem matches_pushDouble (value : DoubleCell) :
    Matches kind start cells placed items ((pushDouble value).perform placed)
      ((pushDouble value).model kind cells items) := by
  have htop := href.top_eq
  have hlimit := href.limit_eq
  by_cases hroom : items.length + 2 ≤ cells
  · obtain ⟨stack, memory, hlow, hsame, hmid⟩ :=
      href.push_eq (DoubleCell.low value) (by omega)
    obtain ⟨last, end_, hhigh, hmore, hnext⟩ :=
      hmid.push_eq (DoubleCell.high value) (by rw [length_cons]; omega)
    have hpush : placed.stack.pushDouble value placed.memory = .ok last end_ := by
      rw [Stack.pushDouble, if_neg (by omega)]
      exact (bind_of_ok hlow).trans hhigh
    rw [model_of_room (Nat.zero_le _) (by exact hroom), perform, changing, hpush]
    exact ⟨rfl, hsame.trans hmore, hnext⟩
  · have hpush : placed.stack.pushDouble value placed.memory = .error (.stackOverflow kind) placed.memory := by
      rw [Stack.pushDouble, if_pos (by omega), href.kind_eq]
      rfl
    rw [model_of_full (Nat.zero_le _) (by simp only [after, length_cons]; omega), perform, changing, hpush]
    exact ⟨rfl, rfl, rfl⟩

theorem matches_pop : Matches kind start cells placed items (pop.perform placed) (pop.model kind cells items) := by
  cases items with
  | nil =>
    have hempty : placed.stack.pop placed.memory = .error (.stackUnderflow kind) := by
      rw [Stack.pop, if_pos href.carries.base_le_top, href.kind_eq]
    rw [model_of_missing (by exact Nat.zero_lt_one), perform, asking, hempty]
    exact ⟨rfl, rfl, rfl⟩
  | cons value items =>
    obtain ⟨stack, hpop, hnext⟩ := href.pop_eq
    rw [model_of_room (by exact Nat.succ_le_succ (Nat.zero_le _)) (by exact hnext.length_le), perform, asking, hpop]
    exact ⟨rfl, .refl _ _, hnext⟩

theorem matches_popDouble :
    Matches kind start cells placed items (popDouble.perform placed) (popDouble.model kind cells items) := by
  match items with
  | [] | [_] =>
    have hmissing : placed.stack.popDouble placed.memory = .error (.stackUnderflow kind) := by
      rw [Stack.popDouble, href.check_eq]
      rfl
    rw [model_of_missing (by simp [needed]), perform, asking, hmissing]
    exact ⟨rfl, rfl, rfl⟩
  | high :: low :: items =>
    obtain ⟨middle, hhigh, hmid⟩ := href.pop_eq
    obtain ⟨last, hlow, hnext⟩ := hmid.pop_eq
    have hpop : placed.stack.popDouble placed.memory = .ok (join low high, last) := by
      rw [Stack.popDouble, href.check_eq, if_neg (by simp), hhigh]
      change (do
        let (low, stack) ← middle.pop placed.memory
        return (join low high, stack) : Except Fault _) = _
      rw [hlow]
      rfl
    rw [model_of_room (by exact Nat.le_add_left 2 _) (by exact hnext.length_le), perform, asking, hpop]
    exact ⟨rfl, .refl _ _, hnext⟩

theorem matches_peek (depth : Nat) :
    Matches kind start cells placed items ((peek depth).perform placed) ((peek depth).model kind cells items) := by
  have hpeek := href.carries.peek_kind_eq href.stands depth
  rw [href.kind_eq] at hpeek
  by_cases hdepth : depth < items.length
  · rw [getElem?_eq_getElem hdepth] at hpeek
    rw [model_of_room (by exact hdepth) (by exact href.length_le), perform, asking, hpeek]
    refine ⟨?_, .refl _ _, href⟩
    rw [reply, getD_eq_getElem?_getD, getElem?_eq_getElem hdepth]
    rfl
  · rw [getElem?_eq_none (Nat.not_lt.1 hdepth)] at hpeek
    rw [model_of_missing (by simp only [needed]; omega), perform, asking, hpeek]
    exact ⟨rfl, rfl, rfl⟩

theorem matches_poke (depth : Nat) (value : Cell) :
    Matches kind start cells placed items ((poke depth value).perform placed)
      ((poke depth value).model kind cells items) := by
  have htop := href.top_eq
  have hlen := href.length_le
  by_cases hdepth : depth < items.length
  · have hpoke := href.carries.poke_eq href.stands hdepth value
    have hlow : start ≤ placed.stack.top + 4 * depth := by omega
    have hsame := Refines.sameOutside_setCell hlow (by omega : _ ≤ start + cells * 4) placed.memory value
    have hset : (items.set depth value).length ≤ cells := by rwa [length_set]
    rw [model_of_room (by exact hdepth) (by exact hset), perform, changing, bind_of_ok hpoke]
    exact ⟨rfl, hsame, href.step hsame (href.carries.poked href.stands hdepth value) hset⟩
  · have hpoke : placed.stack.poke depth value placed.memory = .error (.stackUnderflow kind) placed.memory := by
      rw [Stack.poke, href.check_eq, if_pos (by omega)]
    rw [model_of_missing (by simp only [needed]; omega), perform, changing, bind_of_error hpoke]
    exact ⟨rfl, rfl, rfl⟩

theorem matches_check (needed : Nat) :
    Matches kind start cells placed items ((check needed).perform placed) ((check needed).model kind cells items) := by
  have hcheck := href.check_eq needed
  by_cases hneeded : items.length < needed
  · rw [if_pos hneeded] at hcheck
    rw [model_of_missing (by exact hneeded), perform, asking, hcheck]
    exact ⟨rfl, rfl, rfl⟩
  · rw [if_neg hneeded] at hcheck
    rw [model_of_room (by exact Nat.not_lt.1 hneeded) (by exact href.length_le), perform, asking, hcheck]
    exact ⟨rfl, .refl _ _, href⟩

end

theorem after_roll_zero (items : List Cell) : (roll 0).after items = items := by
  cases items <;> rfl

section

variable (href : Refines kind start cells placed items)

include href

theorem matches_roll (depth : Nat) :
    Matches kind start cells placed items ((roll depth).perform placed) ((roll depth).model kind cells items) := by
  have htop := href.top_eq
  have hlen := href.length_le
  have hlimit := href.limit_eq
  by_cases hzero : depth = 0
  · subst hzero
    rw [model_of_room (Nat.zero_le _) (by rw [after_roll_zero]; exact hlen), after_roll_zero, perform, changing,
      bind_of_ok (placed.stack.roll_zero placed.memory)]
    exact ⟨rfl, .refl _ _, href⟩
  · have hneeded : (roll depth).needed = depth + 1 := if_neg hzero
    by_cases hdepth : depth < items.length
    · have hvalue := getElem?_eq_getElem hdepth
      obtain ⟨memory, hroll, hins, hcar⟩ := href.carries.rolled href.stands hzero hvalue
      have hafter : (roll depth).after items = items[depth] :: items.eraseIdx depth := by rw [after, hvalue]; rfl
      have hsame : Memory.SameOutside (region start cells).Holds placed.memory memory := by
        refine hins.mono ?_
        rintro addr ⟨hfrom, hto⟩
        have hbase := href.base_eq
        have hfull := href.carries.depth_eq
        exact ⟨by simp only [region] at hfrom ⊢; omega, by simp only [region] at hto ⊢; omega⟩
      have hroom : (items[depth] :: items.eraseIdx depth).length ≤ cells := by
        rw [length_cons, length_eraseIdx_of_lt hdepth]
        omega
      rw [model_of_room (by rw [hneeded]; exact hdepth) (by rw [hafter]; exact hroom), hafter, perform, changing,
        bind_of_ok hroll]
      exact ⟨rfl, hsame, href.step hsame hcar hroom⟩
    · have hnone := getElem?_eq_none (Nat.not_lt.1 hdepth)
      have hroll : placed.stack.roll depth placed.memory = .error (.stackUnderflow kind) placed.memory := by
        rw [Stack.roll, if_neg hzero, href.carries.peek_kind_eq href.stands, hnone, href.kind_eq]
      rw [model_of_missing (by rw [hneeded]; omega), perform, changing, bind_of_error hroll]
      exact ⟨rfl, rfl, rfl⟩

theorem matches_clear :
    Matches kind start cells placed items (clear.perform placed) (clear.model kind cells items) := by
  rw [model_of_room (Nat.zero_le _) (Nat.zero_le _), perform, asking]
  exact ⟨rfl, .refl _ _, href.step (.refl _ _) ⟨rfl, nofun⟩ (Nat.zero_le _)⟩

theorem perform_matches (operation : Operation) :
    Matches kind start cells placed items (operation.perform placed) (operation.model kind cells items) := by
  cases operation with
  | push value => exact matches_push href value
  | pop => exact matches_pop href
  | peek depth => exact matches_peek href depth
  | poke depth value => exact matches_poke href depth value
  | check needed => exact matches_check href needed
  | roll depth => exact matches_roll href depth
  | pushDouble value => exact matches_pushDouble href value
  | popDouble => exact matches_popDouble href
  | clear => exact matches_clear href

theorem eq_of_perform_eq_error
    {fault : Fault} {next : Placed} (herror : operation.perform placed = .error fault next) : next = placed := by
  have hmatches := perform_matches href operation
  rw [herror] at hmatches
  cases hmodel : operation.model kind cells items with
  | ok reply left =>
    rw [hmodel] at hmatches
    exact hmatches.elim
  | error expected left =>
    rw [hmodel] at hmatches
    exact hmatches.2.1

end

/-! ### All histories -/

/-- A history keeps the two sides together. -/
theorem history_matches (href : Refines kind start cells placed items) (operations : List Operation) :
    (history perform operations placed).1 = (history (model kind cells) operations items).1 ∧
      Memory.SameOutside (region start cells).Holds placed.memory (history perform operations placed).2.memory ∧
      Refines kind start cells (history perform operations placed).2
        (history (model kind cells) operations items).2 := by
  induction operations generalizing placed items with
  | nil => exact ⟨rfl, .refl _ _, href⟩
  | cons operation rest ih =>
    have hmatches := perform_matches href operation
    simp only [history]
    cases hperf : operation.perform placed with
    | ok reply next =>
      cases hmodel : operation.model kind cells items with
      | ok expected left =>
        rw [hperf, hmodel] at hmatches
        obtain ⟨rfl, hsame, hnext⟩ := hmatches
        obtain ⟨hreplies, hmore, hlast⟩ := ih hnext
        exact ⟨congrArg _ hreplies, hsame.trans hmore, hlast⟩
      | error expected left =>
        rw [hperf, hmodel] at hmatches
        exact hmatches.elim
    | error fault next =>
      cases hmodel : operation.model kind cells items with
      | ok expected left =>
        rw [hperf, hmodel] at hmatches
        exact hmatches.elim
      | error expected left =>
        rw [hperf, hmodel] at hmatches
        obtain ⟨rfl, rfl, rfl⟩ := hmatches
        obtain ⟨hreplies, hmore, hlast⟩ := ih href
        exact ⟨congrArg _ hreplies, hmore, hlast⟩

theorem popDouble_of_pushDouble (href : Refines kind start cells placed items) {value : DoubleCell}
    {reply : Reply} {pushed : Placed} (hpush : (pushDouble value).perform placed = .ok reply pushed) :
    ∃ popped, popDouble.perform pushed = .ok (.double value) popped ∧ Refines kind start cells popped items := by
  have hpushed := perform_matches href (pushDouble value)
  rw [hpush] at hpushed
  by_cases hroom : ((pushDouble value).after items).length ≤ cells
  · rw [model_of_room (Nat.zero_le _) hroom] at hpushed
    have hpopped := matches_popDouble hpushed.2.2
    rw [model_of_room (by exact Nat.le_add_left 2 _) (by exact href.length_le)] at hpopped
    cases hpop : popDouble.perform pushed with
    | error fault popped =>
      rw [hpop] at hpopped
      exact hpopped.elim
    | ok found popped =>
      rw [hpop] at hpopped
      obtain ⟨rfl, _, hlast⟩ := hpopped
      exact ⟨popped, by simp [Operation.reply, after, join_low_high], hlast⟩
  · rw [model_of_full (Nat.zero_le _) (Nat.not_le.1 hroom)] at hpushed
    exact hpushed.elim

/-- A new stack of `cells` cells at an aligned place inside memory behaves as an empty list of capacity
`cells`, for every history of operations: they give the same replies, in particular the same faults,
and the stack's contents are the items of the list. Nothing outside the stack's region is stored to, an
operation that fails changes nothing, and popping a double undoes pushing it. -/
theorem history_refines_list (kind : StackKind) (start cells : Nat) (memory : Memory) (haligned : start % 4 = 0)
    (hrange : start + cells * 4 ≤ memory.size) (operations : List Operation) :
    let (replies, placed) := history perform operations ⟨new kind start cells, memory⟩
    let (expected, items) := history (model kind cells) operations []
    replies = expected ∧
      placed.stack.contents placed.memory = .ok items.reverse ∧
      placed.stack.depth = items.length ∧ items.length ≤ cells ∧
      Memory.SameOutside (region start cells).Holds memory placed.memory ∧
      (∀ operation fault next, perform operation placed = .error fault next → next = placed) ∧
      ∀ value reply pushed, perform (.pushDouble value) placed = .ok reply pushed →
        ∃ popped, perform .popDouble pushed = .ok (.double value) popped ∧
          popped.stack.contents popped.memory = .ok items.reverse := by
  obtain ⟨hreplies, hsame, hrefines⟩ := history_matches (.ofNew kind haligned hrange) operations
  refine ⟨hreplies, hrefines.contents_eq, hrefines.carries.length_eq, hrefines.length_le, hsame, ?_, ?_⟩
  · intro operation fault next herror
    exact eq_of_perform_eq_error hrefines herror
  · intro value reply pushed hpush
    obtain ⟨popped, hpop, hlast⟩ := popDouble_of_pushDouble hrefines hpush
    exact ⟨popped, hpop, hlast.contents_eq⟩

/-- Three cells, filled past the brim, rolled and emptied past the bottom. -/
theorem history_refines_list_three :
    (4 % 4 = 0 ∧ 4 + 3 * 4 ≤ (Memory.ofSize 20).size) ∧
      (history perform [.push 1, .pushDouble (-2), .push 5, .roll 2, .roll 3, .pop, .popDouble, .roll 0, .pop]
          ⟨new .data 4 3, Memory.ofSize 20⟩).1 =
        [.ok .done, .ok .done, .error (.stackOverflow .data), .ok .done, .error (.stackUnderflow .data),
          .ok (.cell 1), .ok (.double (-2)), .ok .done, .error (.stackUnderflow .data)] := by
  refine ⟨by decide, ?_⟩
  exact (history_refines_list .data 4 3 (Memory.ofSize 20) (by decide) (by decide) _).1.trans rfl

end Operation

end ThreadedForth.Stack
