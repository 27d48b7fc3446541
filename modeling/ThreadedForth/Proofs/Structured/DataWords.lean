
import ThreadedForth.Proofs.Structured.Thread

/-!
# Data words

A data word is a few pushes and pops with checks between them. Put together they are the word's stack
effect: what a word takes leaves room for what it gives back, so only the words that give more than they
take can overflow.
-/

namespace ThreadedForth

open WordM Layout Items

namespace StackM

variable {α : Type} {rest : Unit → StackM α} {items : Items}

theorem need_bind {count : Nat} (hcount : count ≤ items.length) : (need count >>= rest) items = rest () items := by
  change (need count items >>= fun part => rest part.1 part.2) = _
  rw [need, if_neg (by omega)]
  rfl

theorem bind_eq {β : Type} {first : StackM β} {next : β → StackM α} {result : Except Fault (β × Items)}
    (hfst : first items = result) : (first >>= next) items = result >>= fun part => next part.1 part.2 := by
  rw [← hfst]
  rfl

theorem push_of_room (value : Cell) (hroom : items.length < dataCells) :
    push value items = .ok ((), value :: items) := by
  rw [push, ofEffect, Items.push, if_pos hroom]
  rfl

theorem push_bind (value : Cell) (hroom : items.length < dataCells) :
    (push value >>= rest) items = rest () (value :: items) := by
  change (push value items >>= fun part => rest part.1 part.2) = _
  rw [push_of_room value hroom]
  rfl

theorem push_bind_push (first second : Cell) (items : Items) :
    (push first >>= fun _ => push second) items =
      ofEffect (fun items => do Items.push second (← Items.push first items)) items := by
  change (push first items >>= fun part => push second part.2) = _
  rw [push, ofEffect, ofEffect]
  cases Items.push first items <;> rfl

/-- Take a count, which may not be negative. -/
def length : StackM Nat := do
  let value ← pop
  if value < 0 then throw .outOfRange else return value.toNatClampNeg

variable {value : Cell}

theorem length_bind {next : Nat → StackM α} (hvalue : ¬ value < 0) :
    (length >>= next) (value :: items) = next value.toNatClampNeg items := by
  change ((if value < 0 then throw .outOfRange else return value.toNatClampNeg : StackM Nat) items >>= _) = _
  rw [if_neg hvalue]
  rfl

theorem length_bind_of_neg {next : Nat → StackM α} (hvalue : value < 0) :
    (length >>= next) (value :: items) = .error .outOfRange := by
  change ((if value < 0 then throw .outOfRange else return value.toNatClampNeg : StackM Nat) items >>= _) = _
  rw [if_pos hvalue]
  rfl

theorem pushDouble_of_room (value : DoubleCell) (hroom : items.length + 2 ≤ dataCells) :
    pushDouble value items = .ok ((), Items.double value items) := by
  rw [pushDouble, ofEffect, Items.pushDouble, if_pos hroom]
  rfl

end StackM

theorem WordM.denotes_popLength : Denotes popLength StackM.length := by
  refine denotes_pop.bind fun value base thread => ?_
  by_cases hvalue : value < 0
  · rw [if_pos hvalue, if_pos hvalue]
    exact fun m _ => ⟨m, rfl⟩
  · rw [if_neg hvalue, if_neg hvalue]
    exact Plays.pure _

namespace StackWord

theorem denotes_swapItems : Denotes swapItems (StackM.ofEffect Shuffle.swap.effect) := by
  refine ((denotes_need 2).bind fun _ => denotes_pop.bind fun a => denotes_pop.bind fun b =>
    (denotes_push a).bind fun _ => denotes_push b).congr fun items hlen => ?_
  match items, hlen with
  | [], _ => rfl
  | [_], _ => rfl
  | a :: b :: rest, hlen =>
    rw [List.length_cons, List.length_cons] at hlen
    refine (StackM.need_bind (by simp)).trans ?_
    change (StackM.push a >>= fun _ => StackM.push b) rest = _
    rw [StackM.push_bind a (by omega)]
    exact StackM.push_of_room b (by rw [List.length_cons]; omega)

theorem denotes_copyOver : Denotes copyOver (StackM.ofEffect Shuffle.over_.effect) := by
  refine ((denotes_top 1).bind denotes_push).congr fun items _ => ?_
  match items with
  | [] => rfl
  | [_] => rfl
  | b :: a :: rest => rfl

theorem denotes_copyPair (place : Nat) :
    Denotes (copyPair place) (do
      let b ← StackM.top place
      let a ← StackM.top (place + 1)
      StackM.push a
      StackM.push b) :=
  (denotes_top place).bind fun b => (denotes_top (place + 1)).bind fun a =>
    (denotes_push a).bind fun _ => denotes_push b

end StackWord

theorem Shuffle.denotes (word : Shuffle) : Denotes word.word.perform (StackM.ofEffect word.effect) := by
  cases word with
  | dup =>
    refine ((denotes_top 0).bind denotes_push).congr fun items _ => ?_
    cases items <;> rfl
  | drop =>
    refine (denotes_discard denotes_pop).congr fun items _ => ?_
    cases items <;> rfl
  | swap => exact StackWord.denotes_swapItems
  | over_ => exact StackWord.denotes_copyOver
  | rot =>
    refine (denotes_rollUp 2).congr fun items _ => ?_
    match items with
    | [] | [_] | [_, _] | c :: b :: a :: rest => rfl
  | minusRot =>
    refine ((denotes_rollUp 2).bind fun _ => denotes_rollUp 2).congr fun items _ => ?_
    match items with
    | [] | [_] | [_, _] | c :: b :: a :: rest => rfl
  | nip =>
    refine (StackWord.denotes_swapItems.bind fun _ => denotes_discard denotes_pop).congr fun items _ => ?_
    match items with
    | [] | [_] | b :: a :: rest => rfl
  | tuck =>
    refine (StackWord.denotes_swapItems.bind fun _ => StackWord.denotes_copyOver).congr fun items _ => ?_
    match items with
    | [] | [_] | b :: a :: rest => rfl
  | questionDup =>
    have hbr (value : Cell) : Denotes (if value ≠ 0 then push value else pure ())
        (if value = 0 then pure () else StackM.push value) := by
      by_cases hzero : value = 0
      · rw [if_neg (by simpa using hzero), if_pos hzero]
        exact Denotes.pure ()
      · rw [if_pos hzero, if_neg hzero]
        exact denotes_push value
    refine ((denotes_top 0).bind hbr).congr fun items _ => ?_
    match items with
    | [] => rfl
    | a :: rest =>
      change (if a = 0 then pure () else StackM.push a) (a :: rest) = _
      rw [StackM.ofEffect, effect]
      split <;> rfl
  | pick =>
    refine (denotes_popLength.bind fun n => (denotes_top n).bind denotes_push).congr fun items hlen => ?_
    match items, hlen with
    | [], _ => rfl
    | n :: rest, hlen =>
      have hroom : rest.length < dataCells := hlen
      rw [StackM.ofEffect, effect, picked]
      by_cases hn : n < 0
      · rw [if_pos hn, StackM.length_bind_of_neg hn]
        rfl
      · rw [if_neg hn, StackM.length_bind hn]
        change (StackM.top n.toNatClampNeg rest >>= fun part => StackM.push part.1 part.2) = _
        rw [StackM.top]
        cases hvalue : rest[n.toNatClampNeg]? with
        | none => rfl
        | some value => exact StackM.push_of_room value hroom
  | roll =>
    refine (denotes_popLength.bind denotes_rollUp).congr fun items _ => ?_
    match items with
    | [] => rfl
    | n :: rest =>
      rw [StackM.ofEffect, effect, rolled]
      by_cases hn : n < 0
      · rw [if_pos hn, StackM.length_bind_of_neg hn]
        rfl
      · rw [if_neg hn, StackM.length_bind hn, StackM.rollUp]
        split
        · rfl
        · cases rest[n.toNatClampNeg]? <;> rfl
  | depth =>
    exact denotes_depth.bind fun n => denotes_push (Cell.ofNat n)
  | twoDup =>
    refine (StackWord.denotes_copyPair 0).congr fun items _ => ?_
    match items with
    | [] | [_] => rfl
    | b :: a :: rest =>
      exact StackM.push_bind_push a b (b :: a :: rest)
  | twoDrop =>
    refine ((denotes_need 2).bind fun _ => (denotes_discard denotes_pop).bind fun _ =>
      denotes_discard denotes_pop).congr fun items _ => ?_
    match items with
    | [] | [_] => rfl
    | b :: a :: rest => exact StackM.need_bind (by simp)
  | twoSwap =>
    refine ((denotes_need 4).bind fun _ => (denotes_rollUp 3).bind fun _ =>
      denotes_rollUp 3).congr fun items _ => ?_
    rcases items with _ | ⟨d, _ | ⟨c, _ | ⟨b, _ | ⟨a, rest⟩⟩⟩⟩
    case cons.cons.cons.cons => exact StackM.need_bind (by simp)
    all_goals rfl
  | twoOver =>
    refine (StackWord.denotes_copyPair 2).congr fun items _ => ?_
    rcases items with _ | ⟨d, _ | ⟨c, _ | ⟨b, _ | ⟨a, rest⟩⟩⟩⟩
    case cons.cons.cons.cons => exact StackM.push_bind_push a b (d :: c :: b :: a :: rest)
    all_goals rfl
  | clear => exact denotes_clear

namespace CellWord

theorem denotes_unary (f : Cell → Cell) : Denotes (unary f) (StackM.ofEffect (Items.unary f)) := by
  refine (denotes_pop.bind fun a => denotes_push (f a)).congr fun items hlen => ?_
  match items, hlen with
  | [], _ => rfl
  | a :: rest, hlen => exact StackM.push_of_room (f a) hlen

theorem denotes_binary (f : Cell → Cell → Cell) : Denotes (binary f) (StackM.ofEffect (Items.binary f)) := by
  refine ((denotes_need 2).bind fun _ => denotes_pop.bind fun b => denotes_pop.bind fun a =>
    denotes_push (f a b)).congr fun items hlen => ?_
  match items, hlen with
  | [], _ | [_], _ => rfl
  | b :: a :: rest, hlen =>
    refine (StackM.need_bind (by simp)).trans ?_
    exact StackM.push_of_room (f a b) (Nat.lt_of_succ_lt hlen)

section Division

variable {next : Cell × Cell → WordM Unit} {after : Cell → Cell → StackM Unit}
  {leave : Cell → Cell → List Cell}
  (hnext : ∀ remainder quotient, Denotes (next (remainder, quotient)) (after remainder quotient))
  (hleave : ∀ remainder quotient (items : Items), items.length + 2 ≤ dataCells →
    after remainder quotient items = .ok ((), leave remainder quotient ++ items))

include hnext hleave

theorem denotes_divide : Denotes (divide >>= next) (StackM.ofEffect (Items.divide leave)) := by
  have hdivide := (denotes_need 2).bind fun _ => denotes_pop.bind fun d => denotes_pop.bind fun n =>
    Denotes.ask (Division.toCells (Division.floored n.toInt d.toInt))
  refine (hdivide.bind fun pair => hnext pair.1 pair.2).congr fun items hlen => ?_
  match items, hlen with
  | [], _ | [_], _ => rfl
  | d :: n :: rest, hlen =>
    refine (StackM.bind_eq (StackM.need_bind (by simp))).trans ?_
    rw [StackM.ofEffect, Items.divide]
    change ((Division.toCells (Division.floored n.toInt d.toInt)).map _ >>= _) = _
    cases Division.toCells (Division.floored n.toInt d.toInt) with
    | error fault => rfl
    | ok pair => exact hleave pair.1 pair.2 rest hlen

theorem denotes_scale : Denotes (scale >>= next) (StackM.ofEffect (Items.scale leave)) := by
  have hscale := (denotes_need 3).bind fun _ => denotes_pop.bind fun d => denotes_pop.bind fun b =>
    denotes_pop.bind fun a => Denotes.ask (Division.toCells (Division.floored (a.toInt * b.toInt) d.toInt))
  refine (hscale.bind fun pair => hnext pair.1 pair.2).congr fun items hlen => ?_
  match items, hlen with
  | [], _ | [_], _ | [_, _], _ => rfl
  | d :: b :: a :: rest, hlen =>
    refine (StackM.bind_eq (StackM.need_bind (by simp))).trans ?_
    rw [StackM.ofEffect, Items.scale]
    change ((Division.toCells (Division.floored (a.toInt * b.toInt) d.toInt)).map _ >>= _) = _
    cases Division.toCells (Division.floored (a.toInt * b.toInt) d.toInt) with
    | error fault => rfl
    | ok pair => exact hleave pair.1 pair.2 rest (Nat.le_of_succ_le hlen)

end Division

theorem denotes_within : Denotes (perform .within) (StackM.ofEffect Items.within) := by
  refine ((denotes_need 3).bind fun _ => denotes_pop.bind fun high => denotes_pop.bind fun low =>
    denotes_pop.bind fun n => denotes_push (Cell.ofBool (isWithin n low high))).congr fun items hlen => ?_
  match items, hlen with
  | [], _ | [_], _ | [_, _], _ => rfl
  | high :: low :: n :: rest, hlen =>
    refine (StackM.need_bind (by simp)).trans ?_
    exact StackM.push_of_room _ (Nat.lt_of_succ_lt (Nat.lt_of_succ_lt hlen))

variable {items : Items}

theorem leave_one (value : Cell) (hroom : items.length + 2 ≤ dataCells) :
    StackM.push value items = .ok ((), [value] ++ items) :=
  StackM.push_of_room value (Nat.lt_of_succ_lt hroom)

theorem leave_two (first second : Cell) (hroom : items.length + 2 ≤ dataCells) :
    (StackM.push first >>= fun _ => StackM.push second) items = .ok ((), [second, first] ++ items) := by
  rw [StackM.push_bind first (Nat.lt_of_succ_lt hroom)]
  exact StackM.push_of_room second hroom

theorem denotes (word : CellWord) : Denotes word.perform (StackM.ofEffect word.effect) := by
  cases word with
  | slash =>
    exact denotes_divide (fun _ quotient => denotes_push quotient) fun _ quotient _ => leave_one quotient
  | mod =>
    exact denotes_divide (fun remainder _ => denotes_push remainder) fun remainder _ _ => leave_one remainder
  | slashMod =>
    exact denotes_divide
      (fun remainder quotient => (denotes_push remainder).bind fun _ => denotes_push quotient)
      fun remainder quotient _ => leave_two remainder quotient
  | starSlash =>
    exact denotes_scale (fun _ quotient => denotes_push quotient) fun _ quotient _ => leave_one quotient
  | starSlashMod =>
    exact denotes_scale
      (fun remainder quotient => (denotes_push remainder).bind fun _ => denotes_push quotient)
      fun remainder quotient _ => leave_two remainder quotient
  | within => exact denotes_within
  | trueFlag => exact denotes_push _
  | falseFlag => exact denotes_push _
  | onePlus | oneMinus | negate | abs | invert | twoStar | twoSlash | zeroEqual | zeroNotEqual | zeroLess
  | zeroGreater => exact denotes_unary _
  | plus | minus | star | min | max | bitAnd | bitOr | bitXor | shiftLeft | shiftRight | equal | notEqual
  | less | greater | unsignedLess => exact denotes_binary _

end CellWord

namespace DoubleWord

theorem denotes_multiply (f : Cell → Cell → DoubleCell) :
    Denotes (multiply f) (StackM.ofEffect (Items.multiply f)) := by
  refine ((denotes_need 2).bind fun _ => denotes_pop.bind fun b => denotes_pop.bind fun a =>
    denotes_pushDouble (f a b)).congr fun items hlen => ?_
  match items, hlen with
  | [], _ | [_], _ => rfl
  | b :: a :: rest, hlen =>
    refine (StackM.need_bind (by simp)).trans ?_
    exact StackM.pushDouble_of_room (f a b) hlen

theorem denotes_onDouble (after : DoubleCell → StackM Unit) {next : DoubleCell → WordM Unit}
    {effect : DoubleCell → Items → Except Fault Items} (hnext : ∀ a, Denotes (next a) (after a))
    (heffect : ∀ a (items : Items), items.length + 2 ≤ dataCells →
      after a items = StackM.ofEffect (effect a) items) :
    Denotes (popDouble >>= next) (StackM.ofEffect (onDouble effect)) := by
  refine (denotes_popDouble.bind hnext).congr fun items hlen => ?_
  match items, hlen with
  | [], _ | [_], _ => rfl
  | high :: low :: rest, hlen => exact heffect _ rest hlen

theorem denotes_onDoubles (after : DoubleCell → DoubleCell → StackM Unit) {next : DoubleCell × DoubleCell → WordM Unit}
    {effect : DoubleCell → DoubleCell → Items → Except Fault Items} (hnext : ∀ a b, Denotes (next (a, b)) (after a b))
    (heffect : ∀ a b (items : Items), items.length + 2 ≤ dataCells →
      after a b items = StackM.ofEffect (effect a b) items) :
    Denotes (popDoubles >>= next) (StackM.ofEffect (onDoubles effect)) := by
  have hdoubles := (denotes_need 4).bind fun _ => denotes_popDouble.bind fun b => denotes_popDouble.bind fun a =>
    Denotes.pure (a, b)
  refine (hdoubles.bind fun pair => hnext pair.1 pair.2).congr fun items hlen => ?_
  match items, hlen with
  | [], _ | [_], _ | [_, _], _ | [_, _, _], _ => rfl
  | bHigh :: bLow :: aHigh :: aLow :: rest, hlen =>
    refine (StackM.bind_eq (StackM.need_bind (by simp))).trans ?_
    exact heffect _ _ rest (Nat.le_of_succ_le (Nat.le_of_succ_le hlen))

theorem denotes_binary (f : DoubleCell → DoubleCell → DoubleCell) :
    Denotes (binary f) (StackM.ofEffect (onDoubles fun a b rest => .ok (Items.double (f a b) rest))) :=
  denotes_onDoubles (fun a b => StackM.pushDouble (f a b)) (fun a b => denotes_pushDouble (f a b))
    fun a b _ => StackM.pushDouble_of_room (f a b)

theorem denotes_compare (relation : DoubleCell → DoubleCell → Bool) :
    Denotes (compare relation)
      (StackM.ofEffect (onDoubles fun a b rest => .ok (Cell.ofBool (relation a b) :: rest))) :=
  denotes_onDoubles (fun a b => StackM.push (Cell.ofBool (relation a b))) (fun _ _ => denotes_push _)
    fun _ _ _ => CellWord.leave_one _

theorem denotes_unary (f : DoubleCell → DoubleCell) :
    Denotes (popDouble >>= fun a => pushDouble (f a))
      (StackM.ofEffect (onDouble fun a rest => .ok (Items.double (f a) rest))) :=
  denotes_onDouble (fun a => StackM.pushDouble (f a)) (fun a => denotes_pushDouble (f a))
    fun a _ => StackM.pushDouble_of_room (f a)

theorem denotes_narrow (f : DoubleCell → Cell) :
    Denotes (popDouble >>= fun a => push (f a))
      (StackM.ofEffect (onDouble fun a rest => .ok (f a :: rest))) :=
  denotes_onDouble (fun a => StackM.push (f a)) (fun a => denotes_push (f a)) fun a _ =>
    CellWord.leave_one (f a)

theorem denotes_divide (f : DoubleCell → Cell → Except Fault (Cell × Cell)) :
    Denotes (divide f) (StackM.ofEffect (divideDouble f)) := by
  refine ((denotes_need 3).bind fun _ => denotes_pop.bind fun d => denotes_popDouble.bind fun n =>
    (Denotes.ask (f n d)).bind fun pair =>
      (denotes_push pair.1).bind fun _ => denotes_push pair.2).congr fun items hlen => ?_
  match items, hlen with
  | [], _ | [_], _ | [_, _], _ => rfl
  | d :: high :: low :: rest, hlen =>
    refine (StackM.need_bind (by simp)).trans ?_
    rw [StackM.ofEffect, divideDouble]
    change ((f (DoubleCell.join low high) d).map _ >>= _) = _
    cases f (DoubleCell.join low high) d with
    | error fault => rfl
    | ok pair => exact CellWord.leave_two pair.1 pair.2 (Nat.le_of_succ_le hlen)

theorem denotes_mPlus : Denotes (perform .mPlus) (StackM.ofEffect addToDouble) := by
  refine ((denotes_need 3).bind fun _ => denotes_pop.bind fun n => denotes_popDouble.bind fun d =>
    denotes_pushDouble (d + n.toInt64)).congr fun items hlen => ?_
  match items, hlen with
  | [], _ | [_], _ | [_, _], _ => rfl
  | n :: high :: low :: rest, hlen =>
    refine (StackM.need_bind (by simp)).trans ?_
    exact StackM.pushDouble_of_room _ (Nat.le_of_succ_le hlen)

theorem denotes_sToD : Denotes (perform .sToD) (StackM.ofEffect extend) := by
  refine (denotes_pop.bind fun a => denotes_pushDouble a.toInt64).congr fun items _ => ?_
  cases items <;> rfl

theorem denotes (word : DoubleWord) : Denotes word.perform (StackM.ofEffect word.effect) := by
  cases word with
  | mStar | umStar => exact denotes_multiply _
  | umSlashMod | fmSlashMod | smSlashRem => exact denotes_divide _
  | dPlus => exact denotes_binary (· + ·)
  | dMinus => exact denotes_binary (· - ·)
  | dNegate => exact denotes_unary (-·)
  | dAbs => exact denotes_unary Int64.abs
  | sToD => exact denotes_sToD
  | dToS => exact denotes_narrow DoubleCell.low
  | dEqual => exact denotes_compare (· == ·)
  | dLess => exact denotes_compare fun a b => a < b
  | dZeroEqual => exact denotes_narrow fun a => Cell.ofBool (a == 0)
  | mPlus => exact denotes_mPlus

end DoubleWord

namespace DataWord

/-- The action of a data word. -/
def perform : DataWord → WordM Unit
  | shuffle word => word.word.perform
  | cell word => word.perform
  | double word => word.perform

theorem perform_prim (word : DataWord) : word.prim.perform = complete word.perform := by
  cases word <;> rfl

theorem denotes_perform (word : DataWord) : Denotes word.perform (StackM.ofEffect word.effect) := by
  cases word with
  | shuffle word => exact word.denotes
  | cell word => exact word.denotes
  | double word => exact word.denotes

theorem denotes (word : DataWord) :
    Denotes word.prim.perform (StackM.ofEffect word.effect >>= fun _ => pure none) := by
  rw [perform_prim]
  exact word.denotes_perform.bind fun _ => Denotes.pure none

end DataWord

end ThreadedForth
