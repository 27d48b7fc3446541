
import ThreadedForth.Proofs.Structured.DataWords

/-!
# Machines with the same data stack

A data word sees nothing of a machine but its data stack. On two machines whose data stacks hold the same items it
gives the same answer or ends in the same fault, and in either case the data stacks hold the same items afterwards.
-/

namespace ThreadedForth

open WordM

variable {ε α : Type} {first second third : Machine}

/-- The data stacks of two machines hold the same items. -/
structure Twins (first second : Machine) : Prop where
  left : first.Bounded
  right : second.Bounded
  items : ∃ items, first.data.Carries first.memory items ∧ second.data.Carries second.memory items

namespace Twins

theorem refl (hb : first.Bounded) : Twins first first := by
  obtain ⟨items, hitems⟩ := hb.data.exists_carries first.memory
  exact ⟨hb, hb, items, hitems, hitems⟩

theorem symm (htwins : Twins first second) : Twins second first := by
  obtain ⟨items, hfst, hsnd⟩ := htwins.items
  exact ⟨htwins.right, htwins.left, items, hsnd, hfst⟩

theorem trans (hfst : Twins first second) (hsnd : Twins second third) : Twins first third := by
  obtain ⟨items, hleft, hmid⟩ := hfst.items
  obtain ⟨others, hother, hright⟩ := hsnd.items
  exact ⟨hfst.left, hsnd.right, items, hleft, hmid.unique hother ▸ hright⟩

theorem of_sameOutside {area : Nat → Prop} (hfst : first.Bounded) (hsnd : second.Bounded)
    (hdata : second.data = first.data) (hmem : Memory.SameOutside area first.memory second.memory)
    (harea : ∀ addr, area addr → ¬ Layout.dataRegion.Holds addr) : Twins first second := by
  obtain ⟨items, hitems⟩ := hfst.data.exists_carries first.memory
  have hlimit := hfst.data.limit_eq
  have hbase := hfst.data.base_eq
  have htop := hfst.data.limit_le
  refine ⟨hfst, hsnd, items, hitems, hdata ▸ hitems.frame hmem fun addr hlow hhigh hin => ?_⟩
  exact harea addr hin ⟨by omega, by omega⟩

theorem withIp (htwins : Twins first second) (ip : Nat) : Twins first { second with ip } :=
  ⟨htwins.left, { htwins.right with }, htwins.items⟩

end Twins

/-! ### Alike ends -/

/-- Two runs end in the same way, and leave the same items. -/
def EndAlike : EStateM.Result ε Machine α → EStateM.Result ε Machine α → Prop
  | .ok answer first, .ok other second => answer = other ∧ Twins first second
  | .error cause first, .error other second => cause = other ∧ Twins first second
  | _, _ => False

theorem EndAlike.symm {result other : EStateM.Result ε Machine α} (halike : EndAlike result other) :
    EndAlike other result := by
  cases result <;> cases other <;> simp only [EndAlike] at halike ⊢
  · exact ⟨halike.1.symm, halike.2.symm⟩
  · exact ⟨halike.1.symm, halike.2.symm⟩

theorem EndAlike.trans {result middle last : EStateM.Result ε Machine α} (hfst : EndAlike result middle)
    (hsnd : EndAlike middle last) : EndAlike result last := by
  cases result <;> cases middle <;> cases last <;> simp only [EndAlike] at hfst hsnd ⊢
  · exact ⟨hfst.1.trans hsnd.1, hfst.2.trans hsnd.2⟩
  · exact ⟨hfst.1.trans hsnd.1, hfst.2.trans hsnd.2⟩

theorem EndTogether.endAlike {result other : EStateM.Result ε Machine α} (htog : EndTogether Twins result other) :
    EndAlike result other := by
  cases result <;> cases other <;> exact htog

/-- The instruction pointer is put back after a run. -/
def putBack (ip : Nat) : EStateM.Result ε Machine α → EStateM.Result ε Machine α
  | .ok answer m => .ok answer { m with ip }
  | .error cause m => .error cause { m with ip }

theorem EndAlike.putBack {result other : EStateM.Result ε Machine α} (halike : EndAlike result other) (ip : Nat) :
    EndAlike result (putBack ip other) := by
  cases result <;> cases other
  · exact ⟨halike.1, halike.2.withIp ip⟩
  · exact halike.elim
  · exact halike.elim
  · exact ⟨halike.1, halike.2.withIp ip⟩

/-! ### Words -/

namespace Twins

theorem of_denotes {action : WordM α} {meaning : StackM α} (hdenotes : Denotes action meaning)
    (hclean : ∀ base thread m fault after, Follows base thread m → meaning thread.items = .error fault →
      action m = .error fault after → after = m) : Parallel Twins action := by
  refine ⟨fun first second htwins => ?_⟩
  obtain ⟨items, hfst, hsnd⟩ := htwins.items
  obtain ⟨returns, hret⟩ := htwins.left.returns.exists_carries first.memory
  obtain ⟨others, hothers⟩ := htwins.right.returns.exists_carries second.memory
  have hleft : Follows first ⟨first.ip, items, returns⟩ first := ⟨htwins.left, rfl, .refl _ _, hfst, hret⟩
  have hright : Follows second ⟨second.ip, items, others⟩ second := ⟨htwins.right, rfl, .refl _ _, hsnd, hothers⟩
  have hplays := hdenotes _ _ _ hleft
  have hmirror := hdenotes _ _ _ hright
  rw [StackM.onThread] at hplays hmirror
  cases hmeaning : meaning items with
  | ok part =>
    rw [hmeaning] at hplays hmirror
    obtain ⟨after, hok, hafter⟩ := hplays
    obtain ⟨other, hother, hlast⟩ := hmirror
    rw [hok, hother]
    exact ⟨rfl, hafter.bounded, hlast.bounded, part.2, hafter.items, hlast.items⟩
  | error fault =>
    rw [hmeaning] at hplays hmirror
    obtain ⟨after, herror⟩ := hplays
    obtain ⟨other, hother⟩ := hmirror
    rw [herror, hother, hclean _ _ _ _ _ hleft hmeaning herror, hclean _ _ _ _ _ hright hmeaning hother]
    exact ⟨rfl, htwins⟩

theorem of_ask {question : Machine → Except Fault α} {meaning : StackM α} (hdenotes : Denotes (ask question) meaning) :
    Parallel Twins (ask question) := by
  refine of_denotes hdenotes fun _ _ m fault after _ _ herror => ?_
  rw [ask] at herror
  split at herror <;> cases herror
  rfl

theorem of_popping {step : Stack → Memory → Except Fault (α × Stack)} {meaning : StackM α}
    (hdenotes : Denotes (popping step) meaning) : Parallel Twins (popping step) := by
  refine of_denotes hdenotes fun _ _ m fault after _ _ herror => ?_
  rw [popping] at herror
  split at herror <;> cases herror
  rfl

instance : SharesItems Twins where
  push value := by
    refine of_denotes (denotes_push value) fun base thread m fault after hfol hmeaning herror => ?_
    have hroom := hfol.data_room
    rw [StackM.push, StackM.ofEffect, Items.push] at hmeaning
    split at hmeaning
    · cases hmeaning
    · rw [push, pushing, Stack.push_of_full hfol.bounded.data m.memory value (by omega)] at herror
      cases herror
      rfl
  pushDouble value := by
    refine of_denotes (denotes_pushDouble value) fun base thread m fault after hfol hmeaning herror => ?_
    have hroom := hfol.data_room
    rw [StackM.pushDouble, StackM.ofEffect, Items.pushDouble] at hmeaning
    split at hmeaning
    · cases hmeaning
    · rw [pushDouble, pushing, Stack.pushDouble, if_pos (by omega)] at herror
      cases herror
      rfl
  rollUp place := by
    refine of_denotes (denotes_rollUp place) fun base thread m fault after hfol hmeaning herror => ?_
    rw [StackM.rollUp] at hmeaning
    split at hmeaning
    · cases hmeaning
    next hplace =>
    split at hmeaning
    · cases hmeaning
    next hnone =>
    rw [rollUp, pushing] at herror
    simp only [bind_of_error
      (hfol.items.roll_none hfol.bounded.data hfol.bounded.size_eq hplace hnone)] at herror
    cases herror
    rfl
  pop := of_popping denotes_pop
  popDouble := of_popping denotes_popDouble
  top place := of_ask (denotes_top place)
  need count := of_ask (denotes_need count)
  depth := of_ask denotes_depth
  clear := of_denotes denotes_clear fun _ _ _ _ _ _ hmeaning => by cases hmeaning

end Twins

/-- A data word does the same on machines with the same data stack. -/
instance DataWord.parallel (word : DataWord) : Parallel Twins word.perform := by
  cases word with
  | shuffle word => cases word <;> simp only [perform, Shuffle.word, StackWord.perform] <;> infer_instance
  | cell word => exact inferInstanceAs (Parallel Twins word.perform)
  | double word => exact inferInstanceAs (Parallel Twins word.perform)

end ThreadedForth
