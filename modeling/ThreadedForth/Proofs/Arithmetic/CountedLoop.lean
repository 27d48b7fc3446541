
import Mathlib.Tactic.Linarith
import ThreadedForth.Proofs.Machine.Reachable
import ThreadedForth.Proofs.Structured.Instruction

/-!
# Counted loops

A counted loop keeps its index and its limit on the return stack. The body runs first, and then the word that closes the
loop steps the index and decides. Said with exact numbers, the loop is done when the next index is at or beyond the limit
going up, and below the limit going down (`loopDone_iff`). So the index never wraps, and with a constant step the body
sees the terms of one progression, in order, up to the limit.
-/

namespace ThreadedForth

open WordM Layout List

/-! ### The rule -/

namespace ThreadWord

theorem loopDone_iff {index limit step : Cell} :
    loopDone index limit step = true ↔
      0 < step.toInt ∧ limit.toInt ≤ index.toInt + step.toInt ∨
        step.toInt < 0 ∧ index.toInt + step.toInt < limit.toInt := by
  have hpositive : 0 < step ↔ 0 < step.toInt := Int32.lt_iff_toInt_lt
  have hnegative : step < 0 ↔ step.toInt < 0 := Int32.lt_iff_toInt_lt
  simp only [loopDone, Bool.or_eq_true, bne_iff_ne, ne_eq, decide_eq_decide, Bool.and_eq_true, decide_eq_true_eq,
    hpositive, hnegative]
  omega

theorem toInt_next {index limit step : Cell} (hgoesOn : loopDone index limit step = false) :
    (-2 ^ 31 ≤ index.toInt + step.toInt ∧ index.toInt + step.toInt < 2 ^ 31) ∧
      (index + step).toInt = index.toInt + step.toInt := by
  have hnot := Bool.eq_false_iff.1 hgoesOn
  rw [ne_eq, loopDone_iff] at hnot
  have hindex := index.le_toInt
  have hbelow := index.toInt_lt
  have hlimit := limit.le_toInt
  have habove := limit.toInt_lt
  have hrange : -2 ^ 31 ≤ index.toInt + step.toInt ∧ index.toInt + step.toInt < 2 ^ 31 := by omega
  refine ⟨hrange, ?_⟩
  rw [Int32.toInt_add, Int.bmod_eq_of_le] <;> omega

end ThreadWord

/-! ### The indices -/

/-- The indices a loop should visit: only the first if it starts beyond the limit, and else all terms of the progression
that are below the limit going up, or not below it going down. -/
structure Visited (start limit step : Int) (indices : List Int) : Prop where
  terms : indices = (List.range indices.length).map fun k : Nat => start + k * step
  beyond : 0 < step ∧ limit ≤ start ∨ step < 0 ∧ start < limit → indices.length = 1
  rising : 0 < step → start < limit → ∀ k : Nat, k < indices.length ↔ start + k * step < limit
  falling : step < 0 → limit ≤ start → ∀ k : Nat, k < indices.length ↔ limit ≤ start + k * step

namespace Visited

variable {start limit step : Int} {indices : List Int}

theorem once (hdone : 0 < step ∧ limit ≤ start + step ∨ step < 0 ∧ start + step < limit) :
    Visited start limit step [start] := by
  refine ⟨by simp, fun _ => rfl, fun hup hstart k => ?_, fun hdown hstart k => ?_⟩ <;> rw [length_singleton]
  · rcases k with _ | k
    · simpa using hstart
    · have hfar : step ≤ ((k + 1 : Nat) : Int) * step := by
        push_cast
        nlinarith [Int.natCast_nonneg k]
      omega
  · rcases k with _ | k
    · simpa using hstart
    · have hfar : ((k + 1 : Nat) : Int) * step ≤ step := by
        push_cast
        nlinarith [Int.natCast_nonneg k]
      omega

theorem cons (hgoesOn : ¬ (0 < step ∧ limit ≤ start + step ∨ step < 0 ∧ start + step < limit))
    (hvisited : Visited (start + step) limit step indices) : Visited start limit step (start :: indices) := by
  have hshift (k : Nat) : start + ((k + 1 : Nat) : Int) * step = start + step + k * step := by
    push_cast
    linarith
  refine ⟨?_, fun hbeyond => by omega, fun hup hstart k => ?_, fun hdown hstart k => ?_⟩
  · rw [length_cons, range_succ_eq_map, map_cons, map_map, Function.comp_def]
    simp only [Nat.succ_eq_add_one, hshift]
    rw [← hvisited.terms]
    simp
  · rcases k with _ | k
    · simpa using hstart
    · rw [length_cons, Nat.add_lt_add_iff_right, hshift]
      exact hvisited.rising hup (by omega) k
  · rcases k with _ | k
    · simpa using hstart
    · rw [length_cons, Nat.add_lt_add_iff_right, hshift]
      exact hvisited.falling hdown (by omega) k

end Visited

/-! ### Rounds -/

/-- The machine is inside a counted loop, at an address. -/
structure Looping (index limit : Cell) (outer : List Cell) (ip : Nat) (m : Machine) : Prop where
  bounded : m.Bounded
  ip_eq : m.ip = ip
  returns : m.returns.Carries m.memory (index :: limit :: outer)

theorem Looping.topReturn_eq {index limit : Cell} {outer : List Cell} {ip : Nat} {m : Machine}
    (hlooping : Looping index limit outer ip m) : topReturn 0 m = .ok index m :=
  ask_of_ok (hlooping.returns.peek_eq hlooping.bounded.returns hlooping.bounded.size_eq 0)

/-- The step that the closing word takes: one, or the number on top of the data stack. -/
def ThreadWord.StepsBy (closing : ThreadWord) (step : Cell) (m : Machine) : Prop :=
  closing = .stepLoop ∧ step = 1 ∨
    closing = .stepPlusLoop ∧ ∃ items, m.data.Carries m.memory (step :: items)

structure CountedLoop where
  body : RunM Unit
  closing : ThreadWord
  /-- Where the body starts. -/
  start : Nat
  /-- The offset cell behind the closing word. -/
  place : Nat

namespace CountedLoop

/-- Whole rounds: the body, which sees the index on top of the return stack, and then the closing word. There is another
round just if that leads back to the start of the body. -/
inductive Rounds (loop : CountedLoop) : List Cell → Machine → Machine → Prop where
  | last {index : Cell} {m done after : Machine} (hindex : topReturn 0 m = .ok index m)
      (hbody : loop.body m = .ok () done) (hclosing : loop.closing.perform done = .ok none after)
      (hleft : after.ip ≠ loop.start) : Rounds loop [index] m after
  | again {index : Cell} {rest : List Cell} {m done after last : Machine}
      (hindex : topReturn 0 m = .ok index m) (hbody : loop.body m = .ok () done)
      (hclosing : loop.closing.perform done = .ok none after) (hback : after.ip = loop.start)
      (hrest : Rounds loop rest after last) : Rounds loop (index :: rest) m last

/-- The rounds of a loop are determined. -/
theorem Rounds.unique {loop : CountedLoop} {indices others : List Cell} {m last final : Machine}
    (hrounds : loop.Rounds indices m last) (hothers : loop.Rounds others m final) :
    indices = others ∧ last = final := by
  induction hrounds generalizing others with
  | last hindex hbody hclosing hleft =>
    cases hothers with
    | last hindex' hbody' hclosing' _ =>
      cases hindex.symm.trans hindex'
      cases hbody.symm.trans hbody'
      cases hclosing.symm.trans hclosing'
      exact ⟨rfl, rfl⟩
    | again hindex' hbody' hclosing' hback _ =>
      cases hbody.symm.trans hbody'
      cases hclosing.symm.trans hclosing'
      exact absurd hback hleft
  | again hindex hbody hclosing hback _ ih =>
    cases hothers with
    | last hindex' hbody' hclosing' hleft =>
      cases hbody.symm.trans hbody'
      cases hclosing.symm.trans hclosing'
      exact absurd hback hleft
    | again hindex' hbody' hclosing' _ hrest' =>
      cases hindex.symm.trans hindex'
      cases hbody.symm.trans hbody'
      cases hclosing.symm.trans hclosing'
      obtain ⟨rfl, rfl⟩ := ih hrest'
      exact ⟨rfl, rfl⟩

/-- The body comes to the closing word from every round that is ready for it. It keeps the parameters of the loop, what
is below them and the offset that leads back, and it leaves the step. -/
structure Comes (loop : CountedLoop) (limit step : Cell) (outer : List Cell) (ready : Cell → Machine → Prop) : Prop where
  isAligned : loop.place % 4 = 0
  range : loop.place + 4 ≤ dictionaryEnd
  start_le : loop.start ≤ dictionaryEnd
  start_ne : loop.start ≠ loop.place + 4
  body : ∀ index m, Looping index limit outer loop.start m → ready index m →
    ∃ done, loop.body m = .ok () done ∧ Looping index limit outer loop.place done ∧
      done.memory.cellAt loop.place = distance loop.start loop.place ∧ loop.closing.StepsBy step done ∧
      ∀ after, loop.closing.perform done = .ok none after → after.ip = loop.start → ready (index + step) after

variable {loop : CountedLoop} {index limit step : Cell} {outer : List Cell} {ready : Cell → Machine → Prop}
  {m done : Machine}

/-- The closing word leaves the loop or steps the index, and there is nothing else that it can do. -/
theorem Comes.closing (hcomes : loop.Comes limit step outer ready) (hlooping : Looping index limit outer loop.place done)
    (hoff : done.memory.cellAt loop.place = distance loop.start loop.place) (hsteps : loop.closing.StepsBy step done) :
    ∃ after, loop.closing.perform done = .ok none after ∧
      if ThreadWord.loopDone index limit step then
        after.ip = loop.place + 4 ∧ after.returns.Carries after.memory outer
      else Looping (index + step) limit outer loop.start after := by
  obtain ⟨items, hitems⟩ := hlooping.bounded.data.exists_carries done.memory
  have hfol : Follows done ⟨loop.place, items, index :: limit :: outer⟩ done :=
    ⟨hlooping.bounded, by rw [← hlooping.ip_eq], .refl _ _, hitems, hlooping.returns⟩
  have hat : ThreadWord.AtOffset done ⟨loop.place, items, index :: limit :: outer⟩ loop.start :=
    ⟨hcomes.isAligned, hcomes.range, hoff, hcomes.start_le⟩
  -- either way the closing word ends where stepping the loop leads
  have hplays : ∃ stepped rest, loop.closing.perform = ThreadWord.perform (if stepped then .stepPlusLoop else .stepLoop) ∧
      (Op.advance stepped loop.start).run ⟨loop.place + 4, items, index :: limit :: outer⟩ =
        Thread.stepLoop step loop.start ⟨loop.place + 4, rest, index :: limit :: outer⟩ := by
    rcases hsteps with ⟨hword, rfl⟩ | ⟨hword, rest, hcar⟩
    · exact ⟨false, items, by rw [hword]; rfl, rfl⟩
    · cases hitems.unique hcar
      exact ⟨true, rest, by rw [hword]; rfl, rfl⟩
  obtain ⟨stepped, rest, hperf, hrun⟩ := hplays
  have hstepped : Thread.stepLoop step loop.start ⟨loop.place + 4, rest, index :: limit :: outer⟩ =
      if ThreadWord.loopDone index limit step then .ok ⟨loop.place + 4, rest, outer⟩
      else .ok ⟨loop.start, rest, (index + step) :: limit :: outer⟩ := rfl
  have hends := ThreadWord.plays_stepLoop stepped hat done hfol
  rw [hrun, hstepped, ← hperf] at hends
  by_cases hdone : ThreadWord.loopDone index limit step
  · rw [if_pos hdone] at hends
    obtain ⟨after, hok, hafter⟩ := hends
    refine ⟨after, hok, ?_⟩
    rw [if_pos hdone]
    exact ⟨hafter.ip_eq, hafter.returns⟩
  · rw [if_neg hdone] at hends
    obtain ⟨after, hok, hafter⟩ := hends
    refine ⟨after, hok, ?_⟩
    rw [if_neg hdone]
    exact ⟨hafter.bounded, hafter.ip_eq, hafter.returns⟩

/-- The loop goes round until it is done. The induction is on how far the index is from the limit. -/
theorem Comes.rounds (hcomes : loop.Comes limit step outer ready) (hstep : step ≠ 0)
    (hlooping : Looping index limit outer loop.start m) (hready : ready index m) :
    ∃ indices after, loop.Rounds indices m after ∧
      Visited index.toInt limit.toInt step.toInt (indices.map Int32.toInt) ∧
      after.ip = loop.place + 4 ∧ after.returns.Carries after.memory outer := by
  have hnonzero : step.toInt ≠ 0 := fun hzero => hstep (Int32.toInt_inj.1 hzero)
  generalize hdist : (index.toInt - limit.toInt).natAbs = distance
  induction distance using Nat.strong_induction_on generalizing index m with
  | _ distance ih =>
    obtain ⟨done, hbody, hcame, hoff, hsteps, hmore⟩ := hcomes.body index m hlooping hready
    obtain ⟨after, hclosing, hends⟩ := hcomes.closing hcame hoff hsteps
    cases hdone : ThreadWord.loopDone index limit step with
    | true =>
      rw [hdone, if_pos rfl] at hends
      refine ⟨[index], after, .last hlooping.topReturn_eq hbody hclosing ?_, .once (ThreadWord.loopDone_iff.1 hdone), hends⟩
      rw [hends.1]
      exact hcomes.start_ne.symm
    | false =>
      rw [hdone, if_neg (by simp)] at hends
      have hgoesOn := Bool.eq_false_iff.1 hdone
      rw [ne_eq, ThreadWord.loopDone_iff] at hgoesOn
      have hnext := (ThreadWord.toInt_next hdone).2
      obtain ⟨indices, last, hrounds, hvisited, hlast⟩ := ih _ (by omega) hends (hmore after hclosing hends.ip_eq) rfl
      rw [hnext] at hvisited
      exact ⟨index :: indices, last, .again hlooping.topReturn_eq hbody hclosing hends.ip_eq hrounds,
        .cons hgoesOn hvisited, hlast⟩

/-- A counted loop with a constant step ends after it has visited just the right indices, and leaves the return stack as
it was before the loop. Whatever the step, the index never wraps. -/
theorem visits_progression (hcomes : loop.Comes limit step outer ready) (hstep : step ≠ 0)
    (hlooping : Looping index limit outer loop.start machine) (hready : ready index machine) :
    (∃ indices after, loop.Rounds indices machine after ∧
      (∀ others last, loop.Rounds others machine last → others = indices ∧ last = after) ∧
      Visited index.toInt limit.toInt step.toInt (indices.map Int32.toInt) ∧
      after.ip = loop.place + 4 ∧ after.returns.Carries after.memory outer) ∧
    ∀ index limit step : Cell, ThreadWord.loopDone index limit step = false →
      (-2 ^ 31 ≤ index.toInt + step.toInt ∧ index.toInt + step.toInt < 2 ^ 31) ∧
        (index + step).toInt = index.toInt + step.toInt := by
  obtain ⟨indices, after, hrounds, hvisited, hlast⟩ := hcomes.rounds hstep hlooping hready
  exact ⟨⟨indices, after, hrounds, fun _ _ hothers => hothers.unique hrounds, hvisited, hlast⟩,
    fun _ _ _ => ThreadWord.toInt_next⟩

/-- A loop whose body does nothing but leave the step minus three. -/
def byThrees : CountedLoop where
  body := do push (-3); ThreadWord.setIp (dictionaryStart + 4)
  closing := .stepPlusLoop
  start := dictionaryStart
  place := dictionaryStart + 4

/-- A machine with nothing in the dictionary but the offset of that loop. -/
def loopMachine : Machine :=
  let m := Machine.new ⟨[]⟩ false
  { m with
    memory := m.memory.setCell byThrees.place (distance byThrees.start byThrees.place)
    ip := byThrees.start }

theorem byThrees_comes (limit : Cell) (outer : List Cell) :
    byThrees.Comes limit (-3) outer fun index => Follows loopMachine ⟨byThrees.start, [], index :: limit :: outer⟩ := by
  refine ⟨by decide, by decide, by decide, by decide, fun index m _ hfol => ?_⟩
  obtain ⟨pushed, hpush, hpushed⟩ := denotes_push (-3) loopMachine _ m hfol
  have hdone := hpushed.withIp byThrees.place
  have hbody : byThrees.body m = .ok () { pushed with ip := byThrees.place } :=
    (bind_of_ok (run_of_ok hpush)).trans (run_of_ok rfl)
  have hplace : loopMachine.memory.cellAt byThrees.place = distance byThrees.start byThrees.place :=
    Memory.cellAt_setCell _ _ _ (by rw [(Machine.bounded_new ⟨[]⟩ false).size_eq]; decide)
  refine ⟨_, hbody, ⟨hdone.bounded, hdone.ip_eq, hdone.returns⟩, (hdone.cellAt (by decide)).trans hplace,
    .inr ⟨rfl, [], hdone.items⟩, fun after hclosing hback => ?_⟩
  have hat : ThreadWord.AtOffset loopMachine ⟨byThrees.place, [-3], index :: limit :: outer⟩ byThrees.start :=
    ⟨show byThrees.place % 4 = 0 by decide, show byThrees.place + 4 ≤ dictionaryEnd by decide, hplace, by decide⟩
  have hends := ThreadWord.plays_stepLoop true hat _ hdone
  have hstepped : (Op.advance true byThrees.start).run ⟨byThrees.place + 4, [-3], index :: limit :: outer⟩ =
      if ThreadWord.loopDone index limit (-3) then .ok ⟨byThrees.place + 4, [], outer⟩
      else .ok ⟨byThrees.start, [], (index + -3) :: limit :: outer⟩ := rfl
  rw [hstepped] at hends
  by_cases hlast : ThreadWord.loopDone index limit (-3)
  · rw [if_pos hlast] at hends
    obtain ⟨other, hok, hother⟩ := hends
    cases hclosing.symm.trans hok
    exact absurd (hback.symm.trans hother.ip_eq) (show byThrees.start ≠ byThrees.place + 4 by decide)
  · rw [if_neg hlast] at hends
    obtain ⟨other, hok, hother⟩ := hends
    cases hclosing.symm.trans hok
    exact hother

/-- Counting from five down to minus two by threes, the body sees five, two and minus one. -/
theorem visits_progression_byThrees : ∃ machine after, Looping 5 (-2) [] byThrees.start machine ∧
    byThrees.Rounds [5, 2, -1] machine after := by
  have hbounded : loopMachine.Bounded :=
    { (Machine.bounded_new ⟨[]⟩ false).withMemory (Memory.size_setCell _ _ _) with }
  have hfollows : Follows loopMachine ⟨byThrees.start, [], []⟩ loopMachine :=
    ⟨hbounded, rfl, .refl _ _, ⟨rfl, nofun⟩, ⟨rfl, nofun⟩⟩
  obtain ⟨limited, -, hlimited⟩ := plays_pushReturn_of_room (-2) (by decide) loopMachine hfollows
  obtain ⟨machine, -, hmachine⟩ := plays_pushReturn_of_room 5 (by decide) limited hlimited
  have hlooping : Looping 5 (-2) [] byThrees.start machine := ⟨hmachine.bounded, hmachine.ip_eq, hmachine.returns⟩
  obtain ⟨⟨indices, after, hrounds, -, hvisited, -⟩, -⟩ :=
    visits_progression (byThrees_comes (-2) []) (by decide) hlooping hmachine
  have hfalling := hvisited.falling (by decide) (by decide)
  have hlength : (indices.map Int32.toInt).length = 3 := by
    have hthree := hfalling 2
    have hfour := hfalling 3
    have hvalues : (5 : Cell).toInt = 5 ∧ (-2 : Cell).toInt = -2 ∧ (-3 : Cell).toInt = -3 := by decide
    omega
  have hterms := hvisited.terms
  rw [hlength] at hterms
  have hindices : indices = [5, 2, -1] :=
    List.map_inj_right (fun _ _ => Int32.toInt_inj.1) |>.1 (hterms.trans (by decide))
  exact ⟨machine, after, hlooping, hindices ▸ hrounds⟩

end CountedLoop

end ThreadedForth
