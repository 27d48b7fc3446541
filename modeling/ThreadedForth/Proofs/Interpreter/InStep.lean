
import ThreadedForth.Proofs.Machine.Abreast

/-!
# Words that leave the text alone

Most words neither look at the line that is interpreted nor write on it (`LeavesText`). Machines that differ in the
line only stay so when they perform such a word, and what is left of each line stays as it is (`InStep`). A run-time
word of a thread belongs to them if the thread is not itself a part of the line (`Poised`).
-/

namespace ThreadedForth

open WordM Layout

namespace Machine

/-! ### Leaving the text alone -/

/-- The text is the same, and so is how far it was read and whether the program has asked to end. -/
structure LeavesText (before after : Machine) : Prop where
  bounded : after.Bounded
  source_eq : after.source = before.source
  exiting_eq : after.exiting = before.exiting
  memory : Memory.SameOutside (fun address => ¬ SourceArea address) before.memory after.memory

namespace LeavesText

variable {origin before middle after : Machine}

theorem refl (hb : before.Bounded) : before.LeavesText before := ⟨hb, rfl, rfl, .refl _ _⟩

theorem trans (hfst : before.LeavesText middle) (hsnd : middle.LeavesText after) : before.LeavesText after where
  bounded := hsnd.bounded
  source_eq := hsnd.source_eq.trans hfst.source_eq
  exiting_eq := hsnd.exiting_eq.trans hfst.exiting_eq
  memory := hfst.memory.trans hsnd.memory

theorem reading {bytes : List UInt8} (hleaves : before.LeavesText after) (hb : before.Bounded)
    (hrd : Reading bytes before) : Reading bytes after :=
  hrd.frame hb hleaves.source_eq hleaves.memory fun _ hout hin => hout hin

theorem away (hb : after.Bounded) (hsource : after.source = before.source)
    (hexiting : after.exiting = before.exiting) (hmem : Memory.SameOutside (pad ≤ ·) before.memory after.memory) :
    before.LeavesText after := by
  refine ⟨hb, hsource, hexiting, hmem.mono fun addr hhigh => ?_⟩
  exact away_of_le hhigh addr (Nat.le_refl _) (Nat.lt_add_of_pos_right (by decide))

theorem of_onStacks (hstacks : before.OnStacks after) : before.LeavesText after := by
  have hlow : pad ≤ returnStack := by decide
  exact .away hstacks.bounded (by rw [hstacks.machine]) (by rw [hstacks.machine])
    (hstacks.memory.mono fun _ hhigh => Nat.le_trans hlow hhigh)

theorem keeps_of_onStacks {α : Type} (action : WordM α) [∀ origin : Machine, Keeps origin.OnStacks action] :
    Keeps origin.LeavesText action :=
  OnStacks.keeps (fun _ hleaves => hleaves.bounded) (fun _ _ hleaves hstacks => hleaves.trans (of_onStacks hstacks))
    action

theorem update {change : Machine → Machine} [Keeps Bounded (update change)]
    (hchange : ∀ m, (change m).source = m.source ∧ (change m).exiting = m.exiting ∧
      (change m).memory = m.memory) : Keeps origin.LeavesText (update change) := by
  refine .of fun m hleaves => hleaves.trans ?_
  have hb : (change m).Bounded := Keeps.of_ok hleaves.bounded (rfl : WordM.update change m = .ok () _)
  obtain ⟨hsource, hexiting, hmem⟩ := hchange m
  exact ⟨hb, hsource, hexiting, hmem ▸ .refl _ _⟩

theorem onMemory {α : Type} {step : MemoryM α} [Keeps Bounded (onMemory step)]
    (hstep : ∀ memory, Memory.SameOutside (fun addr => ¬ SourceArea addr) memory (stateAfter step memory)) :
    Keeps origin.LeavesText (WordM.onMemory step) := by
  refine .of fun m hleaves => hleaves.trans ?_
  have hb : (stateAfter (WordM.onMemory step) m).Bounded := Keeps.keeps inferInstance m hleaves.bounded
  have hmem := hstep m.memory
  rw [stateAfter, WordM.onMemory] at hb ⊢
  rw [stateAfter] at hmem
  cases hres : step m.memory <;>
    (rw [hres] at hb hmem; exact ⟨hb, rfl, rfl, hmem⟩)

theorem writeCell {addr : Nat} (haway : Away addr) (value : Cell) :
    Keeps origin.LeavesText (writeCell addr value) :=
  onMemory fun memory => (@Memory.keeps_writeCell (fun other => ¬ SourceArea other) memory addr value
    haway).keeps memory (.refl _ _)

instance (value : Cell) : Keeps origin.LeavesText (comma value) := by
  refine .of fun m hleaves => hleaves.trans ?_
  have hb : (stateAfter (comma value) m).Bounded := Keeps.keeps inferInstance m hleaves.bounded
  rcases m.dictionary.comma_cases value m.memory with ⟨fault, herror⟩ | ⟨hroom, hok⟩
  · rw [stateAfter, comma, onDictionary, bind_of_error herror]
    exact .refl hleaves.bounded
  · have hafter : stateAfter (comma value) m =
        { m with
          dictionary := { m.dictionary with here := m.dictionary.here + 4 }
          memory := m.memory.setCell m.dictionary.here value } := by
      rw [stateAfter, comma, onDictionary, bind_of_ok hok]
      rfl
    have hset := Memory.sameOutside_setCell m.memory m.dictionary.here value
    have hstart := hleaves.bounded.dictionary.start_le
    rw [hleaves.bounded.dictionary.start_eq] at hstart
    have hlow : pad ≤ dictionaryRegion.start := by decide
    rw [hafter] at hb ⊢
    exact .away hb rfl rfl (hset.mono fun _ hin => Nat.le_trans hlow (Nat.le_trans hstart hin.1))

theorem withMarker (hb : before.Bounded) (marker : Marker)
    (hroom : before.control.limit + 8 ≤ before.control.top) : before.LeavesText (before.withMarker marker) := by
  have hlow : pad ≤ controlRegion.start := by decide
  rw [← hb.control.limit_eq] at hlow
  have hsource : (before.withMarker marker).source = before.source := by rw [Machine.withMarker]
  have hexiting : (before.withMarker marker).exiting = before.exiting := by rw [Machine.withMarker]
  refine .away (hb.withMarker marker hroom) hsource hexiting
    ((Machine.sameOutside_withMarker marker hroom).mono fun addr hin => ?_)
  rw [Region.holds_mk] at hin
  omega

instance (marker : Marker) : Keeps origin.LeavesText (pushMarker marker) := by
  refine .of fun m hleaves => hleaves.trans ?_
  by_cases hroom : m.control.limit + 8 ≤ m.control.top
  · rw [stateAfter_of_ok (pushMarker_of_room hleaves.bounded marker hroom)]
    exact withMarker hleaves.bounded marker hroom
  · rw [stateAfter_of_error (pushMarker_of_full hleaves.bounded marker (by omega))]
    exact .refl hleaves.bounded

instance : Keeps origin.LeavesText popMarker := by
  refine .of fun m hleaves => hleaves.trans ?_
  have hb : (stateAfter popMarker m).Bounded := Keeps.keeps inferInstance m hleaves.bounded
  by_cases hmarks : m.control.top < m.control.base
  · rw [stateAfter, popMarker_of_markers hleaves.bounded hmarks] at hb ⊢
    cases htag : Tag.ofCell? (m.memory.cellAt m.control.top) <;>
      (rw [htag] at hb; exact ⟨hb, rfl, rfl, .refl _ _⟩)
  · rw [stateAfter_of_error (popMarker_of_empty (by omega))]
    exact .refl hleaves.bounded

end LeavesText

/-! ### Machines in step -/

/-- The machines differ at most in the text that they read, and one of them has some words more to read. -/
structure InStep (extra : List (List UInt8)) (first second : Machine) : Prop where
  abreast : first.Abreast second
  running : first.exiting = false
  texts : ∃ left right, Reading left first ∧ Reading right second ∧ Text.words left = Text.words right ++ extra

namespace InStep

variable {α : Type} {extra : List (List UInt8)} {first second after later : Machine}

theorem leaves (hinStep : InStep extra first second) (habr : after.Abreast later)
    (hfst : first.LeavesText after) (hsnd : second.LeavesText later) : InStep extra after later := by
  obtain ⟨left, right, hleft, hright, hwords⟩ := hinStep.texts
  exact ⟨habr, hfst.exiting_eq.trans hinStep.running, left, right,
    hfst.reading hinStep.abreast.1 hleft, hsnd.reading hinStep.abreast.second_bounded hright, hwords⟩

theorem endTogether {action : WordM α} [habr : Parallel Abreast action] (hinStep : InStep extra first second)
    (hfst : first.LeavesText (stateAfter action first)) (hsnd : second.LeavesText (stateAfter action second)) :
    EndTogether (InStep extra) (action first) (action second) := by
  rw [stateAfter] at hfst hsnd
  rcases (habr.parallel first second hinStep.abreast).cases with
    ⟨_, _, _, hone, hother, hends⟩ | ⟨_, _, _, hone, hother, hends⟩ <;>
    (rw [hone] at hfst ⊢; rw [hother] at hsnd ⊢; exact ⟨rfl, hinStep.leaves hends hfst hsnd⟩)

theorem parallel (action : WordM α) [Parallel Abreast action]
    [hleaves : ∀ origin : Machine, Keeps origin.LeavesText action] : Parallel (InStep extra) action :=
  ⟨fun first second hinStep => hinStep.endTogether ((hleaves first).keeps first (.refl hinStep.abreast.1))
    ((hleaves second).keeps second (.refl hinStep.abreast.second_bounded))⟩

theorem parallel_of_onStacks (action : WordM α) [Parallel Abreast action]
    [∀ origin : Machine, Keeps origin.OnStacks action] : Parallel (InStep extra) action := by
  have (origin : Machine) : Keeps origin.LeavesText action := LeavesText.keeps_of_onStacks action
  exact parallel action

instance : SharesCursors (InStep extra) where
  push _ := parallel_of_onStacks _
  pop := parallel_of_onStacks _
  pushDouble _ := parallel_of_onStacks _
  popDouble := parallel_of_onStacks _
  rollUp _ := parallel_of_onStacks _
  clear := parallel_of_onStacks _
  top _ := parallel_of_onStacks _
  need _ := parallel_of_onStacks _
  depth := parallel_of_onStacks _
  pushReturn _ := parallel_of_onStacks _
  popReturn := parallel_of_onStacks _
  topReturn _ := parallel_of_onStacks _
  needReturn _ := parallel_of_onStacks _
  pokeReturn _ _ := parallel_of_onStacks _
  pushMarker _ := parallel _
  popMarker := parallel _
  markerDepth := parallel _
  topTag := parallel _
  comma _ := parallel _
  here := parallel _
  setState value := by
    have (origin : Machine) : Keeps origin.LeavesText (writeCell state value) :=
      LeavesText.writeCell away_state value
    exact parallel _
  setPointCount value := by
    have (origin : Machine) : Keeps origin.LeavesText (writeCell pointCount value) :=
      LeavesText.writeCell away_pointCount value
    exact parallel _
  isCompiling := parallel _
  base := parallel _
  address _ := parallel _
  ip := parallel _
  setIp ip := by
    have (origin : Machine) : Keeps origin.LeavesText (ThreadWord.setIp ip) :=
      @LeavesText.update _ _ (inferInstanceAs (Keeps _ (ThreadWord.setIp ip))) fun _ => ⟨rfl, rfl, rfl⟩
    exact parallel _
  report line := by
    have (origin : Machine) : Keeps origin.LeavesText (report line) :=
      @LeavesText.update _ _ (inferInstanceAs (Keeps _ (report line))) fun _ => ⟨rfl, rfl, rfl⟩
    exact parallel _

variable (hinStep : InStep extra first second)

include hinStep

theorem withIp (ip : Nat) : InStep extra { first with ip } { second with ip } := by
  have hset : Parallel (InStep extra) (ThreadWord.setIp ip) := inferInstance
  exact (hset.parallel first second hinStep).2

/-- Either one text is at its end, and the other has its extra words left, or the next word is the same. -/
theorem next :
    (∃ left toIn, Reading left first ∧ Text.words left = extra ∧ nextToken? second = .ok none (second.readTo toIn)) ∨
      ∃ name toIn other, nextToken? first = .ok (some name) (first.readTo toIn) ∧
        nextToken? second = .ok (some name) (second.readTo other) ∧
        InStep extra (first.readTo toIn) (second.readTo other) := by
  obtain ⟨left, right, hleft, hright, hwords⟩ := hinStep.texts
  cases hrest : Text.words right with
  | nil =>
    rw [hrest, List.nil_append] at hwords
    obtain ⟨toIn, hend⟩ := nextToken?_of_end hright hinStep.abreast.second_bounded hrest
    exact .inl ⟨left, toIn, hleft, hwords, hend⟩
  | cons word rest =>
    rw [hrest, List.cons_append] at hwords
    obtain ⟨toIn, hfst, hmore, hremain⟩ := nextToken?_of_words hleft hinStep.abreast.1 hwords
    obtain ⟨other, hsnd, hless, hremains⟩ := nextToken?_of_words hright hinStep.abreast.second_bounded hrest
    exact .inr ⟨_, toIn, other, hfst, hsnd, ((hinStep.abreast.readTo other).symm.readTo toIn).symm, hinStep.running, _, _, hmore, hless,
      by rw [hremain, hremains]⟩

theorem requireName (hname : ∀ left, Reading left first → Text.words left ≠ extra) :
    EndTogether (InStep extra) (requireName first) (requireName second) := by
  rcases hinStep.next with ⟨left, _, hleft, hwords, -⟩ | ⟨name, _, _, hfst, hsnd, hinStep⟩
  · exact absurd hwords (hname left hleft)
  · rw [WordM.requireName, bind_of_ok hfst, bind_of_ok hsnd]
    exact ⟨rfl, hinStep⟩

end InStep

/-- The machines are in step, and the next cells of the thread are no part of the text. -/
structure Poised (extra : List (List UInt8)) (count : Nat) (first second : Machine) : Prop where
  inStep : first.InStep extra second
  ahead : ∀ n < count, Away (first.ip + 4 * n)

namespace Poised

variable {α : Type} {extra : List (List UInt8)} {count : Nat} {first second : Machine}

theorem parallel (action : WordM α) [hinStep : Parallel (InStep extra) action]
    [hstacks : ∀ origin : Machine, Keeps origin.OnStacks action] : Parallel (Poised extra count) action := by
  refine ⟨fun first second hpoised => ?_⟩
  have hfst := (hstacks first).keeps first ⟨hpoised.inStep.abreast.1, rfl, .refl _ _⟩
  rw [stateAfter] at hfst
  rcases (hinStep.parallel first second hpoised.inStep).cases with
    ⟨_, after, _, hone, hother, hends⟩ | ⟨_, after, _, hone, hother, hends⟩ <;>
  · rw [hone] at hfst ⊢
    rw [hother]
    change first.OnStacks after at hfst
    have hip : after.ip = first.ip := by rw [hfst.machine]
    exact ⟨rfl, hends, hip ▸ hpoised.ahead⟩

instance : SharesStacks (Poised extra count) where
  push _ := parallel _
  pop := parallel _
  pushDouble _ := parallel _
  popDouble := parallel _
  rollUp _ := parallel _
  clear := parallel _
  top _ := parallel _
  need _ := parallel _
  depth := parallel _
  pushReturn _ := parallel _
  popReturn := parallel _
  topReturn _ := parallel _
  needReturn _ := parallel _
  pokeReturn _ _ := parallel _

section

variable (hpoised : Poised extra (count + 1) first second)

include hpoised

theorem fewer : Poised extra count first second :=
  ⟨hpoised.inStep, fun n hn => hpoised.ahead n (Nat.lt_succ_of_lt hn)⟩

theorem readCell_eq : first.memory.readCell first.ip = second.memory.readCell second.ip := by
  obtain ⟨-, memory, source, hsame, rfl⟩ := hpoised.inStep.abreast
  exact hsame.readCell (hpoised.ahead 0 (Nat.zero_lt_succ count))

theorem skipCell : EndTogether (Poised extra count) (ThreadWord.skipCell first) (ThreadWord.skipCell second) := by
  refine ⟨rfl, ?_, fun n hn => ?_⟩
  · change InStep extra { first with ip := first.ip + 4 } { second with ip := second.ip + 4 }
    rw [hpoised.inStep.abreast.ip_eq]
    exact hpoised.inStep.withIp _
  · have hahead := hpoised.ahead (n + 1) (Nat.succ_lt_succ hn)
    rw [Nat.mul_succ, Nat.add_comm (4 * n), ← Nat.add_assoc] at hahead
    exact hahead

theorem inlineCell : EndTogether (Poised extra count) (ThreadWord.inlineCell first) (ThreadWord.inlineCell second) := by
  refine EndTogether.bind (.ask hpoised.readCell_eq hpoised) (fun _ _ => fewer) fun value _ _ hasked => ?_
  exact hasked.skipCell.bind (fun _ _ hends => hends) fun _ _ _ hends => ⟨rfl, hends⟩

theorem jump : EndTogether (InStep extra) (ThreadWord.jump first) (ThreadWord.jump second) := by
  have hset (target : Nat) : Parallel (InStep extra) (ThreadWord.setIp target) := inferInstance
  refine EndTogether.bind (.ask ?_ hpoised.inStep) (fun _ _ hends => hends) fun target => (hset target).parallel
  dsimp only
  rw [hpoised.readCell_eq, hpoised.inStep.abreast.ip_eq, hpoised.inStep.abreast.size_eq]

end

theorem inStep_of_fewer {result other : EStateM.Result Fault Machine α}
    (hends : EndTogether (Poised extra count) result other) : EndTogether (InStep extra) result other :=
  hends.mono fun _ _ hpoised => hpoised.inStep

end Poised

end Machine

/-! ### Run-time words -/

namespace ThreadWord

open Machine (InStep Poised)

variable {extra : List (List UInt8)} {first second : Machine}

/-- The words that numbers and control structures compile. -/
def isStructural : ThreadWord → Bool
  | textLit | setDoes | testAbort | execute => false
  | _ => true

variable {α : Type}

theorem endTogether_of_stacks {β : Type} {action : WordM α} {rest : α → WordM β} {count : Nat}
    [hact : Parallel (Poised extra count) action] (hpoised : Poised extra count first second)
    (hrest : ∀ answer first second, Poised extra count first second →
      EndTogether (InStep extra) (rest answer first) (rest answer second)) :
    EndTogether (InStep extra) ((action >>= rest) first) ((action >>= rest) second) :=
  (hact.parallel first second hpoised).bind (fun _ _ hends => hends.inStep) hrest

theorem endTogether_return (answer : α) {action : WordM Unit}
    (hact : EndTogether (InStep extra) (action first) (action second)) :
    EndTogether (InStep extra) ((do action; return answer) first) ((do action; return answer) second) :=
  hact.bind (fun _ _ hends => hends) fun _ _ _ hends => ⟨rfl, hends⟩

theorem startLoop_together (maySkip : Bool) (hpoised : Poised extra 1 first second) :
    EndTogether (InStep extra) (startLoop maySkip first) (startLoop maySkip second) := by
  refine endTogether_of_stacks hpoised fun index _ _ hpoised => ?_
  refine endTogether_of_stacks hpoised fun limit first second hpoised => ?_
  by_cases hskip : maySkip = true ∧ index = limit
  · rw [if_pos hskip]
    exact hpoised.jump
  · rw [if_neg hskip]
    refine endTogether_of_stacks hpoised fun _ _ _ hpoised => ?_
    exact endTogether_of_stacks hpoised fun _ _ _ hpoised => Poised.inStep_of_fewer hpoised.skipCell

theorem advanceLoop_together (step : Cell) (hpoised : Poised extra 1 first second) :
    EndTogether (InStep extra) (advanceLoop step first) (advanceLoop step second) := by
  refine endTogether_of_stacks hpoised fun index _ _ hpoised => ?_
  refine endTogether_of_stacks hpoised fun limit first second hpoised => ?_
  by_cases hdone : loopDone index limit step = true
  · rw [if_pos hdone]
    exact endTogether_of_stacks hpoised fun _ _ _ hpoised => Poised.inStep_of_fewer hpoised.skipCell
  · rw [if_neg hdone]
    exact endTogether_of_stacks hpoised fun _ _ _ hpoised => hpoised.jump

/-- Run-time words look at the thread only, so machines in step stay in step. -/
theorem perform_together {word : ThreadWord} (hword : word.isStructural = true) (hpoised : Poised extra 2 first second) :
    EndTogether (InStep extra) (word.perform first) (word.perform second) := by
  have hone := hpoised.fewer
  cases word with
  | exit =>
    have hreturn : Parallel (InStep extra) (do returnToCaller; return (none : Option Request)) := inferInstance
    exact hreturn.parallel first second hpoised.inStep
  | lit =>
    have hpush (value : Cell) : Parallel (InStep extra) (do push value; return (none : Option Request)) := inferInstance
    exact hone.inlineCell.bind (fun _ _ hends => hends.inStep) fun value _ _ hends =>
      (hpush value).parallel _ _ hends.inStep
  | twoLit =>
    have hpush (low high : Cell) : Parallel (InStep extra) (do
        pushDouble (DoubleCell.join low high); return (none : Option Request)) := inferInstance
    refine hpoised.inlineCell.bind (fun _ _ hends => hends.inStep) fun low _ _ hends => ?_
    exact hends.inlineCell.bind (fun _ _ hends => hends.inStep) fun high _ _ hends =>
      (hpush low high).parallel _ _ hends.inStep
  | branch => exact endTogether_return none hone.jump
  | zeroBranch =>
    refine endTogether_of_stacks hone fun flag first second hone => ?_
    by_cases hflag : flag = 0
    · rw [if_pos hflag]
      exact endTogether_return none hone.jump
    · rw [if_neg hflag]
      exact endTogether_return none (Poised.inStep_of_fewer hone.skipCell)
  | enterDo => exact endTogether_return none (startLoop_together false hone)
  | enterQuestionDo => exact endTogether_return none (startLoop_together true hone)
  | stepLoop => exact endTogether_return none (advanceLoop_together 1 hone)
  | stepPlusLoop =>
    refine endTogether_of_stacks hone fun step _ _ hone => ?_
    exact endTogether_return none (advanceLoop_together step hone)
  | unloop =>
    have hdiscard : Parallel (InStep extra) (do discardLoop; return (none : Option Request)) := inferInstance
    exact hdiscard.parallel first second hpoised.inStep
  | testOf =>
    refine endTogether_of_stacks hone fun candidate _ _ hone => ?_
    refine endTogether_of_stacks hone fun item first second hone => ?_
    by_cases hitem : item = candidate
    · rw [if_pos hitem]
      refine endTogether_of_stacks hone fun _ _ _ hone => ?_
      exact endTogether_return none (Poised.inStep_of_fewer hone.skipCell)
    · rw [if_neg hitem]
      exact endTogether_return none hone.jump
  | textLit | setDoes | testAbort | execute => cases hword

end ThreadWord

end ThreadedForth
