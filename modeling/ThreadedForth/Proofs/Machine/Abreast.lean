
import ThreadedForth.Proofs.Compiler.Site
import ThreadedForth.Proofs.Interpreter.Source
import ThreadedForth.Proofs.Machine.Calm
import ThreadedForth.Proofs.Machine.Reachable

/-!
# Machines that differ in the text

Two machines may differ in the line that they read, in how far they have read it, and in nothing else (`Abreast`). The
stacks, the control stack and the dictionary lie elsewhere in memory, so that what is made of them alone does the same
on both.
-/

namespace ThreadedForth

open WordM Layout Memory Stack

/-! ### Memories that differ in an area -/

/-- No byte of the cell at an address belongs to the text that is read. -/
def Away (address : Nat) : Prop := ∀ other, address ≤ other → other < address + 4 → ¬ SourceArea other

theorem away_of_le {addr : Nat} (haddr : pad ≤ addr) : Away addr := by
  intro other hfst _ hin
  have horder := order
  rcases hin with ⟨-, hlast⟩ | ⟨-, hlast⟩ <;> (simp only at hlast; omega)

theorem away_of_add_le {addr : Nat} (haddr : addr + 4 ≤ toIn) : Away addr := by
  intro other _ hlast hin
  have horder := order
  rcases hin with ⟨hfst, -⟩ | ⟨hfst, -⟩ <;> (simp only at hfst; omega)

theorem away_state : Away state := away_of_add_le (by decide)

theorem away_base : Away Layout.base := away_of_add_le (by decide)

theorem away_pointCount : Away pointCount := by
  intro other hfst hlast hin
  have horder := order
  rcases hin with ⟨-, hin⟩ | ⟨hin, -⟩ <;> (simp only at hin; omega)

namespace Memory

variable {area : Nat → Prop} {first second : Memory}

namespace SameOutside

theorem symm (hsame : SameOutside area first second) : SameOutside area second first :=
  ⟨hsame.size.symm, fun addr hout => (hsame.byteAt addr hout).symm⟩

theorem setByte (hsame : SameOutside area first second) (addr : Nat) (value : UInt8) :
    SameOutside area (first.setByte addr value) (second.setByte addr value) := by
  refine ⟨by simp only [size_setByte, hsame.size], fun other hout => ?_⟩
  by_cases hother : other = addr
  · subst hother
    by_cases hin : other < first.size
    · rw [byteAt_setByte _ _ _ _ hin, byteAt_setByte _ _ _ _ (hsame.size ▸ hin), if_pos rfl, if_pos rfl]
    · have hkept (memory : Memory) (hend : memory.size ≤ other) : memory.setByte other value = memory := by
        rw [Memory.setByte, Array.setIfInBounds_eq_of_size_le hend]
      rw [hkept first (Nat.not_lt.1 hin), hkept second (hsame.size ▸ Nat.not_lt.1 hin)]
      exact hsame.byteAt other hout
  · rw [byteAt_setByte_of_ne _ _ hother, byteAt_setByte_of_ne _ _ hother]
    exact hsame.byteAt other hout

theorem setCell (hsame : SameOutside area first second) (addr : Nat) (value : Cell) :
    SameOutside area (first.setCell addr value) (second.setCell addr value) :=
  (((hsame.setByte _ _).setByte _ _).setByte _ _).setByte _ _

theorem setBytes (hsame : SameOutside area first second) (addr : Nat) (values : List UInt8) :
    SameOutside area (first.setBytes addr values) (second.setBytes addr values) := by
  induction values generalizing first second addr with
  | nil => exact hsame
  | cons value rest ih => exact ih (hsame.setByte addr value) (addr + 1)

end SameOutside

theorem parallel_guarded {test : Memory → Except Fault Unit} {change : Memory → Memory}
    (htest : ∀ first second, SameOutside area first second → test first = test second)
    (hchange : ∀ first second, SameOutside area first second → SameOutside area (change first) (change second)) :
    Parallel (SameOutside area) (guarded test change) := by
  refine ⟨fun first second hsame => ?_⟩
  rw [guarded, guarded, htest first second hsame]
  cases test second with
  | ok _ => exact ⟨rfl, hchange first second hsame⟩
  | error fault => exact ⟨rfl, hsame⟩

instance (addr : Nat) (value : Cell) : Parallel (SameOutside area) (writeCell addr value) :=
  parallel_guarded (fun _ _ hsame => hsame.checkAligned addr 4) fun _ _ hsame => hsame.setCell addr value

instance (addr : Nat) (value : UInt8) : Parallel (SameOutside area) (writeByte addr value) :=
  parallel_guarded (fun _ _ hsame => hsame.check addr 1) fun _ _ hsame => hsame.setByte addr value

instance (addr : Nat) (values : List UInt8) : Parallel (SameOutside area) (writeBytes addr values) :=
  parallel_guarded (fun _ _ hsame => hsame.check addr values.length) fun _ _ hsame => hsame.setBytes addr values

end Memory

namespace Stack

variable {stack : Stack} {first second : Memory}

instance (stack : Stack) (value : Cell) : Parallel (Memory.SameOutside SourceArea) (stack.push value) := by
  unfold push
  infer_instance

instance (stack : Stack) (value : DoubleCell) : Parallel (Memory.SameOutside SourceArea) (stack.pushDouble value) := by
  unfold pushDouble
  infer_instance

instance (stack : Stack) (depth : Nat) (value : Cell) :
    Parallel (Memory.SameOutside SourceArea) (stack.poke depth value) := by
  refine ⟨fun first second hsame => ?_⟩
  rw [poke, poke]
  cases stack.check (depth + 1) with
  | ok _ =>
    have hwrite : Parallel (Memory.SameOutside SourceArea) (writeCell (stack.top + depth * 4) value) :=
      inferInstance
    exact hwrite.parallel first second hsame
  | error fault => exact ⟨rfl, hsame⟩

variable (htop : pad ≤ stack.top)

include htop

section

variable (hsame : Memory.SameOutside SourceArea first second)

include hsame

theorem pop_eq_of_sameOutside : stack.pop first = stack.pop second := by
  rw [pop, pop, hsame.readCell (away_of_le htop)]

theorem peek_eq_of_sameOutside (depth : Nat) : stack.peek first depth = stack.peek second depth := by
  rw [peek, peek, hsame.readCell (away_of_le (Nat.le_add_right_of_le htop))]

theorem popDouble_eq_of_sameOutside : stack.popDouble first = stack.popDouble second := by
  rw [popDouble, popDouble, pop_eq_of_sameOutside htop hsame]
  refine congrArg (stack.check 2 >>= ·) (funext fun _ => ?_)
  cases hpop : stack.pop second with
  | error fault => rfl
  | ok answer =>
    obtain ⟨high, lowered⟩ := answer
    have hlowered : pad ≤ lowered.top := by
      rw [pop] at hpop
      split at hpop
      · cases hpop
      · obtain ⟨_, _, hpure⟩ := of_question_eq_ok hpop
        cases hpure
        exact Nat.le_add_right_of_le htop
    change (lowered.pop first >>= _) = (lowered.pop second >>= _)
    rw [pop_eq_of_sameOutside hlowered hsame]

end

theorem parallel_sink (count : Nat) : Parallel (Memory.SameOutside SourceArea) (sink stack.top count) := by
  induction count with
  | zero => exact Parallel.pure _
  | succ count ih =>
    refine ⟨fun first second hsame => ?_⟩
    simp only [sink]
    rw [hsame.readCell (away_of_le (Nat.le_add_right_of_le htop))]
    cases second.readCell (stack.top + count * 4) with
    | error fault => exact ⟨rfl, hsame⟩
    | ok value =>
      have hwrite : Parallel (Memory.SameOutside SourceArea) (writeCell (stack.top + (count + 1) * 4) value) :=
        inferInstance
      have hwritten := hwrite.parallel first second hsame
      cases hfst : writeCell (stack.top + (count + 1) * 4) value first <;>
        cases hsnd : writeCell (stack.top + (count + 1) * 4) value second <;>
        rw [hfst, hsnd] at hwritten <;> simp only [hfst, hsnd]
      · exact ih.parallel _ _ hwritten.2
      · exact hwritten.elim
      · exact hwritten.elim
      · exact hwritten

theorem parallel_roll (depth : Nat) : Parallel (Memory.SameOutside SourceArea) (stack.roll depth) := by
  have := parallel_sink htop depth
  refine ⟨fun first second hsame => ?_⟩
  rw [roll, roll, peek_eq_of_sameOutside htop hsame]
  split
  · exact ⟨rfl, hsame⟩
  · cases stack.peek second depth with
    | error fault => exact ⟨rfl, hsame⟩
    | ok value =>
      have hwrite : Parallel (Memory.SameOutside SourceArea) (do
          sink stack.top depth; writeCell stack.top value) := inferInstance
      exact hwrite.parallel first second hsame

end Stack

/-! ### Machines that differ in the text -/

/-- The machines differ at most in the text that they read. -/
def Machine.Abreast (first second : Machine) : Prop :=
  first.Bounded ∧ ∃ memory source, Memory.SameOutside SourceArea first.memory memory ∧
    second = { first with memory, source }

namespace Machine

variable {m : Machine}

theorem Bounded.data_away (hb : m.Bounded) : pad ≤ m.data.top := by
  have hlow : pad ≤ dataRegion.start := by decide
  exact Nat.le_trans (hb.data.limit_eq ▸ hlow) hb.data.limit_le

theorem Bounded.returns_away (hb : m.Bounded) : pad ≤ m.returns.top := by
  have hlow : pad ≤ returnRegion.start := by decide
  exact Nat.le_trans (hb.returns.limit_eq ▸ hlow) hb.returns.limit_le

theorem Bounded.control_away (hb : m.Bounded) : pad ≤ m.control.top := by
  have hlow : pad ≤ controlRegion.start := by decide
  exact Nat.le_trans (hb.control.limit_eq ▸ hlow) hb.control.limit_le

namespace Abreast

variable {α : Type} {first second : Machine}

section

variable (habr : first.Abreast second)

include habr

theorem second_bounded : second.Bounded := by
  obtain ⟨hb, _, _, hmem, rfl⟩ := habr
  exact { hb.withMemory hmem.size with }

theorem ip_eq : second.ip = first.ip := by
  obtain ⟨-, _, _, -, rfl⟩ := habr
  rfl

theorem size_eq : second.memory.size = first.memory.size := by
  obtain ⟨-, _, _, hsame, rfl⟩ := habr
  exact hsame.size

theorem symm : second.Abreast first := by
  have hsnd := habr.second_bounded
  obtain ⟨-, memory, source, hsame, rfl⟩ := habr
  exact ⟨hsnd, first.memory, first.source, hsame.symm, rfl⟩

end

theorem trans {third : Machine} (hfst : first.Abreast second) (hsnd : second.Abreast third) : first.Abreast third := by
  obtain ⟨hb, memory, source, hsame, rfl⟩ := hfst
  obtain ⟨-, later, other, hlater, rfl⟩ := hsnd
  exact ⟨hb, later, other, hsame.trans hlater, rfl⟩

theorem readTo (habr : first.Abreast second) (toIn : Cell) : first.Abreast (second.readTo toIn) := by
  obtain ⟨hb, memory, source, hsame, rfl⟩ := habr
  have hread : Memory.SameOutside SourceArea memory (memory.setCell Layout.toIn toIn) :=
    (sameOutside_setCell memory Layout.toIn toIn).mono fun _ hin => .inl hin
  exact ⟨hb, memory.setCell Layout.toIn toIn, source, hsame.trans hread, rfl⟩

theorem withLine (habr : first.Abreast second) {line : List UInt8} (hline : line.length ≤ inputBufferSize) :
    first.Abreast (Interpreter.withLine second line) := by
  have hlaid := Interpreter.sourceArea_withLine second hline
  obtain ⟨hb, memory, source, hsame, rfl⟩ := habr
  exact ⟨hb, _, _, hsame.trans hlaid, rfl⟩

theorem ask {question : Machine → Except Fault α}
    (hquestion : ∀ (m : Machine) memory source, m.Bounded →
      Memory.SameOutside SourceArea m.memory memory →
        question m = question { m with memory, source }) : Parallel Abreast (WordM.ask question) := by
  refine Parallel.ask fun first second habr => ?_
  obtain ⟨hb, memory, source, hmem, rfl⟩ := habr
  exact hquestion first memory source hb hmem

/-- It is enough to look at what an action does to memory and the cursors, since the bounds are kept. -/
theorem of_keeps {action : WordM α} [Keeps Bounded action]
    (hact : ∀ (first : Machine) memory source, first.Bounded → Memory.SameOutside SourceArea first.memory memory →
      EndTogether (fun first second => ∃ memory source, Memory.SameOutside SourceArea first.memory memory ∧
        second = { first with memory, source }) (action first) (action { first with memory, source })) :
    Parallel Abreast action := by
  refine ⟨fun first second habr => ?_⟩
  obtain ⟨hb, memory, source, hsame, rfl⟩ := habr
  rcases (hact first memory source hb hsame).cases with
    ⟨answer, _, _, hfst, hsnd, hends⟩ | ⟨cause, _, _, hfst, hsnd, hends⟩
  · rw [hfst, hsnd]
    exact ⟨rfl, Keeps.of_ok hb hfst, hends⟩
  · rw [hfst, hsnd]
    exact ⟨rfl, Keeps.of_error hb hfst, hends⟩

theorem update {change : Machine → Machine} [Keeps Bounded (update change)]
    (hchange : ∀ (m : Machine) memory source, Memory.SameOutside SourceArea m.memory memory →
      ∃ after later, Memory.SameOutside SourceArea (change m).memory after ∧
        change { m with memory, source } = { change m with memory := after, source := later }) :
    Parallel Abreast (update change) :=
  of_keeps fun first memory source _ hsame => ⟨rfl, hchange first memory source hsame⟩

theorem onMemory (step : MemoryM α) [Keeps Bounded (onMemory step)]
    [hstep : Parallel (Memory.SameOutside SourceArea) step] : Parallel Abreast (onMemory step) := by
  refine of_keeps fun first memory source _ hsame => ?_
  rcases (hstep.parallel _ _ hsame).cases with ⟨_, _, _, hfst, hsnd, hends⟩ | ⟨_, _, _, hfst, hsnd, hends⟩ <;>
    (simp only [WordM.onMemory, hfst, hsnd]; exact ⟨rfl, _, _, hends, rfl⟩)

theorem onDictionary (step : Dictionary → MemoryM (α × Dictionary)) [Keeps Bounded (WordM.onDictionary step)]
    [hstep : ∀ dictionary, Parallel (Memory.SameOutside SourceArea) (step dictionary)] :
    Parallel Abreast (onDictionary step) := by
  refine of_keeps fun first memory source _ hsame => ?_
  rcases ((hstep first.dictionary).parallel _ _ hsame).cases with
    ⟨_, _, _, hfst, hsnd, hends⟩ | ⟨_, _, _, hfst, hsnd, hends⟩ <;>
    (simp only [WordM.onDictionary, hfst, hsnd]; exact ⟨rfl, _, _, hends, rfl⟩)

theorem pushing {step : Stack → MemoryM Stack} (hkeeps : Keeps Bounded (WordM.pushing step))
    (hstep : ∀ stack : Stack, pad ≤ stack.top → Parallel (Memory.SameOutside SourceArea) (step stack)) :
    Parallel Abreast (pushing step) := by
  refine of_keeps fun first memory source hb hsame => ?_
  rcases ((hstep first.data hb.data_away).parallel _ _ hsame).cases with
    ⟨_, _, _, hfst, hsnd, hends⟩ | ⟨_, _, _, hfst, hsnd, hends⟩ <;>
    (simp only [WordM.pushing, hfst, hsnd]; exact ⟨rfl, _, _, hends, rfl⟩)

theorem popping {step : Stack → Memory → Except Fault (α × Stack)} (hkeeps : Keeps Bounded (WordM.popping step))
    (hstep : ∀ {stack : Stack} {first second : Memory}, pad ≤ stack.top →
      Memory.SameOutside SourceArea first second → step stack first = step stack second) :
    Parallel Abreast (popping step) := by
  refine of_keeps fun first memory source hb hsame => ?_
  simp only [WordM.popping]
  rw [hstep hb.data_away hsame]
  cases step first.data memory <;> exact ⟨rfl, _, _, hsame, rfl⟩

theorem readCell {addr : Nat} (haway : Away addr) : Parallel Abreast (readCell addr) :=
  ask fun _ _ _ _ hsame => hsame.readCell haway

instance : Lockstep Abreast where
  push value := pushing (inferInstanceAs (Keeps _ (push value))) fun _ _ => inferInstance
  pop := popping (inferInstanceAs (Keeps _ WordM.pop)) pop_eq_of_sameOutside
  pushDouble value := pushing (inferInstanceAs (Keeps _ (pushDouble value))) fun _ _ => inferInstance
  popDouble := popping (inferInstanceAs (Keeps _ WordM.popDouble)) popDouble_eq_of_sameOutside
  rollUp depth := pushing (inferInstanceAs (Keeps _ (rollUp depth))) fun stack htop => by
    have := parallel_roll htop depth
    infer_instance
  clear := update fun _ memory source hsame => ⟨memory, source, hsame, rfl⟩
  top depth := ask fun _ _ _ hb hsame => peek_eq_of_sameOutside hb.data_away hsame depth
  need _ := ask fun _ _ _ _ _ => rfl
  depth := ask fun _ _ _ _ _ => rfl
  pushMarker marker := by
    refine of_keeps fun first memory source hb hsame => ?_
    have hother : Bounded { first with memory, source } := { hb.withMemory hsame.size with }
    by_cases hroom : first.control.limit + 8 ≤ first.control.top
    · rw [pushMarker_of_room hb marker hroom, pushMarker_of_room hother marker hroom]
      exact ⟨rfl, _, _, (hsame.setCell _ _).setCell _ _, rfl⟩
    · rw [pushMarker_of_full hb marker (by omega), pushMarker_of_full hother marker (Nat.not_le.1 hroom)]
      exact ⟨rfl, _, _, hsame, rfl⟩
  popMarker := by
    refine of_keeps fun first memory source hb hsame => ?_
    have hother : Bounded { first with memory, source } := { hb.withMemory hsame.size with }
    have haway := hb.control_away
    by_cases hmarks : first.control.top < first.control.base
    · rw [popMarker_of_markers hb hmarks, popMarker_of_markers hother hmarks]
      simp only
      rw [hsame.cellAt (away_of_le haway), hsame.cellAt (away_of_le (Nat.le_add_right_of_le haway))]
      cases Tag.ofCell? (first.memory.cellAt first.control.top) <;> exact ⟨rfl, _, _, hsame, rfl⟩
    · rw [popMarker_of_empty (Nat.not_lt.1 hmarks),
        @popMarker_of_empty { first with memory, source } (Nat.not_lt.1 hmarks)]
      exact ⟨rfl, _, _, hsame, rfl⟩
  markerDepth := ask fun _ _ _ _ _ => rfl
  topTag := ask fun m memory source hb hsame => by
    simp only
    rw [peek_eq_of_sameOutside hb.control_away hsame]
  comma value := by
    have (dictionary : Dictionary) : Parallel (Memory.SameOutside SourceArea) (dictionary.comma value) := by
      unfold Dictionary.comma
      infer_instance
    exact @onDictionary _ _ (inferInstanceAs (Keeps _ (comma value))) inferInstance
  here := ask fun _ _ _ _ _ => rfl
  writeCell addr value := @onMemory _ _ (inferInstanceAs (Keeps _ (WordM.writeCell addr value))) inferInstance
  isCompiling := by
    have := readCell away_state
    unfold isCompiling
    infer_instance
  base := ask fun m memory source _ hsame => by
    rw [Machine.base, Machine.base, hsame.readCell away_base]
  address value := ask fun m memory source _ hsame => by
    simp only [Memory.address, hsame.size]
  setIp ip := @update _ (inferInstanceAs (Keeps _ (ThreadWord.setIp ip))) fun _ memory source hsame =>
    ⟨memory, source, hsame, rfl⟩
  report line := @update _ (inferInstanceAs (Keeps _ (report line))) fun _ memory source hsame =>
    ⟨memory, source, hsame, rfl⟩

instance : SharesCursors Abreast where
  pushReturn value := by
    refine of_keeps fun first memory source _ hsame => ?_
    have hstep : Parallel (Memory.SameOutside SourceArea) (first.returns.push value) := inferInstance
    rcases (hstep.parallel _ _ hsame).cases with
      ⟨_, _, _, hfst, hsnd, hends⟩ | ⟨_, _, _, hfst, hsnd, hends⟩ <;>
      (simp only [pushReturn, hfst, hsnd]; exact ⟨rfl, _, _, hends, rfl⟩)
  popReturn := by
    refine of_keeps fun first memory source hb hsame => ?_
    simp only [popReturn]
    rw [pop_eq_of_sameOutside hb.returns_away hsame]
    cases first.returns.pop memory <;> exact ⟨rfl, _, _, hsame, rfl⟩
  topReturn depth := ask fun _ _ _ hb hsame => peek_eq_of_sameOutside hb.returns_away hsame depth
  needReturn _ := ask fun _ _ _ _ _ => rfl
  pokeReturn depth value := by
    refine of_keeps fun first memory source _ hsame => ?_
    have hstep : Parallel (Memory.SameOutside SourceArea) (first.returns.poke depth value) := inferInstance
    rcases (hstep.parallel _ _ hsame).cases with
      ⟨_, _, _, hfst, hsnd, hends⟩ | ⟨_, _, _, hfst, hsnd, hends⟩ <;>
      (simp only [pokeReturn, hfst, hsnd]; exact ⟨rfl, _, _, hends, rfl⟩)
  ip := ask fun _ _ _ _ _ => rfl

end Abreast

end Machine

end ThreadedForth
