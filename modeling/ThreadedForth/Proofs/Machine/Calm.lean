
import ThreadedForth.Proofs.Machine.Steady

/-!
# Words that only append

Most words write to the user cells and buffers, to the data and return stacks, and to the gap between code and
names, from its lower end on. What stands in the dictionary and on the control stack stays as it is, whether the
word succeeds or not. `Calm` says so of two machines. It is a steady invariant, so every word that is made of
steady steps is calm, and the steps of the interpreter around the words are calm too.
-/

namespace ThreadedForth

open Layout Keeps Memory Stack WordM

namespace Machine

/-- The byte is part of neither the dictionary nor the control stack. -/
def Spare (m : Machine) (address : Nat) : Prop :=
  address < dictionaryStart ∨
    (m.dictionary.here ≤ address ∧ address < m.dictionary.names) ∨ returnStack ≤ address

/-- All that has happened to the dictionary and to the control stack is that code was appended. -/
structure Calm (before after : Machine) : Prop where
  bounded : after.Bounded
  control : after.control = before.control
  here_le : before.dictionary.here ≤ after.dictionary.here
  dictionary : after.dictionary = { before.dictionary with here := after.dictionary.here }
  memory : Memory.SameOutside before.Spare before.memory after.memory

namespace Calm

variable {before middle after : Machine}

theorem refl (hb : before.Bounded) : before.Calm before where
  bounded := hb
  control := rfl
  here_le := Nat.le_refl _
  dictionary := rfl
  memory := .refl _ _

theorem names_eq (hcalm : before.Calm after) : after.dictionary.names = before.dictionary.names := by
  rw [hcalm.dictionary]

theorem latest_eq (hcalm : before.Calm after) : after.dictionary.latest = before.dictionary.latest := by
  rw [hcalm.dictionary]

theorem spare (hcalm : before.Calm after) {addr : Nat} (hspare : after.Spare addr) : before.Spare addr := by
  have hhere := hcalm.here_le
  have hnames := hcalm.names_eq
  rcases hspare with hlow | ⟨hlow, hhigh⟩ | hhigh
  · exact .inl hlow
  · exact .inr (.inl ⟨by omega, by omega⟩)
  · exact .inr (.inr hhigh)

theorem trans (hfst : before.Calm middle) (hsnd : middle.Calm after) : before.Calm after where
  bounded := hsnd.bounded
  control := hsnd.control.trans hfst.control
  here_le := Nat.le_trans hfst.here_le hsnd.here_le
  dictionary := by rw [hsnd.dictionary, hfst.dictionary]
  memory := hfst.memory.trans (hsnd.memory.mono fun _ => hfst.spare)

theorem above (hb : after.Bounded) (hctl : after.control = before.control)
    (hdict : after.dictionary = before.dictionary)
    (hmem : Memory.SameOutside (returnStack ≤ ·) before.memory after.memory) : before.Calm after where
  bounded := hb
  control := hctl
  here_le := Nat.le_of_eq (congrArg Dictionary.here hdict.symm)
  dictionary := by rw [hdict]
  memory := hmem.mono fun _ hhigh => .inr (.inr hhigh)

theorem below (hb : after.Bounded) (hctl : after.control = before.control)
    (hdict : after.dictionary = before.dictionary)
    (hmem : Memory.SameOutside (· < dictionaryStart) before.memory after.memory) : before.Calm after where
  bounded := hb
  control := hctl
  here_le := Nat.le_of_eq (congrArg Dictionary.here hdict.symm)
  dictionary := by rw [hdict]
  memory := hmem.mono fun _ hlow => .inl hlow

end Calm

end Machine

/-! ### Steady steps are calm -/

namespace Memory

variable {area : Nat → Prop} {origin : Memory}

theorem keeps_frame {test : Memory → Except Fault Unit} {change : Memory → Memory}
    (hchange : ∀ memory, test memory = .ok () → SameOutside area memory (change memory)) :
    Keeps (SameOutside area origin) (guarded test change) := by
  refine .of fun memory hsame => ?_
  rcases guarded_cases test change memory with ⟨htest, hok⟩ | ⟨fault, _, herror⟩
  · rw [stateAfter_of_ok hok]
    exact hsame.trans (hchange memory htest)
  · rw [stateAfter_of_error herror]
    exact hsame

theorem keeps_writeCell {addr : Nat} (value : Cell)
    (harea : ∀ other, addr ≤ other → other < addr + 4 → area other) :
    Keeps (SameOutside area origin) (writeCell addr value) :=
  keeps_frame fun memory _ => (sameOutside_setCell memory addr value).mono fun other hin => harea other hin.1 hin.2

theorem keeps_writeBytes {addr : Nat} (values : List UInt8)
    (harea : ∀ other, addr ≤ other → other < addr + values.length → area other) :
    Keeps (SameOutside area origin) (writeBytes addr values) :=
  keeps_frame fun memory _ => (sameOutside_setBytes memory addr values).mono fun other hin => harea other hin.1 hin.2

theorem keeps_move {source target length : Nat}
    (harea : ∀ other, target ≤ other → other < target + length → area other) :
    Keeps (SameOutside area origin) (move source target length) := by
  refine keeps_frame fun memory htest => ?_
  obtain ⟨_, hsource, _⟩ := of_question_eq_ok htest
  have hlen : (memory.bytesAt source length).length = length :=
    length_bytesAt memory source length (of_check_eq_ok hsource)
  refine (sameOutside_setBytes memory target _).mono fun other hin => ?_
  rw [hlen] at hin
  exact harea other hin.1 hin.2

end Memory

/-- The bytes up to the control stack are the same. -/
abbrev Memory.Under (origin : Memory) : Memory → Prop := SameOutside (returnStack ≤ ·) origin

namespace Stack

variable {origin : Memory} {kind : StackKind} {region : Region} {stack : Stack}

theorem keeps_cell (addr : Nat) (value : Cell) (haddr : returnStack ≤ addr) :
    Keeps origin.Under (writeCell addr value) :=
  keeps_writeCell value fun _ hlow _ => Nat.le_trans haddr hlow

theorem keeps_push (hlimit : returnStack ≤ stack.limit) (value : Cell) :
    Keeps origin.Under (stack.push value) := by
  unfold push
  split
  · infer_instance
  · have := @keeps_cell origin (stack.top - 4) value (by omega)
    infer_instance

theorem keeps_pushDouble (hlimit : returnStack ≤ stack.limit) (value : DoubleCell) :
    Keeps origin.Under (stack.pushDouble value) := by
  refine .of fun memory hsame => ?_
  rw [pushDouble]
  split
  · exact hsame
  · cases hlow : stack.push (DoubleCell.low value) memory with
    | error fault middle =>
      rw [stateAfter_of_error (bind_of_error hlow)]
      exact (keeps_push hlimit _).of_error hsame hlow
    | ok lowered middle =>
      have hmid : origin.Under middle := (keeps_push hlimit _).of_ok hsame hlow
      have hlowered : lowered.limit = stack.limit := by
        rw [push, if_neg (by omega)] at hlow
        obtain ⟨_, _, _, hpure⟩ := of_bind_eq_ok hlow
        cases hpure
        rfl
      rw [stateAfter, bind_of_ok hlow]
      exact (keeps_push (hlowered ▸ hlimit) _).keeps middle hmid

end Stack

namespace Machine

variable {origin m : Machine}

variable {α : Type}

theorem keeps_calm_low {step : MemoryM α} [Keeps Bounded (onMemory step)]
    (hstep : ∀ memory, Keeps (Memory.SameOutside (· < dictionaryStart) memory) step) :
    Keeps origin.Calm (onMemory step) := by
  refine .of fun m hcalm => hcalm.trans ?_
  have hb : (stateAfter (onMemory step) m).Bounded := keeps inferInstance m hcalm.bounded
  have hmem := (hstep m.memory).keeps m.memory (.refl _ _)
  rw [stateAfter, onMemory] at hb ⊢
  rw [stateAfter] at hmem
  cases hres : step m.memory <;> (rw [hres] at hb hmem; exact .below hb rfl rfl hmem)

theorem returnStack_le_dataStack : returnStack ≤ dataStack := by decide

theorem Bounded.returns_above (hb : m.Bounded) : returnStack ≤ m.returns.limit :=
  Nat.le_of_eq hb.returns.limit_eq.symm

/-- All that has changed are the data and return stacks, and memory from the return stack on. -/
structure OnStacks (before after : Machine) : Prop where
  bounded : after.Bounded
  machine : after = { before with memory := after.memory, data := after.data, returns := after.returns }
  memory : before.memory.Under after.memory

namespace OnStacks

variable {after before : Machine} {α : Type}

theorem trans {middle : Machine} (hfst : before.OnStacks middle) (hsnd : middle.OnStacks after) :
    before.OnStacks after where
  bounded := hsnd.bounded
  machine := by rw [hsnd.machine, hfst.machine]
  memory := hfst.memory.trans hsnd.memory

theorem pushing {step : Stack → MemoryM Stack} (hkeeps : Keeps Bounded (pushing step))
    (hstep : ∀ (stack : Stack) (memory : Memory), returnStack ≤ stack.limit → stack.limit ≤ stack.top →
      Keeps memory.Under (step stack)) : Keeps origin.OnStacks (WordM.pushing step) := by
  refine .of fun m hstacks => hstacks.trans ?_
  have hb : (stateAfter (WordM.pushing step) m).Bounded := hkeeps.keeps m hstacks.bounded
  have hlimit : returnStack ≤ m.data.limit := by
    rw [hstacks.bounded.data.limit_eq]
    exact returnStack_le_dataStack
  have hmem := (hstep m.data m.memory hlimit hstacks.bounded.data.limit_le).keeps m.memory
    (.refl _ _)
  rw [stateAfter, WordM.pushing] at hb ⊢
  rw [stateAfter] at hmem
  cases hres : step m.data m.memory <;> (rw [hres] at hb hmem; exact ⟨hb, rfl, hmem⟩)

theorem popping {step : Stack → Memory → Except Fault (α × Stack)}
    (hkeeps : Keeps Bounded (WordM.popping step)) : Keeps origin.OnStacks (WordM.popping step) := by
  refine .of fun m hstacks => hstacks.trans ?_
  have hb : (stateAfter (WordM.popping step) m).Bounded := hkeeps.keeps m hstacks.bounded
  rw [stateAfter, WordM.popping] at hb ⊢
  cases hres : step m.data m.memory <;> (rw [hres] at hb; exact ⟨hb, rfl, .refl _ _⟩)

instance (value : Cell) : Keeps origin.OnStacks (push value) :=
  pushing (inferInstanceAs (Keeps _ (push value))) fun _ _ hlimit _ => keeps_push hlimit value

instance : Keeps origin.OnStacks WordM.pop := popping (inferInstanceAs (Keeps _ WordM.pop))

instance (value : DoubleCell) : Keeps origin.OnStacks (pushDouble value) :=
  pushing (inferInstanceAs (Keeps _ (pushDouble value))) fun _ _ hlimit _ => keeps_pushDouble hlimit value

instance : Keeps origin.OnStacks WordM.popDouble := popping (inferInstanceAs (Keeps _ WordM.popDouble))

instance (depth : Nat) : Keeps origin.OnStacks (rollUp depth) :=
  pushing (inferInstanceAs (Keeps _ (rollUp depth))) fun stack memory hlimit htop => by
    have : Keeps memory.Under (stack.roll depth) := keeps_roll keeps_cell (Nat.le_trans hlimit htop) depth
    infer_instance

instance : Keeps origin.OnStacks (update fun m => { m with data := m.data.clear }) :=
  .of fun _ hstacks => hstacks.trans ⟨hstacks.bounded.withData hstacks.bounded.data.clear, rfl, .refl _ _⟩

instance (value : Cell) : Keeps origin.OnStacks (pushReturn value) := by
  refine .of fun m hstacks => hstacks.trans ?_
  have hb : (stateAfter (pushReturn value) m).Bounded := keeps inferInstance m hstacks.bounded
  have hmem := (keeps_push hstacks.bounded.returns_above value).keeps m.memory (.refl _ _)
  rw [stateAfter, pushReturn] at hb ⊢
  rw [stateAfter] at hmem
  cases hres : m.returns.push value m.memory <;>
    (rw [hres] at hb hmem; exact ⟨hb, rfl, hmem⟩)

instance : Keeps origin.OnStacks WordM.popReturn := by
  refine .of fun m hstacks => hstacks.trans ?_
  have hb : (stateAfter WordM.popReturn m).Bounded := keeps inferInstance m hstacks.bounded
  rw [stateAfter, WordM.popReturn] at hb ⊢
  cases hres : m.returns.pop m.memory <;>
    (rw [hres] at hb; exact ⟨hb, rfl, .refl _ _⟩)

instance (depth : Nat) (value : Cell) : Keeps origin.OnStacks (pokeReturn depth value) := by
  refine .of fun m hstacks => hstacks.trans ?_
  have hb : (stateAfter (pokeReturn depth value) m).Bounded := keeps inferInstance m hstacks.bounded
  have htop := Nat.le_trans hstacks.bounded.returns_above hstacks.bounded.returns.limit_le
  have hmem := (keeps_poke keeps_cell htop depth value).keeps m.memory (.refl _ _)
  rw [stateAfter, pokeReturn] at hb ⊢
  rw [stateAfter] at hmem
  cases hres : m.returns.poke depth value m.memory <;>
    (rw [hres] at hb hmem; exact ⟨hb, rfl, hmem⟩)

theorem keeps {holds : Machine → Prop} (hholds : ∀ m, holds m → m.Bounded)
    (hstep : ∀ before after, holds before → before.OnStacks after → holds after) (action : WordM α)
    [hkeeps : ∀ origin : Machine, Keeps origin.OnStacks action] : Keeps holds action :=
  .of fun m hm => hstep m _ hm ((hkeeps m).keeps m ⟨hholds m hm, rfl, .refl _ _⟩)

theorem calm (hstacks : before.OnStacks after) : before.Calm after :=
  .above hstacks.bounded (by rw [hstacks.machine]) (by rw [hstacks.machine]) hstacks.memory

end OnStacks

theorem keeps_calm_of_onStacks (action : WordM α)
    [∀ origin : Machine, Keeps origin.OnStacks action] : Keeps origin.Calm action :=
  OnStacks.keeps (fun _ hcalm => hcalm.bounded) (fun _ _ hcalm hstacks => hcalm.trans hstacks.calm) action

theorem Calm.appended (hb : m.Bounded) {here : Nat} {memory : Memory}
    (hhere : m.dictionary.here ≤ here) (hnames : here ≤ m.dictionary.names)
    (hmem : Memory.SameOutside (Region.mk m.dictionary.here here).Holds m.memory memory) :
    m.Calm { m with dictionary := { m.dictionary with here }, memory } where
  bounded := (hb.withDictionary (hb.dictionary.move (Nat.le_trans hb.dictionary.start_le hhere)
    hnames)).withMemory hmem.size
  control := rfl
  here_le := hhere
  dictionary := rfl
  memory := hmem.mono fun _ hin => .inr (.inl ⟨hin.1, Nat.lt_of_lt_of_le hin.2 hnames⟩)

instance : Steady (Diagonal origin.Calm) where
  update hchange := of fun m hcalm =>
    have halike := (hchange m [] [] #[]).1
    hcalm.trans (.above (hcalm.bounded.alike halike) halike.control halike.dictionary (halike.memory ▸ .refl _ _))
  push _ := keeps_calm_of_onStacks _
  pop := keeps_calm_of_onStacks _
  pushDouble _ := keeps_calm_of_onStacks _
  popDouble := keeps_calm_of_onStacks _
  rollUp _ := keeps_calm_of_onStacks _
  clear := keeps_calm_of_onStacks _
  pushReturn _ := keeps_calm_of_onStacks _
  popReturn := keeps_calm_of_onStacks _
  pokeReturn _ _ := keeps_calm_of_onStacks _
  setUser {addr} haddr value := keeps_calm_low fun _ => keeps_writeCell value fun _ _ hhigh => by
    have hall : ∀ cell ∈ userCells, cell + 4 ≤ dictionaryStart := by decide
    exact Nat.lt_of_lt_of_le hhigh (hall addr haddr)
  fillInput {bytes} hfits := keeps_calm_low fun _ => keeps_writeBytes bytes fun other _ hhigh => by
    have hbuffer : inputBuffer + inputBufferSize ≤ dictionaryStart := by decide
    omega
  fillPad source {length} hfits := keeps_calm_low fun _ => keeps_move fun other _ hhigh => by
    have hbuffer : pad + padSize ≤ dictionaryStart := by decide
    omega
  fillNumber {bytes} hfits := keeps_calm_low fun _ => keeps_writeBytes bytes fun other _ hhigh => by
    have hbuffer : numberBuffer + numberBufferSize ≤ dictionaryStart := by decide
    omega
  comma value := by
    refine of fun m hcalm => hcalm.trans ?_
    rw [stateAfter, comma, onDictionary]
    rcases m.dictionary.comma_cases value m.memory with ⟨fault, herror⟩ | ⟨hroom, hok⟩
    · rw [bind_of_error herror]
      exact .refl hcalm.bounded
    · rw [bind_of_ok hok]
      exact .appended hcalm.bounded (Nat.le_add_right _ 4) hroom (sameOutside_setCell _ _ value)
  commaByte value := by
    refine of fun m hcalm => hcalm.trans ?_
    rw [stateAfter, commaByte, onDictionary]
    rcases m.dictionary.commaByte_cases value m.memory with ⟨fault, herror⟩ | ⟨hroom, hok⟩
    · rw [bind_of_error herror]
      exact .refl hcalm.bounded
    · rw [bind_of_ok hok]
      exact .appended hcalm.bounded (Nat.le_add_right _ 1) hroom (sameOutside_setByte _ _ value)
  align := by
    refine of fun m hcalm => hcalm.trans ?_
    by_cases hroom : m.dictionary.names < aligned m.dictionary.here
    · rw [stateAfter, moveHere, Dictionary.align, if_pos hroom]
      exact .refl hcalm.bounded
    · rw [stateAfter, moveHere, Dictionary.align, if_neg hroom]
      exact .appended hcalm.bounded (le_aligned _) (Nat.le_of_not_lt hroom) (.refl _ _)

theorem keeps_calm_allot {amount : Cell} (hamount : ¬ amount < 0) :
    Keeps origin.Calm (moveHere (·.allot amount)) := by
  refine .of fun m hcalm => hcalm.trans ?_
  have hnonneg : 0 ≤ amount.toInt := by
    rw [Int32.lt_iff_toInt_lt] at hamount
    exact Int.not_lt.1 hamount
  rw [stateAfter, moveHere]
  cases hallot : m.dictionary.allot amount with
  | error fault => exact .refl hcalm.bounded
  | ok moved =>
    rw [Dictionary.allot] at hallot
    split at hallot
    · cases hallot
    · cases hallot
      exact .appended hcalm.bounded (by omega) (by omega) (.refl _ _)

end Machine

/-! ### The steps around the words -/

namespace WordM

variable {origin : Machine}

theorem keeps_calm_update {change : Machine → Machine}
    (hchange : ∀ m : Machine, (change m).memory = m.memory ∧ (change m).data = m.data ∧
      (change m).returns = m.returns ∧ (change m).control = m.control ∧
      (change m).dictionary = m.dictionary) : Keeps origin.Calm (update change) := by
  refine .of fun m hcalm => hcalm.trans ?_
  obtain ⟨hmem, hdata, hret, hctl, hdict⟩ := hchange m
  refine .above ?_ hctl hdict (hmem ▸ .refl _ _)
  exact ⟨hmem ▸ hcalm.bounded.size_eq, hdata ▸ hcalm.bounded.data, hret ▸ hcalm.bounded.returns,
    hctl ▸ hcalm.bounded.control, hctl ▸ hcalm.bounded.paired, hdict ▸ hcalm.bounded.dictionary⟩

instance : Keeps origin.Calm suspendSource := by
  have (toIn : Cell) : Keeps origin.Calm (update fun m =>
      { m with suspended := ⟨m.source, toIn⟩ :: m.suspended }) :=
    keeps_calm_update fun _ => ⟨rfl, rfl, rfl, rfl, rfl⟩
  unfold suspendSource
  infer_instance

instance : Keeps origin.Calm resumeSource := by
  refine .of fun m hcalm => ?_
  cases hsusp : m.suspended with
  | nil =>
    simp only [stateAfter, resumeSource, hsusp]
    exact hcalm
  | cons first rest =>
    have hresumed : origin.Calm { m with source := first.source, suspended := rest } :=
      hcalm.trans (.above { hcalm.bounded with } rfl rfl (.refl _ _))
    simp only [stateAfter, resumeSource, hsusp]
    exact (inferInstance : Keeps origin.Calm (writeCell toIn first.toIn)).keeps _ hresumed

end WordM

namespace Interpreter

variable {origin : Machine}

instance (addr : Nat) : Keeps origin.Calm (dispatch.enter addr) := by
  unfold dispatch.enter
  infer_instance

instance : Keeps origin.Calm fetchToken := by
  unfold fetchToken
  infer_instance

instance (compiling : Bool) (number : Number) : Keeps origin.Calm (acceptNumber compiling number) := by
  cases number <;> (simp only [acceptNumber]; infer_instance)

instance (compiling : Bool) (token : String) : Keeps origin.Calm (interpretNumber compiling token) := by
  unfold interpretNumber
  refine Parallel.next fun base => ?_
  split <;> infer_instance

instance : Keeps origin.Calm countLine := by
  refine keeps_calm_update fun m => ?_
  split <;> exact ⟨rfl, rfl, rfl, rfl, rfl⟩

instance (path : String) : Keeps origin.Calm (openFile path) := by
  have : Keeps origin.Calm (update fun m =>
      { m with unknownPaths := path :: m.unknownPaths }) :=
    keeps_calm_update fun _ => ⟨rfl, rfl, rfl, rfl, rfl⟩
  unfold openFile
  refine Parallel.next fun m => ?_
  split <;> infer_instance

end Interpreter

end ThreadedForth
