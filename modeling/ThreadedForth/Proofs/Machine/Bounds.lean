
import ThreadedForth.Proofs.Dictionary.Writes
import ThreadedForth.Proofs.Invariant

/-!
# The bounds of the machine

`Machine.Bounded` says that memory has its size, that each stack lies in its own region with its top
between its ends, and that the two ends of the dictionary have not met. Every action of every word
keeps it, whatever it stores in memory: the cursors are kept outside memory, and each moves only after
its own check.
-/

namespace ThreadedForth

open Layout Dictionary Keeps Memory

/-- The region lies inside memory and starts and ends at a cell. -/
structure Region.Usable (region : Region) : Prop where
  start_aligned : region.start % 4 = 0
  finish_aligned : region.finish % 4 = 0
  finish_le : region.finish ≤ memorySize

/-- The stack fills the region from its end downward, in whole cells. -/
structure Stack.Fits (kind : StackKind) (region : Region) (stack : Stack) : Prop where
  usable : region.Usable
  kind_eq : stack.kind = kind
  limit_eq : stack.limit = region.start
  base_eq : stack.base = region.finish
  limit_le : stack.limit ≤ stack.top
  top_le : stack.top ≤ stack.base
  whole : (stack.base - stack.top) % 4 = 0

/-- The cursors of the dictionary lie in its region, those of names above those of code. -/
structure Dictionary.Fits (region : Region) (dictionary : Dictionary) : Prop where
  start_eq : dictionary.start = region.start
  start_le : dictionary.start ≤ dictionary.here
  here_le : dictionary.here ≤ dictionary.names
  names_le : dictionary.names ≤ region.finish

namespace Layout

def dataRegion : Region := ⟨dataStack, dataStack + dataCells * 4⟩

def returnRegion : Region := ⟨returnStack, returnStack + returnCells * 4⟩

def controlRegion : Region := ⟨controlStack, controlStack + controlCells * 4⟩

def dictionaryRegion : Region := ⟨dictionaryStart, dictionaryEnd⟩

/-- The user cells and buffers. -/
def lowRegions : List Region :=
  [⟨state, state + 4⟩, ⟨base, base + 4⟩, ⟨toIn, toIn + 4⟩, ⟨pointCount, pointCount + 4⟩,
    ⟨inputBuffer, inputBuffer + inputBufferSize⟩, ⟨pad, pad + padSize⟩,
    ⟨numberBuffer, numberBuffer + numberBufferSize⟩]

/-- What lies above what. -/
theorem order :
    (0 < state ∧ state + 4 = base ∧ base + 4 = toIn ∧ toIn + 4 = pointCount ∧ pointCount + 4 = inputBuffer) ∧
    (inputBuffer + inputBufferSize = pad ∧ pad + padSize = numberBuffer ∧
      numberBuffer + numberBufferSize = dictionaryStart) ∧
    (dictionaryRegion.start = dictionaryStart ∧ dictionaryStart < dictionaryEnd ∧
      dictionaryRegion.finish = dictionaryEnd) ∧
    (controlRegion.start = dictionaryEnd ∧ controlRegion.finish = returnStack ∧ controlStack = dictionaryEnd ∧
      dictionaryEnd + 512 = returnStack) ∧
    (returnRegion.start = returnStack ∧ returnRegion.finish = dataStack ∧
      returnStack + 4 * returnCells = dataStack ∧ returnCells = 256) ∧
    dataRegion.start = dataStack ∧ dataRegion.finish = memorySize ∧ dataStack + 4 * dataCells = memorySize ∧
    dataCells = 256 ∧ memorySize < 2 ^ 31 := by
  decide

end Layout

theorem Dictionary.Fits.move {region : Region} {dictionary : Dictionary} (hfits : dictionary.Fits region)
    {here : Nat} (hstart : dictionary.start ≤ here) (hnames : here ≤ dictionary.names) :
    ({ dictionary with here } : Dictionary).Fits region :=
  ⟨hfits.start_eq, hstart, hnames, hfits.names_le⟩

/-- Memory and the cursors are as they should be. Markers take two cells, so the control stack holds
an even number of them. -/
structure Machine.Bounded (m : Machine) : Prop where
  size_eq : m.memory.size = memorySize
  data : m.data.Fits .data dataRegion
  returns : m.returns.Fits .return returnRegion
  control : m.control.Fits .control controlRegion
  paired : (m.control.base - m.control.top) % 8 = 0
  dictionary : m.dictionary.Fits dictionaryRegion

/-! ### Stacks -/

namespace Stack

variable {kind : StackKind} {region : Region} {stack : Stack} {memory : Memory}

section

variable (hfits : stack.Fits kind region)

include hfits

theorem Fits.aligned : stack.top % 4 = 0 := by
  obtain ⟨⟨_, hfin, _⟩, _, _, hbase, _, hhigh, hwhole⟩ := hfits
  omega

theorem push_of_room (hsize : memory.size = memorySize) (value : Cell) (hroom : stack.limit + 4 ≤ stack.top) :
    stack.push value memory =
      .ok { stack with top := stack.top - 4 } (memory.setCell (stack.top - 4) value) := by
  have halign := hfits.aligned
  obtain ⟨⟨_, _, hfin⟩, _, _, hbase, _, hhigh, _⟩ := hfits
  rw [push, if_neg (by omega)]
  exact bind_of_ok (writeCell_eq_ok value (by omega) (by omega))

theorem push_of_full (memory : Memory) (value : Cell) (hfull : stack.top < stack.limit + 4) :
    stack.push value memory = .error (.stackOverflow kind) memory := by
  rw [push, if_pos (by omega), hfits.kind_eq]
  rfl

theorem pop_of_items (hsize : memory.size = memorySize) (hitems : stack.top < stack.base) :
    stack.pop memory = .ok (memory.cellAt stack.top, { stack with top := stack.top + 4 }) := by
  have halign := hfits.aligned
  obtain ⟨⟨_, _, hfin⟩, _, _, hbase, _, hhigh, hwhole⟩ := hfits
  rw [pop, if_neg (by omega), readCell_eq_ok (by omega) halign]
  rfl

theorem pop_of_empty (memory : Memory)
    (hempty : stack.base ≤ stack.top) : stack.pop memory = .error (.stackUnderflow kind) := by
  rw [pop, if_pos hempty, hfits.kind_eq]

theorem Fits.moveTop {top : Nat} (hlow : stack.limit ≤ top)
    (hhigh : top ≤ stack.base) (hwhole : (stack.base - top) % 4 = 0) : ({ stack with top } : Stack).Fits kind region :=
  ⟨hfits.usable, hfits.kind_eq, hfits.limit_eq, hfits.base_eq, hlow, hhigh, hwhole⟩

theorem Fits.lower (hroom : stack.limit + 4 ≤ stack.top) :
    ({ stack with top := stack.top - 4 } : Stack).Fits kind region := by
  have hhigh := hfits.top_le
  have hwhole := hfits.whole
  exact hfits.moveTop (by omega) (by omega) (by omega)

theorem Fits.raise (hitems : stack.top < stack.base) :
    ({ stack with top := stack.top + 4 } : Stack).Fits kind region := by
  have hlow := hfits.limit_le
  have hwhole := hfits.whole
  exact hfits.moveTop (by omega) (by omega) (by omega)

theorem push_cases (hsize : memory.size = memorySize) (value : Cell) :
    stack.push value memory = .error (.stackOverflow kind) memory ∨
      (stack.push value memory =
          .ok { stack with top := stack.top - 4 } (memory.setCell (stack.top - 4) value) ∧
        ({ stack with top := stack.top - 4 } : Stack).Fits kind region) := by
  by_cases hroom : stack.limit + 4 ≤ stack.top
  · exact .inr ⟨push_of_room hfits hsize value hroom, hfits.lower hroom⟩
  · exact .inl (push_of_full hfits memory value (by omega))

theorem pop_cases (hsize : memory.size = memorySize) :
    stack.pop memory = .error (.stackUnderflow kind) ∨
      (stack.pop memory = .ok (memory.cellAt stack.top, { stack with top := stack.top + 4 }) ∧
        ({ stack with top := stack.top + 4 } : Stack).Fits kind region) := by
  by_cases hitems : stack.top < stack.base
  · exact .inr ⟨pop_of_items hfits hsize hitems, hfits.raise hitems⟩
  · exact .inl (pop_of_empty hfits memory (by omega))

end

variable {after : Stack} {value : Cell}

variable (hfits : stack.Fits kind region)

include hfits

theorem Fits.push (hsize : memory.size = memorySize)
    {next : Memory} (hpush : stack.push value memory = .ok after next) : after.Fits kind region := by
  rcases push_cases hfits hsize value with herror | ⟨hok, hlower⟩
  · cases hpush.symm.trans herror
  · cases hpush.symm.trans hok
    exact hlower

theorem Fits.pop (hsize : memory.size = memorySize) (hpop : stack.pop memory = .ok (value, after)) :
    after.Fits kind region := by
  rcases pop_cases hfits hsize with herror | ⟨hok, hraise⟩
  · cases hpop.symm.trans herror
  · cases hpop.symm.trans hok
    exact hraise

theorem Fits.popDouble (hsize : memory.size = memorySize)
    {answer : DoubleCell × Stack} (hpop : stack.popDouble memory = .ok answer) : answer.2.Fits kind region := by
  rw [Stack.popDouble] at hpop
  obtain ⟨_, _, hpop⟩ := of_question_eq_ok hpop
  obtain ⟨⟨high, middle⟩, hhigh, hpop⟩ := of_question_eq_ok hpop
  obtain ⟨⟨low, after⟩, hlow, hpop⟩ := of_question_eq_ok hpop
  cases hpop
  exact (hfits.pop hsize hhigh).pop hsize hlow

theorem Fits.cursors :
    stack.limit + (stack.top - stack.limit) = stack.top ∧
      stack.top + (stack.base - stack.top) = stack.base ∧
      stack.depth + (stack.capacity - stack.depth) = stack.capacity := by
  have hlow := hfits.limit_le
  have hhigh := hfits.top_le
  have hdepth : stack.depth ≤ stack.capacity :=
    Nat.div_le_div_right (Nat.sub_le_sub_left hlow stack.base)
  exact ⟨Nat.add_sub_of_le hlow, Nat.add_sub_of_le hhigh, Nat.add_sub_of_le hdepth⟩

theorem Fits.clear : stack.clear.Fits kind region :=
  hfits.moveTop (Nat.le_trans hfits.limit_le hfits.top_le) (Nat.le_refl _) (by simp)

end Stack

/-! ### Memory -/

namespace Memory

def HasSize (size : Nat) (memory : Memory) : Prop := memory.size = size

variable {size : Nat}

theorem keeps_guarded (test : Memory → Except Fault Unit) (change : Memory → Memory)
    (hchange : ∀ memory, (change memory).size = memory.size) : Keeps (HasSize size) (guarded test change) := by
  refine .of fun memory hsize => ?_
  rcases guarded_cases test change memory with ⟨_, hok⟩ | ⟨fault, _, herror⟩
  · rw [stateAfter_of_ok hok]
    exact (hchange memory).trans hsize
  · rw [stateAfter_of_error herror]
    exact hsize

instance (addr : Nat) (value : Cell) : Keeps (HasSize size) (writeCell addr value) :=
  keeps_guarded _ _ fun memory => size_setCell memory addr value

instance (addr : Nat) (value : UInt8) : Keeps (HasSize size) (writeByte addr value) :=
  keeps_guarded _ _ fun memory => size_setByte memory addr value

instance (addr : Nat) (value : DoubleCell) : Keeps (HasSize size) (writeDouble addr value) :=
  keeps_guarded _ _ fun memory => by rw [size_setCell, size_setCell]

instance (addr : Nat) (amount : Cell) : Keeps (HasSize size) (addToCell addr amount) :=
  keeps_guarded _ _ fun memory => size_setCell memory addr _

instance (addr : Nat) (values : List UInt8) : Keeps (HasSize size) (writeBytes addr values) :=
  keeps_guarded _ _ fun memory => size_setBytes memory addr values

instance (addr length : Nat) (value : UInt8) : Keeps (HasSize size) (fill addr length value) :=
  keeps_guarded _ _ fun memory => size_setBytes memory addr _

instance (addr length : Nat) : Keeps (HasSize size) (erase addr length) :=
  inferInstanceAs (Keeps _ (fill addr length 0))

instance (source target length : Nat) : Keeps (HasSize size) (move source target length) :=
  keeps_guarded _ _ fun memory => size_setBytes memory target _

end Memory

namespace Dictionary

variable {size : Nat}

instance (header : Nat) (change : Cell → Cell) : Keeps (Memory.HasSize size) (reflag header change) := by
  refine .of fun memory hsize => ?_
  rcases reflag_cases header change memory with ⟨fault, herror⟩ | hok
  · rw [stateAfter_of_error herror]
    exact hsize
  · rw [stateAfter_of_ok hok]
    exact (size_setCell memory _ _).trans hsize

instance (header : Nat) (flag : Cell) : Keeps (Memory.HasSize size) (setFlag header flag) :=
  inferInstanceAs (Keeps _ (reflag header (· ||| flag)))

instance (header : Nat) (flag : Cell) : Keeps (Memory.HasSize size) (clearFlag header flag) :=
  inferInstanceAs (Keeps _ (reflag header (· &&& ~~~flag)))

instance (header : Nat) (code : Cell) (does : Nat) : Keeps (Memory.HasSize size) (setDoes header code does) := by
  unfold setDoes
  infer_instance

end Dictionary

namespace Stack

variable {size : Nat}

instance (stack : Stack) (value : Cell) : Keeps (Memory.HasSize size) (stack.push value) := by
  unfold push
  infer_instance

instance (stack : Stack) (value : DoubleCell) : Keeps (Memory.HasSize size) (stack.pushDouble value) := by
  unfold pushDouble
  infer_instance

section Cells

variable {holds : Memory → Prop} {bottom : Nat}
  (hcell : ∀ addr value, bottom ≤ addr → Keeps holds (writeCell addr value))

include hcell

variable {stack : Stack}

theorem keeps_poke (htop : bottom ≤ stack.top) (depth : Nat) (value : Cell) : Keeps holds (stack.poke depth value) := by
  have := hcell (stack.top + depth * 4) value (by omega)
  refine of_question (fun _ => stack.check (depth + 1))
    (fun _ => writeCell (stack.top + depth * 4) value) ?_ ?_
  · intro memory answer hcheck
    simp only [poke, hcheck]
  · intro memory fault hcheck
    simp only [poke, hcheck]

theorem keeps_sink {top : Nat} (htop : bottom ≤ top) (count : Nat) : Keeps holds (sink top count) := by
  induction count with
  | zero => exact Parallel.pure ()
  | succ count ih =>
    have (value : Cell) := hcell (top + (count + 1) * 4) value (by omega)
    refine of_question (fun memory => memory.readCell (top + count * 4))
      (fun value => do writeCell (top + (count + 1) * 4) value; sink top count) ?_ ?_
    · intro memory value hread
      cases hwrite : writeCell (top + (count + 1) * 4) value memory with
      | ok answer after => simp only [sink, hread, hwrite, bind_of_ok hwrite]
      | error fault after => simp only [sink, hread, hwrite, bind_of_error hwrite]
    · intro memory fault hread
      simp only [sink, hread]

theorem keeps_roll (htop : bottom ≤ stack.top) (depth : Nat) : Keeps holds (stack.roll depth) := by
  by_cases hdepth : depth = 0
  · subst hdepth
    exact Parallel.pure ()
  · have := keeps_sink hcell htop depth
    have (value : Cell) := hcell stack.top value htop
    refine of_question (fun memory => stack.peek memory depth)
      (fun value => do sink stack.top depth; writeCell stack.top value) ?_ ?_
    · intro memory value hpeek
      rw [roll, if_neg hdepth, hpeek]
    · intro memory fault hpeek
      rw [roll, if_neg hdepth, hpeek]

end Cells

instance (stack : Stack) (depth : Nat) (value : Cell) : Keeps (Memory.HasSize size) (stack.poke depth value) :=
  keeps_poke (fun _ _ _ => inferInstance) (Nat.zero_le _) depth value

instance (stack : Stack) (depth : Nat) : Keeps (Memory.HasSize size) (stack.roll depth) :=
  keeps_roll (fun _ _ _ => inferInstance) (Nat.zero_le _) depth

end Stack

/-! ### Basic actions -/

namespace Machine

/-- The machine with a marker more on the control stack, its address below its tag. -/
def withMarker (m : Machine) (marker : Marker) : Machine :=
  { m with
    control := { m.control with top := m.control.top - 4 - 4 }
    memory := (m.memory.setCell (m.control.top - 4) (Cell.ofNat marker.address)).setCell
      (m.control.top - 4 - 4) marker.tag.toCell }

/-- The machine with its newest marker taken. -/
def withoutMarker (m : Machine) : Machine :=
  { m with control := { m.control with top := m.control.top + 4 + 4 } }

end Machine

namespace Machine.Bounded

variable {m : Machine}

variable (hb : m.Bounded)

include hb

theorem withMemory {memory : Memory} (hmem : memory.size = m.memory.size) : ({ m with memory } : Machine).Bounded :=
  { hb with size_eq := hmem.trans hb.size_eq }

theorem withDictionary {dictionary : Dictionary} (hdict : dictionary.Fits dictionaryRegion) :
    ({ m with dictionary } : Machine).Bounded :=
  { hb with dictionary := hdict }

theorem withData {data : Stack} (hdata : data.Fits .data dataRegion) : ({ m with data } : Machine).Bounded :=
  { hb with data := hdata }

theorem withReturns {returns : Stack}
    (hret : returns.Fits .return returnRegion) : ({ m with returns } : Machine).Bounded :=
  { hb with returns := hret }

theorem withMarker (marker : Marker) (hroom : m.control.limit + 8 ≤ m.control.top) : (m.withMarker marker).Bounded := by
  have hhigh := hb.control.top_le
  have hwhole := hb.control.whole
  have hpaired := hb.paired
  have hctl := hb.control.moveTop (show m.control.limit ≤ m.control.top - 4 - 4 by omega)
    (by omega) (by omega)
  rw [Machine.withMarker]
  refine ⟨?_, hb.data, hb.returns, hctl, ?_, hb.dictionary⟩
  · simp only [size_setCell]
    exact hb.size_eq
  · simp only
    omega

theorem withoutMarker (hmarks : m.control.top < m.control.base) : m.withoutMarker.Bounded := by
  have hlow := hb.control.limit_le
  have hwhole := hb.control.whole
  have hpaired := hb.paired
  have hctl := hb.control.moveTop (show m.control.limit ≤ m.control.top + 4 + 4 by omega)
    (by omega) (by omega)
  exact
    { hb with
      control := hctl
      paired := show (m.control.base - (m.control.top + 4 + 4)) % 8 = 0 by omega }

end Machine.Bounded

namespace WordM

open Machine (Bounded)

variable {α : Type}

theorem keeps_update {change : Machine → Machine} (hchange : ∀ m : Machine, m.Bounded →
    (change m).Bounded) : Keeps Bounded (update change) :=
  .of hchange

instance (step : MemoryM α) [Keeps (Memory.HasSize memorySize) step] : Keeps Bounded (onMemory step) := by
  refine .of fun m hb => ?_
  have hsize : Memory.HasSize memorySize m.memory := hb.size_eq
  rw [stateAfter, onMemory]
  cases hstep : step m.memory with
  | ok answer memory => exact hb.withMemory ((of_ok hsize hstep).trans hsize.symm)
  | error fault memory => exact hb.withMemory ((of_error hsize hstep).trans hsize.symm)

/-! #### Stacks -/

instance (value : Cell) : Keeps Bounded (push value) := by
  refine .of fun m hb => ?_
  rw [stateAfter, push, pushing]
  rcases Stack.push_cases hb.data hb.size_eq value with herror | ⟨hok, hdata⟩
  · rw [herror]
    exact hb
  · rw [hok]
    exact (hb.withData hdata).withMemory (size_setCell _ _ _)

instance : Keeps Bounded pop := by
  refine .of fun m hb => ?_
  rw [stateAfter, pop, popping]
  rcases Stack.pop_cases hb.data hb.size_eq with herror | ⟨hok, hdata⟩
  · rw [herror]
    exact hb
  · rw [hok]
    exact hb.withData hdata

instance (value : Cell) : Keeps Bounded (pushReturn value) := by
  refine .of fun m hb => ?_
  rw [stateAfter, pushReturn]
  rcases Stack.push_cases hb.returns hb.size_eq value with herror | ⟨hok, hret⟩
  · rw [herror]
    exact hb
  · rw [hok]
    exact (hb.withReturns hret).withMemory (size_setCell _ _ _)

instance : Keeps Bounded popReturn := by
  refine .of fun m hb => ?_
  rw [stateAfter, popReturn]
  rcases Stack.pop_cases hb.returns hb.size_eq with herror | ⟨hok, hret⟩
  · rw [herror]
    exact hb
  · rw [hok]
    exact hb.withReturns hret

theorem keeps_pushing {step : Stack → MemoryM Stack} [∀ stack, Keeps (Memory.HasSize memorySize) (step stack)]
    (hstep : ∀ {stack after : Stack} {memory next : Memory}, stack.Fits .data dataRegion →
      memory.size = memorySize → step stack memory = .ok after next →
      after.Fits .data dataRegion) : Keeps Bounded (pushing step) := by
  refine .of fun m hb => ?_
  have hsize : Memory.HasSize memorySize m.memory := hb.size_eq
  rw [stateAfter, pushing]
  cases hdata : step m.data m.memory with
  | ok after next =>
    exact (hb.withData (hstep hb.data hsize hdata)).withMemory
      ((of_ok hsize hdata).trans hsize.symm)
  | error fault next => exact hb.withMemory ((of_error hsize hdata).trans hsize.symm)

instance (value : DoubleCell) : Keeps Bounded (pushDouble value) := by
  refine keeps_pushing fun {stack after memory next} hfits hsize hpush => ?_
  rw [Stack.pushDouble] at hpush
  split at hpush
  · cases hpush
  · obtain ⟨middle, between, hlow, hhigh⟩ := of_bind_eq_ok hpush
    have hbetween : Memory.HasSize memorySize between := of_ok hsize hlow
    exact (hfits.push hsize hlow).push hbetween hhigh

instance (depth : Nat) : Keeps Bounded (rollUp depth) := by
  refine keeps_pushing fun {stack after memory next} hfits _ hroll => ?_
  obtain ⟨_, between, _, hstack⟩ := of_bind_eq_ok hroll
  cases hstack
  exact hfits

instance : Keeps Bounded popDouble := by
  refine .of fun m hb => ?_
  rw [stateAfter, popDouble, popping]
  cases hpop : m.data.popDouble m.memory with
  | error fault => exact hb
  | ok answer => exact hb.withData (hb.data.popDouble hb.size_eq hpop)

instance (depth : Nat) (value : Cell) : Keeps Bounded (pokeReturn depth value) := by
  refine .of fun m hb => ?_
  have hsize : Memory.HasSize memorySize m.memory := hb.size_eq
  rw [stateAfter, pokeReturn]
  cases hpoke : m.returns.poke depth value m.memory with
  | ok answer memory => exact hb.withMemory ((of_ok hsize hpoke).trans hsize.symm)
  | error fault memory => exact hb.withMemory ((of_error hsize hpoke).trans hsize.symm)

/-! #### Markers -/

theorem markerDepth_eq (m : Machine) : markerDepth m = .ok (m.control.depth / 2) m :=
  rfl

variable {m : Machine}

theorem pushControl_of_room (hsize : m.memory.size = memorySize)
    (hctl : m.control.Fits .control controlRegion) (value : Cell) (hroom : m.control.limit + 4 ≤ m.control.top) :
    pushControl value m =
      .ok () { m with
        control := { m.control with top := m.control.top - 4 }
        memory := m.memory.setCell (m.control.top - 4) value } := by
  rw [pushControl, Stack.push_of_room hctl hsize value hroom]

theorem popControl_of_items (hsize : m.memory.size = memorySize)
    (hctl : m.control.Fits .control controlRegion) (hitems : m.control.top < m.control.base) :
    popControl m =
      .ok (m.memory.cellAt m.control.top)
        { m with control := { m.control with top := m.control.top + 4 } } := by
  rw [popControl, Stack.pop_of_items hctl hsize hitems]

theorem pushMarker_of_room (hb : m.Bounded) (marker : Marker) (hroom : m.control.limit + 8 ≤ m.control.top) :
    pushMarker marker m = .ok () (m.withMarker marker) := by
  have hctl := hb.control
  have hlow := hctl.limit_le
  have hhigh := hctl.top_le
  have hwhole := hctl.whole
  have hcheck : (ask fun m : Machine =>
      if m.control.capacity - m.control.depth < 2 then .error (.stackOverflow .control)
      else .ok ()) m = .ok () m := by
    rw [ask, if_neg (by rw [Stack.capacity, Stack.depth]; omega)]
  refine (bind_of_ok hcheck).trans ?_
  refine (bind_of_ok (pushControl_of_room hb.size_eq hctl _ (by omega))).trans ?_
  refine (pushControl_of_room ?_ (hctl.lower (by omega)) _ ?_).trans rfl
  · exact (size_setCell _ _ _).trans hb.size_eq
  · change m.control.limit + 4 ≤ m.control.top - 4
    omega

theorem pushMarker_of_full (hb : m.Bounded) (marker : Marker) (hfull : m.control.top < m.control.limit + 8) :
    pushMarker marker m = .error (.stackOverflow .control) m := by
  have hlow := hb.control.limit_le
  have hhigh := hb.control.top_le
  have hwhole := hb.control.whole
  refine bind_of_error ?_
  rw [ask, if_pos (by rw [Stack.capacity, Stack.depth]; omega)]

theorem popMarker_of_markers (hb : m.Bounded)
    (hmarks : m.control.top < m.control.base) :
    popMarker m =
      match Tag.ofCell? (m.memory.cellAt m.control.top) with
      | some tag => .ok ⟨tag, Cell.toAddress (m.memory.cellAt (m.control.top + 4))⟩
          m.withoutMarker
      | none => .error .nesting m.withoutMarker := by
  have hctl := hb.control
  have hlow := hctl.limit_le
  have hpaired := hb.paired
  refine (bind_of_ok (markerDepth_eq m)).trans ?_
  rw [if_neg (by rw [Stack.depth]; omega)]
  refine (bind_of_ok (popControl_of_items hb.size_eq hctl hmarks)).trans ?_
  refine (bind_of_ok (popControl_of_items ?_ (hctl.raise hmarks) ?_)).trans ?_
  · exact hb.size_eq
  · change m.control.top + 4 < m.control.base
    omega
  · change (match Tag.ofCell? (m.memory.cellAt m.control.top) with
      | some tag => pure ⟨tag, Cell.toAddress (m.memory.cellAt (m.control.top + 4))⟩
      | none => throw .nesting : WordM Marker) m.withoutMarker = _
    cases Tag.ofCell? (m.memory.cellAt m.control.top) <;> rfl

theorem popMarker_of_empty {m : Machine} (hempty : m.control.base ≤ m.control.top) :
    popMarker m = .error .nesting m := by
  refine (bind_of_ok (markerDepth_eq m)).trans ?_
  rw [if_pos (by rw [Stack.depth]; omega)]
  exact bind_of_error rfl

instance (marker : Marker) : Keeps Bounded (pushMarker marker) := by
  refine .of fun m hb => ?_
  by_cases hroom : m.control.limit + 8 ≤ m.control.top
  · rw [stateAfter_of_ok (pushMarker_of_room hb marker hroom)]
    exact hb.withMarker marker hroom
  · rw [stateAfter_of_error (pushMarker_of_full hb marker (by omega))]
    exact hb

instance : Keeps Bounded popMarker := by
  refine .of fun m hb => ?_
  by_cases hmarks : m.control.top < m.control.base
  · rw [stateAfter, popMarker_of_markers hb hmarks]
    cases Tag.ofCell? (m.memory.cellAt m.control.top) <;>
      exact hb.withoutMarker hmarks
  · rw [stateAfter_of_error (popMarker_of_empty (by omega))]
    exact hb

/-! #### Dictionary -/

theorem keeps_onDictionary {step : Dictionary → MemoryM (α × Dictionary)}
    (hstep : ∀ {dictionary : Dictionary} {memory : Memory}, dictionary.Fits dictionaryRegion →
      memory.size = memorySize →
      (∃ fault, step dictionary memory = .error fault memory) ∨
        ∃ answer after next, step dictionary memory = .ok (answer, after) next ∧
          after.Fits dictionaryRegion ∧ next.size = memory.size) : Keeps Bounded (onDictionary step) := by
  refine .of fun m hb => ?_
  rw [stateAfter, onDictionary]
  rcases hstep hb.dictionary hb.size_eq with
    ⟨fault, herror⟩ | ⟨answer, after, next, hok, hafter, hnext⟩
  · rw [herror]
    exact hb
  · rw [hok]
    exact (hb.withDictionary hafter).withMemory hnext

instance (value : Cell) : Keeps Bounded (comma value) := by
  refine keeps_onDictionary fun {dictionary memory} hfits _ => ?_
  rcases dictionary.comma_cases value memory with ⟨fault, herror⟩ | ⟨hroom, hok⟩
  · exact .inl ⟨fault, bind_of_error herror⟩
  · exact .inr ⟨_, _, _, bind_of_ok hok, hfits.move (Nat.le_add_right_of_le hfits.start_le) hroom,
      size_setCell _ _ _⟩

instance (value : UInt8) : Keeps Bounded (commaByte value) := by
  refine keeps_onDictionary fun {dictionary memory} hfits _ => ?_
  rcases dictionary.commaByte_cases value memory with ⟨fault, herror⟩ | ⟨hroom, hok⟩
  · exact .inl ⟨fault, bind_of_error herror⟩
  · exact .inr ⟨_, _, _, bind_of_ok hok, hfits.move (Nat.le_add_right_of_le hfits.start_le) hroom,
      size_setByte _ _ _⟩

theorem enter_fits (name : List UInt8) (flags code : Cell) {dictionary : Dictionary} {memory : Memory}
    (hfits : dictionary.Fits dictionaryRegion) (hsize : memory.size = memorySize) :
    (∃ fault, dictionary.enter name flags code memory = .error fault memory) ∨
      ∃ answer after next, dictionary.enter name flags code memory = .ok (answer, after) next ∧
        after.Fits dictionaryRegion ∧ next.size = memory.size := by
  have hnames := hfits.names_le
  have hstart := hfits.start_le
  have hhere := le_aligned dictionary.here
  have horder := order
  rcases @Dictionary.enter_cases dictionary memory name flags code (by omega) with
    ⟨fault, herror⟩ | ⟨_, hroom, hmeet, hok⟩
  · exact .inl ⟨fault, herror⟩
  · refine .inr ⟨_, _, _, hok, ⟨hfits.start_eq, ?_, Nat.le_of_lt hmeet, ?_⟩,
      (sameOutside_entered memory _ name flags code hhere hroom hmeet).size⟩
    · change dictionary.start ≤ aligned dictionary.here + Header.size
      omega
    · change dictionary.names - (name.length + 1) ≤ dictionaryRegion.finish
      omega

theorem keeps_create (name : String) (flags code : Cell) :
    Keeps Bounded (onDictionary fun dictionary => dictionary.create name flags code) := by
  refine keeps_onDictionary fun {dictionary memory} hfits hsize => ?_
  rw [create]
  split
  · exact .inl ⟨_, rfl⟩
  · exact enter_fits _ flags code hfits hsize

instance (name : String) (flags code : Cell) :
    Keeps Bounded (onDictionary fun dictionary => dictionary.create name flags code) :=
  keeps_create name flags code

instance (code : Cell) :
    Keeps Bounded (onDictionary fun dictionary => dictionary.createNameless code) :=
  keeps_onDictionary fun hfits hsize => enter_fits [] Header.hidden code hfits hsize

theorem keeps_moveHere {step : Dictionary → Except Fault Dictionary}
    (hstep : ∀ {dictionary after : Dictionary}, dictionary.Fits dictionaryRegion →
      step dictionary = .ok after → after.Fits dictionaryRegion) : Keeps Bounded (moveHere step) := by
  refine .of fun m hb => ?_
  rw [stateAfter, moveHere]
  cases hmoved : step m.dictionary with
  | ok after => exact hb.withDictionary (hstep hb.dictionary hmoved)
  | error fault => exact hb

instance : Keeps Bounded (moveHere align) := by
  refine keeps_moveHere fun {dictionary after} hfits halign => ?_
  rw [align] at halign
  split at halign
  · cases halign
  · cases halign
    exact hfits.move (Nat.le_trans hfits.start_le (le_aligned _)) (by omega)

instance (amount : Cell) : Keeps Bounded (moveHere (·.allot amount)) := by
  refine keeps_moveHere fun {dictionary after} hfits hallot => ?_
  rw [allot] at hallot
  split at hallot
  · cases hallot
  · cases hallot
    exact hfits.move (by omega) (by omega)

end WordM

end ThreadedForth
