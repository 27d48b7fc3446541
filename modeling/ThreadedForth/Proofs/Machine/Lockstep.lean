import ThreadedForth.Proofs.Machine.Bounds

/-!
# Machines in lockstep

How much two machines have in common decides which words do the same on both. If it is the items of the data stack,
these are the words that only move and combine items. If it is the code and the markers as well, the control words are
among them too, and so is reading a number. Machines may have all in common that words see, and then every word does
the same. Since an invariant is what a machine has in common with itself, words keep invariants for the same reasons.
-/

namespace ThreadedForth

open Layout

/-- The cells that steer the interpreter. -/
def Layout.userCells : List Nat := [state, base, toIn, pointCount]

namespace Machine

/-- The machines have the same memory, the same cursors and the same nested input. -/
structure Alike (m other : Machine) : Prop where
  memory : other.memory = m.memory
  data : other.data = m.data
  returns : other.returns = m.returns
  control : other.control = m.control
  dictionary : other.dictionary = m.dictionary
  suspended : other.suspended = m.suspended
  readers : other.readers = m.readers

/-- The question is not about what is set aside, the streams that are read, or the reports. -/
def Visible {α : Type} (question : Machine → Except Fault α) : Prop :=
  ∀ (m : Machine) suspended readers reports, question { m with suspended, readers, reports } = question m

/-- The change leaves memory, the cursors and the nested input alone, and does not depend on the latter. -/
def Slight (change : Machine → Machine) : Prop :=
  ∀ (m : Machine) suspended readers reports, m.Alike (change m) ∧
    ∃ told, change { m with suspended, readers, reports } = { change m with suspended, readers, reports := told }

end Machine

section Classes

open WordM

/-- Related machines have the same items on the data stack. -/
class SharesItems (related : Machine → Machine → Prop) : Prop where
  push (value : Cell) : Parallel related (push value)
  pop : Parallel related pop
  pushDouble (value : DoubleCell) : Parallel related (pushDouble value)
  popDouble : Parallel related popDouble
  rollUp (depth : Nat) : Parallel related (rollUp depth)
  clear : Parallel related (update fun machine => { machine with data := machine.data.clear })
  top (depth : Nat) : Parallel related (top depth) := by infer_instance
  need (count : Nat) : Parallel related (need count) := by infer_instance
  depth : Parallel related (ask fun machine => .ok machine.data.depth) := by infer_instance

/-- Related machines have the same items on the data and return stacks. -/
class SharesStacks (related : Machine → Machine → Prop) : Prop extends SharesItems related where
  pushReturn (value : Cell) : Parallel related (pushReturn value)
  popReturn : Parallel related popReturn
  pokeReturn (depth : Nat) (value : Cell) : Parallel related (pokeReturn depth value)
  topReturn (depth : Nat) : Parallel related (topReturn depth) := by infer_instance
  needReturn (count : Nat) : Parallel related (needReturn count) := by infer_instance

/-- Related machines have the same items on the data stack, the same cursors of the dictionary, the same state and
base, and memories of the same size. -/
class SharesCode (related : Machine → Machine → Prop) : Prop extends SharesItems related where
  comma (value : Cell) : Parallel related (comma value)
  setState (value : Cell) : Parallel related (writeCell state value)
  setPointCount (value : Cell) : Parallel related (writeCell pointCount value)
  setIp (ip : Nat) : Parallel related (ThreadWord.setIp ip)
  report (line : String) : Parallel related (report line)
  here : Parallel related here
  isCompiling : Parallel related isCompiling
  base : Parallel related (ask Machine.base)
  address (value : Cell) : Parallel related (ask (·.memory.address value))

/-- Related machines have the same markers on the control stack. -/
class SharesMarkers (related : Machine → Machine → Prop) : Prop where
  pushMarker (marker : Marker) : Parallel related (pushMarker marker)
  popMarker : Parallel related popMarker
  markerDepth : Parallel related markerDepth := by infer_instance
  topTag : Parallel related topTag := by infer_instance

/-- Related machines have the same items on all stacks, the same instruction pointer and the same code. -/
class SharesCursors (related : Machine → Machine → Prop) : Prop extends SharesStacks related, SharesCode related,
    SharesMarkers related where
  ip : Parallel related (ask fun machine => .ok machine.ip)

/-- Related machines stay related whatever cell is written on both. -/
class Lockstep (related : Machine → Machine → Prop) : Prop extends SharesCode related, SharesMarkers related where
  writeCell (address : Nat) (value : Cell) : Parallel related (writeCell address value)
  setState value := writeCell state value
  setPointCount value := writeCell pointCount value

/-- Related machines stay related by what words do to the stacks, the user cells and the buffers, and by appending to
the dictionary. They answer alike what words ask. -/
class Steady (related : Machine → Machine → Prop) : Prop extends SharesStacks related where
  ask {α : Type} {question : Machine → Except Fault α} (hquestion : Machine.Visible question) :
    Parallel related (ask question) := by intros; infer_instance
  update {change : Machine → Machine} (hchange : Machine.Slight change) : Parallel related (update change)
  setUser {address : Nat} (haddr : address ∈ Layout.userCells) (value : Cell) :
    Parallel related (writeCell address value)
  fillInput {bytes : List UInt8} (hfits : bytes.length ≤ inputBufferSize) :
    Parallel related (onMemory (Memory.writeBytes inputBuffer bytes))
  fillPad (source : Nat) {length : Nat} (hfits : length ≤ padSize) :
    Parallel related (onMemory (Memory.move source pad length))
  fillNumber {bytes : List UInt8} (hfits : bytes.length ≤ numberBufferSize) :
    Parallel related (onMemory (Memory.writeBytes numberBuffer bytes))
  comma (value : Cell) : Parallel related (comma value)
  commaByte (value : UInt8) : Parallel related (commaByte value)
  align : Parallel related (moveHere Dictionary.align)

/-- Related machines stay related by everything that words do. -/
class Lasting (related : Machine → Machine → Prop) : Prop extends Steady related, SharesMarkers related where
  onMemory {α : Type} (step : MemoryM α) (hstep : ∀ size, Keeps (Memory.HasSize size) step) :
    Parallel related (onMemory step)
  create (name : String) (flags code : Cell) :
    Parallel related (onDictionary fun dictionary => dictionary.create name flags code)
  createNameless (code : Cell) : Parallel related (onDictionary fun dictionary => dictionary.createNameless code)
  allot (amount : Cell) : Parallel related (moveHere (·.allot amount))

end Classes

attribute [instance] SharesItems.push SharesItems.pop SharesItems.pushDouble SharesItems.popDouble SharesItems.rollUp
  SharesItems.clear SharesItems.top SharesItems.need SharesItems.depth SharesStacks.pushReturn SharesStacks.popReturn
  SharesStacks.topReturn SharesStacks.needReturn SharesStacks.pokeReturn SharesCode.comma SharesCode.here
  SharesCode.setState SharesCode.setPointCount SharesCode.isCompiling SharesCode.base SharesCode.address
  SharesCode.setIp SharesCode.report SharesMarkers.pushMarker SharesMarkers.popMarker SharesMarkers.markerDepth
  SharesMarkers.topTag SharesCursors.ip Lockstep.writeCell Steady.commaByte Steady.align Lasting.create
  Lasting.createNameless Lasting.allot

variable {related : Machine → Machine → Prop}

/-! ### Words that see the data stack -/

section SharesItems

variable [SharesItems related]

namespace WordM

instance (truth : Bool) : Parallel related (pushFlag truth) := inferInstanceAs (Parallel _ (push _))

instance (n : Nat) : Parallel related (pushNat n) := inferInstanceAs (Parallel _ (push _))

instance : Parallel related popLength := by
  unfold popLength
  infer_instance

end WordM

namespace StackWord

instance : Parallel related swapItems := by
  unfold swapItems
  infer_instance

instance : Parallel related copyOver := by
  unfold copyOver
  infer_instance

instance (depth : Nat) : Parallel related (copyPair depth) := by
  unfold copyPair
  infer_instance

end StackWord

instance (f : Cell → Cell) : Parallel related (CellWord.unary f) := by
  unfold CellWord.unary
  infer_instance

instance (word : CellWord) : Parallel related word.perform := by
  have hbinary (f : Cell → Cell → Cell) : Parallel related (CellWord.binary f) := by
    unfold CellWord.binary
    infer_instance
  have hdivide : Parallel related CellWord.divide := by
    unfold CellWord.divide
    infer_instance
  have hscale : Parallel related CellWord.scale := by
    unfold CellWord.scale
    infer_instance
  cases word <;> simp only [CellWord.perform, CellWord.compare, CellWord.test] <;> infer_instance

instance (word : DoubleWord) : Parallel related word.perform := by
  have hmultiply (f : Cell → Cell → DoubleCell) : Parallel related (DoubleWord.multiply f) := by
    unfold DoubleWord.multiply
    infer_instance
  have hdoubles : Parallel related DoubleWord.popDoubles := by
    unfold DoubleWord.popDoubles
    infer_instance
  have hdivide (f : DoubleCell → Cell → Except Fault (Cell × Cell)) : Parallel related (DoubleWord.divide f) := by
    unfold DoubleWord.divide
    infer_instance
  cases word <;> simp only [DoubleWord.perform, DoubleWord.binary, DoubleWord.compare] <;> infer_instance

end SharesItems

/-! ### Words that see the return stack -/

section SharesStacks

variable [SharesStacks related]

instance (word : StackWord) : Parallel related word.perform := by
  cases word <;> (simp only [StackWord.perform]; infer_instance)

instance : Parallel related ThreadWord.discardLoop := by
  unfold ThreadWord.discardLoop
  infer_instance

instance [SharesCode related] : Parallel related ThreadWord.returnToCaller := by
  unfold ThreadWord.returnToCaller
  infer_instance

end SharesStacks

/-! ### Words that see the code -/

section SharesCode

variable [SharesCode related]

namespace WordM

instance : Parallel related popAddress := by
  unfold popAddress
  infer_instance

instance (compiling : Bool) : Parallel related (setCompiling compiling) := inferInstanceAs (Parallel _ (writeCell _ _))

instance (name : String) : Parallel related (reportTaken name) := inferInstanceAs (Parallel _ (report _))

instance (token : Nat) : Parallel related (compileToken token) := inferInstanceAs (Parallel _ (comma _))

instance (prim : Prim) : Parallel related (compile prim) := inferInstanceAs (Parallel _ (compileToken _))

instance (value : Cell) : Parallel related (compileCell value) := by
  unfold compileCell
  infer_instance

instance (value : DoubleCell) : Parallel related (compileDouble value) := by
  unfold compileDouble
  infer_instance

instance (jump : ThreadWord) : Parallel related (compileBranch jump) := by
  unfold compileBranch
  infer_instance

end WordM

namespace Interpreter

instance (compiling : Bool) (number : Number) : Parallel related (acceptNumber compiling number) := by
  cases number <;> (simp only [acceptNumber]; infer_instance)

instance (compiling : Bool) (token : String) : Parallel related (interpretNumber compiling token) := by
  unfold interpretNumber
  refine Parallel.next fun base => ?_
  split <;> infer_instance

end Interpreter

end SharesCode

/-! ### Words that see the markers -/

section SharesMarkers

variable [SharesMarkers related]

namespace WordM

omit [SharesMarkers related] in
instance [Parallel related popMarker] (accept skip : Tag → Bool) (steps : Nat) (passed : List Marker) :
    Parallel related (popUntil accept skip steps passed) := by
  induction steps generalizing passed with
  | zero => exact Parallel.throw _
  | succ steps ih =>
    unfold popUntil
    infer_instance

instance (tags : List Tag) (pastWhile : Bool) : Parallel related (popExpected tags pastWhile) := by
  unfold popExpected
  infer_instance

variable [SharesCode related]

instance (jump : ThreadWord) (tag : Tag) : Parallel related (branchForward jump tag) := by
  unfold branchForward
  infer_instance

instance (tag : Tag) : Parallel related (markTarget tag) := by
  unfold markTarget
  infer_instance

instance (jump : ThreadWord) (tags : List Tag) : Parallel related (branchBack jump tags) := by
  unfold branchBack
  infer_instance

instance (tag : Tag) : Parallel related (closeMarker tag) := by
  unfold closeMarker
  infer_instance

end WordM

instance : Parallel related DefiningWord.needIdle := by
  unfold DefiningWord.needIdle
  infer_instance

end SharesMarkers

/-! ### Words that patch the code -/

section Lockstep

variable [Lockstep related]

namespace WordM

instance (placeholder : Nat) : Parallel related (patch placeholder) := by
  unfold patch
  infer_instance

instance (tags : List Tag) (pastWhile : Bool) : Parallel related (resolveForward tags pastWhile) := by
  unfold resolveForward
  infer_instance

instance (tag : Tag) (steps : Nat) : Parallel related (resolveRun tag steps) := by
  induction steps with
  | zero => exact Parallel.pure _
  | succ steps ih =>
    unfold resolveRun
    infer_instance

end WordM

namespace ControlWord

instance (tags : List Tag) (pastWhile : Bool) (tag : Tag) : Parallel related (divide tags pastWhile tag) := by
  unfold divide
  infer_instance

instance (enter : ThreadWord) : Parallel related (openLoop enter) := by
  unfold openLoop
  infer_instance

instance (step : ThreadWord) : Parallel related (closeLoop step) := by
  unfold closeLoop
  infer_instance

instance : Parallel related leaveLoop := by
  have (placeholder : Nat) (found : Marker × List Marker) : Parallel related (do
      WordM.pushMarker ⟨.leave, placeholder⟩
      WordM.pushMarker found.1
      found.2.forM WordM.pushMarker) := inferInstance
  unfold leaveLoop
  infer_instance

instance (word : ControlWord) : Parallel related word.perform := by
  cases word <;> (simp only [perform]; infer_instance)

end ControlWord

end Lockstep

/-! ### Words that see all but the nesting -/

section Steady

variable [Steady related]

instance (addr : Nat) : Parallel related (WordM.readCell addr) := Steady.ask fun _ _ _ _ => rfl

instance : SharesCode related where
  comma := Steady.comma
  setState := Steady.setUser (by decide)
  setPointCount := Steady.setUser (by decide)
  setIp _ := Steady.update fun _ _ _ _ => ⟨⟨rfl, rfl, rfl, rfl, rfl, rfl, rfl⟩, _, rfl⟩
  report _ := Steady.update fun _ _ _ _ => ⟨⟨rfl, rfl, rfl, rfl, rfl, rfl, rfl⟩, _, rfl⟩
  here := Steady.ask fun _ _ _ _ => rfl
  isCompiling := by
    unfold WordM.isCompiling
    infer_instance
  base := Steady.ask fun _ _ _ _ => rfl
  address _ := Steady.ask fun _ _ _ _ => rfl

namespace WordM

instance (addr length : Nat) : Parallel related (readBytes addr length) := Steady.ask fun _ _ _ _ => rfl

instance (addr length : Nat) : Parallel related (readText addr length) := Steady.ask fun _ _ _ _ => rfl

instance (addr : Nat) : Parallel related (ask (·.memory.readByte addr)) := Steady.ask fun _ _ _ _ => rfl

instance (addr : Nat) : Parallel related (ask (·.memory.readDouble addr)) := Steady.ask fun _ _ _ _ => rfl

instance : Parallel related (ask fun machine => machine.memory.readCell machine.ip) := Steady.ask fun _ _ _ _ => rfl

instance : Parallel related (ask fun machine => .ok machine.ip) := Steady.ask fun _ _ _ _ => rfl

instance (name : String) : Parallel related (ask fun machine => machine.dictionary.find? machine.memory name) :=
  Steady.ask fun _ _ _ _ => rfl

instance (name : String) : Parallel related (ask (·.findHeader? name)) := Steady.ask fun _ _ _ _ => rfl

instance : Parallel related (ask fun machine => .ok machine.dictionary.latest) := Steady.ask fun _ _ _ _ => rfl

instance : Parallel related (ask fun machine => .ok machine.dictionary.unused) := Steady.ask fun _ _ _ _ => rfl

instance : Parallel related (ask fun machine => .ok machine.source) := Steady.ask fun _ _ _ _ => rfl

instance : Parallel related (ask fun machine => .ok machine.source.length) := Steady.ask fun _ _ _ _ => rfl

instance : Parallel related (ask fun machine => machine.data.contents machine.memory) := Steady.ask fun _ _ _ _ => rfl

instance : Parallel related (ask fun machine => .ok machine.verbose) := Steady.ask fun _ _ _ _ => rfl

instance (value : Cell) : Parallel related (writeCell toIn value) := Steady.setUser (by decide) value

instance (value : Cell) : Parallel related (writeCell Layout.base value) := Steady.setUser (by decide) value

instance (bytes : List UInt8) : Parallel related (print bytes) :=
  Steady.update fun _ _ _ _ => ⟨⟨rfl, rfl, rfl, rfl, rfl, rfl, rfl⟩, _, rfl⟩

instance (text : String) : Parallel related (printText text) := inferInstanceAs (Parallel _ (print _))

instance (path : String) : Parallel related (reportLoading path) := by
  unfold reportLoading
  infer_instance

instance (reader : Reader) (fault : Fault) : Parallel related (reportFailed reader fault) :=
  inferInstanceAs (Parallel _ (report _))

instance (fault : Fault) : Parallel related (reportFault fault) := inferInstanceAs (Parallel _ (report _))

/-! #### Parsing -/

instance (source : Source) : Parallel related (setSource source) := by
  have : Parallel related (update fun machine => { machine with source }) :=
    Steady.update fun _ _ _ _ => ⟨⟨rfl, rfl, rfl, rfl, rfl, rfl, rfl⟩, _, rfl⟩
  unfold setSource
  infer_instance

instance : Parallel related parseOffset := Steady.ask fun _ _ _ _ => rfl

instance (test : UInt8 → Bool) (offset : Nat) : Parallel related (endOfRun test offset) :=
  Steady.ask fun _ _ _ _ => rfl

instance (offset length : Nat) : Parallel related (advance offset length) := by
  unfold advance
  infer_instance

instance (delimiter : UInt8) : Parallel related (parse delimiter) := by
  unfold parse
  infer_instance

instance : Parallel related parseName := by
  unfold parseName
  infer_instance

instance : Parallel related nextToken? := by
  unfold nextToken?
  infer_instance

instance : Parallel related requireName := by
  have (name : Option String) : Parallel related (match name with
      | some name => pure name
      | none => throw .emptyName : WordM String) := by
    cases name <;> infer_instance
  unfold requireName
  infer_instance

end WordM

/-! #### Families of words -/

/-- The words that store where a program tells them to. -/
def MemoryWord.isStore : MemoryWord → Bool
  | store | storeByte | plusStore | twoStore | fill | erase | move => true
  | _ => false

theorem MemoryWord.parallel_of_not_store {word : MemoryWord} (hword : word.isStore = false) :
    Parallel related word.perform := by
  cases word <;> first | (cases hword; done) | (simp only [MemoryWord.perform]; infer_instance)

namespace ThreadWord

instance : Parallel related skipCell :=
  Steady.update fun _ _ _ _ => ⟨⟨rfl, rfl, rfl, rfl, rfl, rfl, rfl⟩, _, rfl⟩

instance : Parallel related inlineCell := by
  unfold inlineCell
  infer_instance

instance : Parallel related jump := by
  unfold jump
  exact @Parallel.bind _ _ _ _ _ _ _ (Steady.ask fun _ _ _ _ => rfl) inferInstance

instance (maySkip : Bool) : Parallel related (startLoop maySkip) := by
  unfold startLoop
  infer_instance

instance (step : Cell) : Parallel related (advanceLoop step) := by
  unfold advanceLoop
  infer_instance

theorem parallel_of_ne_setDoes {word : ThreadWord} (hword : word ≠ .setDoes) : Parallel related word.perform := by
  cases word <;> first | (exact absurd rfl hword) | (simp only [perform]; infer_instance)

end ThreadWord

namespace DefiningWord

instance (name : String) : Parallel related (warnIfTaken name) := by
  unfold warnIfTaken
  infer_instance

instance : Parallel related latest := Steady.ask fun _ _ _ _ => rfl

instance : Parallel related requireWord := by
  have (name : String) (header : Option Header) : Parallel related (match header with
      | some header => pure header
      | none => throw (.undefinedWord name) : WordM Header) := by
    cases header <;> infer_instance
  unfold requireWord
  infer_instance

instance (header : Header) : Parallel related (compileDeferred header) := by
  unfold compileDeferred
  infer_instance

/-- The words that make or change a header, or move the end of the code by an amount. -/
def shapes : DefiningWord → Bool
  | allot | colon | nameless | semicolon | create | newConstant | newVariable | immediate => true
  | _ => false

theorem parallel_of_not_shapes {word : DefiningWord} (hword : word.shapes = false) : Parallel related word.perform := by
  cases word <;> first | (cases hword; done) | (simp only [perform]; infer_instance)

end DefiningWord

namespace InputWord

instance (text : Source) : Parallel related (pushSource text) := by
  unfold pushSource
  infer_instance

instance (text : Source) : Parallel related (compileText text) := by
  unfold compileText
  infer_instance

instance (text : Source) : Parallel related (keepText text) := by
  unfold keepText
  by_cases hfits : padSize < text.length
  · rw [if_pos hfits]
    exact Parallel.throw _
  · have := @Steady.fillPad related _ text.address _ (Nat.not_lt.1 hfits)
    rw [if_neg hfits]
    infer_instance

instance : Parallel related nextChar := by
  unfold nextChar
  infer_instance

instance (word : InputWord) : Parallel related word.perform := by
  have : Parallel related (WordM.update fun machine => { machine with exiting := true }) :=
    Steady.update fun _ _ _ _ => ⟨⟨rfl, rfl, rfl, rfl, rfl, rfl, rfl⟩, _, rfl⟩
  cases word <;> (simp only [perform]; infer_instance)

end InputWord

namespace OutputWord

instance (text : String) : Parallel related (printNumber text) := by
  unfold printNumber
  by_cases hfits : numberBufferSize < (Utf8.encode text).length
  · simp only [if_pos hfits]
    exact Parallel.throw _
  · have := @Steady.fillNumber related _ _ (Nat.not_lt.1 hfits)
    simp only [if_neg hfits]
    infer_instance

instance : Parallel related printStack := by
  unfold printStack
  infer_instance

instance (word : OutputWord) : Parallel related word.perform := by
  cases word <;> (simp only [perform]; infer_instance)

end OutputWord

namespace Machine

theorem instructionsFrom_eq (m : Machine) (suspended : List Suspended) (readers : List Reader)
    (reports : Array String) (base steps addr furthest : Nat) (shown : Array String) :
    instructionsFrom { m with suspended, readers, reports } base steps addr furthest shown =
      m.instructionsFrom base steps addr furthest shown := by
  induction steps generalizing addr furthest shown with
  | zero => rfl
  | succ steps ih =>
    rw [instructionsFrom, instructionsFrom]
    simp only [ih]
    rfl

theorem visible_describe (header : Header) : Visible (·.describe header) := by
  intro m suspended readers reports
  have hdecompile (start : Nat) : decompile { m with suspended, readers, reports } start = m.decompile start := by
    rw [decompile, decompile]
    simp only [instructionsFrom_eq]
    rfl
  simp only [describe, hdecompile]
  rfl

end Machine

instance (word : DiagnosticWord) : Parallel related word.perform := by
  have (header : Header) : Parallel related (WordM.ask (·.describe header)) :=
    Steady.ask (Machine.visible_describe header)
  have : Parallel related (WordM.ask Machine.visibleNames) := Steady.ask fun _ _ _ _ => rfl
  have (showStack : Bool) : Parallel related (WordM.update fun machine => { machine with showStack }) :=
    Steady.update fun _ _ _ _ => ⟨⟨rfl, rfl, rfl, rfl, rfl, rfl, rfl⟩, _, rfl⟩
  have (tracing : Bool) : Parallel related (WordM.update fun machine => { machine with tracing }) :=
    Steady.update fun _ _ _ _ => ⟨⟨rfl, rfl, rfl, rfl, rfl, rfl, rfl⟩, _, rfl⟩
  cases word <;> (simp only [DiagnosticWord.perform]; infer_instance)

/-- The primitives that keep whatever is steady. -/
def Prim.isSteady : Prim → Bool
  | thread word => word != .setDoes
  | memory word => !word.isStore
  | defining word => !word.shapes
  | control _ => false
  | _ => true

theorem Prim.parallel_of_isSteady {prim : Prim} (hprim : prim.isSteady = true) : Parallel related prim.perform := by
  cases prim with
  | thread word => exact ThreadWord.parallel_of_ne_setDoes (by simpa [isSteady] using hprim)
  | memory word =>
    have : Parallel related word.perform := MemoryWord.parallel_of_not_store (by simpa [isSteady] using hprim)
    simp only [Prim.perform]
    infer_instance
  | defining word =>
    have : Parallel related word.perform := DefiningWord.parallel_of_not_shapes (by simpa [isSteady] using hprim)
    simp only [Prim.perform]
    infer_instance
  | control word => cases hprim
  | _ =>
    simp only [Prim.perform]
    infer_instance

end Steady

/-! ### All words -/

section Lasting

variable [Lasting related]

instance {α : Type} (step : MemoryM α) [∀ size, Keeps (Memory.HasSize size) step] :
    Parallel related (WordM.onMemory step) :=
  Lasting.onMemory step fun _ => inferInstance

instance : Lockstep related where
  writeCell _ _ := inferInstanceAs (Parallel _ (WordM.onMemory _))

instance (word : MemoryWord) : Parallel related word.perform := by
  cases word <;> (simp only [MemoryWord.perform]; infer_instance)

instance (word : ThreadWord) : Parallel related word.perform := by
  by_cases hword : word = .setDoes
  · subst hword
    simp only [ThreadWord.perform]
    infer_instance
  · exact ThreadWord.parallel_of_ne_setDoes hword

namespace DefiningWord

instance (flags : Cell) (code : Code) : Parallel related (define flags code) := by
  unfold define
  infer_instance

instance : Parallel related openNamed := by
  unfold openNamed
  infer_instance

instance : Parallel related openNameless := by
  unfold openNameless
  infer_instance

instance : Parallel related close := by
  have (marker : Marker) : Parallel related (do
      WordM.compile (.thread .exit)
      WordM.onMemory (Dictionary.clearFlag (Header.ofToken marker.address) Header.smudged)
      WordM.setCompiling false) := inferInstance
  simp only [close]
  infer_instance

instance (word : DefiningWord) : Parallel related word.perform := by
  cases word <;> (simp only [perform]; infer_instance)

end DefiningWord

instance (prim : Prim) : Parallel related prim.perform := by
  cases prim <;> (simp only [Prim.perform]; infer_instance)

end Lasting

end ThreadedForth
