/-!
# Primitives

The words the machine knows by itself, in ten families. The order of the families, and of the words
inside each, is the order in which they stand in the dictionary. A primitive's place in the order
stands for it in a code cell, and `ofIndex?` reads it back.
-/

namespace ThreadedForth

/-- Run-time parts of compiled code. -/
inductive ThreadWord where
  | exit | lit | twoLit | textLit | branch | zeroBranch | enterDo | enterQuestionDo | stepLoop
  | stepPlusLoop | unloop | testOf | setDoes | testAbort | execute
  deriving DecidableEq, Repr

/-- Words that rearrange the stacks. -/
inductive StackWord where
  | dup | drop | swap | over_ | rot | minusRot | nip | tuck | questionDup | pick | roll | depth
  | twoDup | twoDrop | twoSwap | twoOver | toR | rFrom | rFetch | twoToR | twoRFrom | twoRFetch
  | loopIndex | outerIndex | clear
  deriving DecidableEq, Repr

/-- Arithmetic, logic and comparison on single cells. -/
inductive CellWord where
  | plus | minus | star | slash | mod | slashMod | starSlash | starSlashMod | onePlus | oneMinus
  | negate | abs | min | max | bitAnd | bitOr | bitXor | invert | shiftLeft | shiftRight
  | twoStar | twoSlash | equal | notEqual | less | greater | unsignedLess | zeroEqual
  | zeroNotEqual | zeroLess | zeroGreater | within | trueFlag | falseFlag
  deriving DecidableEq, Repr

/-- Arithmetic on doubles and between cells and doubles. -/
inductive DoubleWord where
  | mStar | umStar | umSlashMod | fmSlashMod | smSlashRem | dPlus | dMinus | dNegate | dAbs
  | sToD | dToS | dEqual | dLess | dZeroEqual | mPlus
  deriving DecidableEq, Repr

/-- Access to memory and address arithmetic. -/
inductive MemoryWord where
  | fetch | store | fetchByte | storeByte | plusStore | twoFetch | twoStore | cellPlus | cells
  | charPlus | chars | aligned | fill | erase | move | count
  deriving DecidableEq, Repr

/-- Words that extend the dictionary. -/
inductive DefiningWord where
  | here | allot | comma | commaByte | align | unused | colon | nameless | semicolon | create
  | does | newConstant | newVariable | toBody | immediate | recurse | tick | bracketTick
  | literal | twoLiteral | compileComma | postpone | leftBracket | rightBracket | state
  deriving DecidableEq, Repr

/-- Words that compile control structures. -/
inductive ControlWord where
  | if_ | else_ | then_ | begin | again | until_ | while_ | repeat_ | do_ | questionDo | loop
  | plusLoop | leave | case_ | of_ | endOf | endCase
  deriving DecidableEq, Repr

/-- The outer interpreter and its input. -/
inductive InputWord where
  | evaluate | source | toIn | base | pointCount | decimal | hex | parse | parseName | charCode
  | bracketChar | comment | lineComment | textQuote | dotQuote | includeFile | bye | abort
  | abortQuote
  deriving DecidableEq, Repr

inductive OutputWord where
  | emit | typeText | cr | dot | uDot | dDot | dotS | flush
  deriving DecidableEq, Repr

inductive DiagnosticWord where
  | see | words | showStack | hideStack | traceOn | traceOff
  deriving DecidableEq, Repr

inductive Prim where
  | thread (word : ThreadWord)
  | stack (word : StackWord)
  | cell (word : CellWord)
  | double (word : DoubleWord)
  | memory (word : MemoryWord)
  | defining (word : DefiningWord)
  | control (word : ControlWord)
  | input (word : InputWord)
  | output (word : OutputWord)
  | diagnostic (word : DiagnosticWord)
  deriving DecidableEq, Repr

def ThreadWord.all : List ThreadWord :=
  [.exit, .lit, .twoLit, .textLit, .branch, .zeroBranch, .enterDo, .enterQuestionDo, .stepLoop,
   .stepPlusLoop, .unloop, .testOf, .setDoes, .testAbort, .execute]

theorem ThreadWord.mem_all (word : ThreadWord) : word ∈ all := by
  cases word <;> decide

def StackWord.all : List StackWord :=
  [.dup, .drop, .swap, .over_, .rot, .minusRot, .nip, .tuck, .questionDup, .pick, .roll, .depth,
   .twoDup, .twoDrop, .twoSwap, .twoOver, .toR, .rFrom, .rFetch, .twoToR, .twoRFrom, .twoRFetch,
   .loopIndex, .outerIndex, .clear]

theorem StackWord.mem_all (word : StackWord) : word ∈ all := by
  cases word <;> decide

def CellWord.all : List CellWord :=
  [.plus, .minus, .star, .slash, .mod, .slashMod, .starSlash, .starSlashMod, .onePlus, .oneMinus,
   .negate, .abs, .min, .max, .bitAnd, .bitOr, .bitXor, .invert, .shiftLeft, .shiftRight,
   .twoStar, .twoSlash, .equal, .notEqual, .less, .greater, .unsignedLess, .zeroEqual,
   .zeroNotEqual, .zeroLess, .zeroGreater, .within, .trueFlag, .falseFlag]

theorem CellWord.mem_all (word : CellWord) : word ∈ all := by
  cases word <;> decide

def DoubleWord.all : List DoubleWord :=
  [.mStar, .umStar, .umSlashMod, .fmSlashMod, .smSlashRem, .dPlus, .dMinus, .dNegate, .dAbs,
   .sToD, .dToS, .dEqual, .dLess, .dZeroEqual, .mPlus]

theorem DoubleWord.mem_all (word : DoubleWord) : word ∈ all := by
  cases word <;> decide

def MemoryWord.all : List MemoryWord :=
  [.fetch, .store, .fetchByte, .storeByte, .plusStore, .twoFetch, .twoStore, .cellPlus, .cells,
   .charPlus, .chars, .aligned, .fill, .erase, .move, .count]

theorem MemoryWord.mem_all (word : MemoryWord) : word ∈ all := by
  cases word <;> decide

def DefiningWord.all : List DefiningWord :=
  [.here, .allot, .comma, .commaByte, .align, .unused, .colon, .nameless, .semicolon, .create,
   .does, .newConstant, .newVariable, .toBody, .immediate, .recurse, .tick, .bracketTick,
   .literal, .twoLiteral, .compileComma, .postpone, .leftBracket, .rightBracket, .state]

theorem DefiningWord.mem_all (word : DefiningWord) : word ∈ all := by
  cases word <;> decide

def ControlWord.all : List ControlWord :=
  [.if_, .else_, .then_, .begin, .again, .until_, .while_, .repeat_, .do_, .questionDo, .loop,
   .plusLoop, .leave, .case_, .of_, .endOf, .endCase]

theorem ControlWord.mem_all (word : ControlWord) : word ∈ all := by
  cases word <;> decide

def InputWord.all : List InputWord :=
  [.evaluate, .source, .toIn, .base, .pointCount, .decimal, .hex, .parse, .parseName, .charCode,
   .bracketChar, .comment, .lineComment, .textQuote, .dotQuote, .includeFile, .bye, .abort,
   .abortQuote]

theorem InputWord.mem_all (word : InputWord) : word ∈ all := by
  cases word <;> decide

def OutputWord.all : List OutputWord :=
  [.emit, .typeText, .cr, .dot, .uDot, .dDot, .dotS, .flush]

theorem OutputWord.mem_all (word : OutputWord) : word ∈ all := by
  cases word <;> decide

def DiagnosticWord.all : List DiagnosticWord :=
  [.see, .words, .showStack, .hideStack, .traceOn, .traceOff]

theorem DiagnosticWord.mem_all (word : DiagnosticWord) : word ∈ all := by
  cases word <;> decide

namespace Prim

def all : List Prim :=
  ThreadWord.all.map thread ++
    StackWord.all.map stack ++
    CellWord.all.map cell ++
    DoubleWord.all.map double ++
    MemoryWord.all.map memory ++
    DefiningWord.all.map defining ++
    ControlWord.all.map control ++
    InputWord.all.map input ++
    OutputWord.all.map output ++
    DiagnosticWord.all.map diagnostic

theorem mem_all (prim : Prim) : prim ∈ all := by
  cases prim with
  | thread word => simp [all, word.mem_all]
  | stack word => simp [all, word.mem_all]
  | cell word => simp [all, word.mem_all]
  | double word => simp [all, word.mem_all]
  | memory word => simp [all, word.mem_all]
  | defining word => simp [all, word.mem_all]
  | control word => simp [all, word.mem_all]
  | input word => simp [all, word.mem_all]
  | output word => simp [all, word.mem_all]
  | diagnostic word => simp [all, word.mem_all]

/-- The place of a primitive in the order. -/
def index : Prim → Nat
  | thread word => word.ctorIdx
  | stack word => 15 + word.ctorIdx
  | cell word => 40 + word.ctorIdx
  | double word => 74 + word.ctorIdx
  | memory word => 89 + word.ctorIdx
  | defining word => 105 + word.ctorIdx
  | control word => 130 + word.ctorIdx
  | input word => 147 + word.ctorIdx
  | output word => 166 + word.ctorIdx
  | diagnostic word => 174 + word.ctorIdx

def count : Nat := 180

def table : Array Prim := all.toArray

def ofIndex? (index : Nat) : Option Prim := table[index]?

theorem map_index_all : all.map index = List.range count := by decide +kernel

theorem ofIndex?_index (prim : Prim) : ofIndex? prim.index = some prim := by
  obtain ⟨place, hplace⟩ := List.getElem?_of_mem prim.mem_all
  have hindex : (all.map index)[place]? = some prim.index := by simp [hplace]
  rw [map_index_all] at hindex
  obtain ⟨_, hequal⟩ := List.getElem?_eq_some_iff.1 hindex
  rw [List.getElem_range] at hequal
  simp [ofIndex?, table, ← hequal, hplace]

theorem index_lt_count (prim : Prim) : prim.index < count := by
  have hmem : prim.index ∈ all.map index := List.mem_map_of_mem prim.mem_all
  rw [map_index_all] at hmem
  simpa using hmem

end Prim

end ThreadedForth
