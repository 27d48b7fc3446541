/-!
# Faults

Everything that can go wrong while a program runs, with the text and the number a user sees for it.
The numbers are the standard throw codes of the language.
-/

namespace ThreadedForth

inductive StackKind where
  | data
  | return
  | control
  deriving DecidableEq, Repr

namespace StackKind

def label : StackKind → String
  | data => "data"
  | .return => "return"
  | control => "control-flow"

end StackKind

inductive Fault where
  | stackOverflow (stack : StackKind)
  | stackUnderflow (stack : StackKind)
  | dictionaryOverflow
  | memoryOverflow
  | invalidAddress (address : Int)
  | misalignedAddress (address : Int)
  | nesting
  | nameTooLong (name : String)
  | emptyName
  | compileOnly (name : String)
  | undefinedWord (name : String)
  | invalidNumber (text : String)
  | divisionByZero
  | outOfRange
  | textOverflow
  | aborted
  | abortedWith (text : String)
  | io (text : String)
  deriving DecidableEq, Repr

namespace Fault

def message : Fault → String
  | stackOverflow stack => stack.label ++ " stack overflow"
  | stackUnderflow stack => stack.label ++ " stack underflow"
  | dictionaryOverflow => "dictionary overflow"
  | memoryOverflow => "memory overflow"
  | invalidAddress address => "invalid memory address " ++ toString address
  | misalignedAddress address => "address alignment exception at " ++ toString address
  | nesting => "compiler nesting"
  | nameTooLong name => "name too long: " ++ name
  | emptyName => "attempt to use zero-length name"
  | compileOnly name => "interpreting a compile-only word: " ++ name
  | undefinedWord name => "undefined word: " ++ name
  | invalidNumber text => "invalid number: " ++ text
  | divisionByZero => "division by zero"
  | outOfRange => "result out of range"
  | textOverflow => "parsed string overflow"
  | aborted => "aborted"
  | abortedWith text => text
  | io text => "i/o error: " ++ text

/-- The throw code of a fault. A missing control-flow item counts as bad nesting. -/
def code : Fault → Int
  | aborted => -1
  | abortedWith _ => -2
  | stackOverflow .data => -3
  | stackUnderflow .data => -4
  | stackOverflow .return => -5
  | stackUnderflow .return => -6
  | dictionaryOverflow => -8
  | invalidAddress _ => -9
  | divisionByZero => -10
  | outOfRange => -11
  | undefinedWord _ => -13
  | compileOnly _ => -14
  | emptyName => -16
  | textOverflow => -18
  | nameTooLong _ => -19
  | nesting => -22
  | stackUnderflow .control => -22
  | misalignedAddress _ => -23
  | invalidNumber _ => -24
  | io _ => -37
  | stackOverflow .control => -52
  | memoryOverflow => -256

end Fault

end ThreadedForth
