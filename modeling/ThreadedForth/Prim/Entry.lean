import ThreadedForth.Dictionary.Header
import ThreadedForth.Prim.Basic

/-!
# The built-in vocabulary

For each primitive the name it is found under, the flags of its header, and the text that describes
it to a user.
-/

namespace ThreadedForth

/-- How a primitive appears in the dictionary. -/
structure Entry where
  name : String
  flags : Cell
  doc : String
  deriving DecidableEq, Repr

/-- The flags of a word that compiles: it runs while compiling, and at no other time. -/
def Header.structural : Cell := Header.immediate ||| Header.compileOnly

def ThreadWord.entry : ThreadWord → Entry
  | exit => ⟨"exit", Header.compileOnly, "exit ( -- ) Return from the current definition"⟩
  | lit => ⟨"(lit)", Header.compileOnly, "(lit) ( -- n ) Push the cell compiled after it"⟩
  | twoLit => ⟨"(2lit)", Header.compileOnly, "(2lit) ( -- d ) Push the two cells compiled after it"⟩
  | textLit => ⟨"(s\")", Header.compileOnly,
      "(s\") ( -- a u ) Push the inline string compiled after it"⟩
  | branch => ⟨"branch", Header.compileOnly, "branch ( -- ) Jump by the offset compiled after it"⟩
  | zeroBranch => ⟨"0branch", Header.compileOnly,
      "0branch ( f -- ) Jump by the offset compiled after it if f is zero"⟩
  | enterDo => ⟨"(do)", Header.compileOnly,
      "(do) ( limit index -- ) Move loop parameters to the return stack"⟩
  | enterQuestionDo => ⟨"(?do)", Header.compileOnly,
      "(?do) ( limit index -- ) As (do), but skip the loop if limit = index"⟩
  | stepLoop => ⟨"(loop)", Header.compileOnly,
      "(loop) ( -- ) Step the index by one and jump back unless the limit was crossed"⟩
  | stepPlusLoop => ⟨"(+loop)", Header.compileOnly,
      "(+loop) ( n -- ) Step the index by n and jump back unless the limit was crossed"⟩
  | unloop => ⟨"unloop", Header.compileOnly,
      "unloop ( -- ) Discard the loop parameters of the innermost loop"⟩
  | testOf => ⟨"(of)", Header.compileOnly,
      "(of) ( x1 x2 -- | x1 ) Continue if x1 = x2, else keep x1 and jump"⟩
  | setDoes => ⟨"(does>)", Header.compileOnly,
      "(does>) ( -- ) Give the latest word the behaviour that follows, and exit"⟩
  | testAbort => ⟨"(abort\")", Header.compileOnly,
      "(abort\") ( f a u -- ) Abort with the message a u if f is true"⟩
  | execute => ⟨"execute", 0,
      "execute ( xt -- ) Run the word whose execution token is on the stack"⟩

def StackWord.entry : StackWord → Entry
  | dup => ⟨"dup", 0, "dup ( n -- n n ) Push a second copy of the top of stack"⟩
  | drop => ⟨"drop", 0, "drop ( n -- ) Pop the top element off the stack"⟩
  | swap => ⟨"swap", 0, "swap ( m n -- n m ) Reverse the order of the top two stack elements"⟩
  | over_ => ⟨"over", 0, "over ( m n -- m n m ) Push a copy of the second item on the stack on to"⟩
  | rot => ⟨"rot", 0, "rot ( i j k -- j k i ) Move the third stack item to the top"⟩
  | minusRot => ⟨"-rot", 0, "-rot ( i j k -- k i j ) Move the top stack item to third place"⟩
  | nip => ⟨"nip", 0, "nip ( m n -- n ) Drop the second item"⟩
  | tuck => ⟨"tuck", 0, "tuck ( m n -- n m n ) Copy the top item below the second"⟩
  | questionDup => ⟨"?dup", 0, "?dup ( n -- n n | 0 ) Duplicate the top of stack if it is not zero"⟩
  | pick => ⟨"pick", 0,
      "pick ( .. n -- .. v ) Push a copy of the nth item on the stack (after removing n) on top"⟩
  | roll => ⟨"roll", 0,
      "roll ( .. n -- .. v ) Rotate the nth item on the stack (after removing n) to the top"⟩
  | depth => ⟨"depth", 0, "depth ( -- n ) Push the current stack depth"⟩
  | twoDup => ⟨"2dup", 0, "2dup ( a b -- a b a b ) Copy the top pair"⟩
  | twoDrop => ⟨"2drop", 0, "2drop ( a b -- ) Drop the top pair"⟩
  | twoSwap => ⟨"2swap", 0, "2swap ( a b c d -- c d a b ) Exchange the top two pairs"⟩
  | twoOver => ⟨"2over", 0, "2over ( a b c d -- a b c d a b ) Copy the second pair to the top"⟩
  | toR => ⟨">r", Header.compileOnly, ">r ( n -- ) Pop stack and push value to return stack"⟩
  | rFrom => ⟨"r>", Header.compileOnly,
      "r> ( -- n ) Pop return stack and push value to calculation stack"⟩
  | rFetch => ⟨"r@", Header.compileOnly,
      "r@ ( -- n ) Push the value on the top of the return stack to the calculation stack"⟩
  | twoToR => ⟨"2>r", Header.compileOnly, "2>r ( a b -- ) Move a pair to the return stack"⟩
  | twoRFrom => ⟨"2r>", Header.compileOnly, "2r> ( -- a b ) Move a pair from the return stack"⟩
  | twoRFetch => ⟨"2r@", Header.compileOnly, "2r@ ( -- a b ) Copy a pair from the return stack"⟩
  | loopIndex => ⟨"i", Header.compileOnly, "i ( -- n ) Push the current loop index"⟩
  | outerIndex => ⟨"j", Header.compileOnly, "j ( -- n ) Push the second-level (outer) loop index"⟩
  | clear => ⟨"clear", 0, "clear ( .. -- ) Reset the stack to empty"⟩

def CellWord.entry : CellWord → Entry
  | plus => ⟨"+", 0, "+ ( j k -- j+k ) Push j+k on the stack"⟩
  | minus => ⟨"-", 0, "- ( j k -- j-k ) Push j-k on the stack"⟩
  | star => ⟨"*", 0, "* ( j k -- j*k ) Push j*k on the stack"⟩
  | slash => ⟨"/", 0, "/ ( j k -- j/k ) Floored quotient of j by k"⟩
  | mod => ⟨"mod", 0, "mod ( j k -- r ) Floored remainder of j by k"⟩
  | slashMod => ⟨"/mod", 0, "/mod ( j k -- r q ) Floored remainder and quotient"⟩
  | starSlash => ⟨"*/", 0, "*/ ( a b c -- a*b/c ) Multiply to a double, then floored divide"⟩
  | starSlashMod => ⟨"*/mod", 0, "*/mod ( a b c -- r q ) As */, also leaving the remainder"⟩
  | onePlus => ⟨"1+", 0, "1+ ( n -- n+1 ) Add one"⟩
  | oneMinus => ⟨"1-", 0, "1- ( n -- n-1 ) Subtract one"⟩
  | negate => ⟨"negate", 0, "negate ( n -- -n ) Change the sign"⟩
  | abs => ⟨"abs", 0, "abs ( n -- |n| ) Absolute value"⟩
  | min => ⟨"min", 0, "min ( a b -- n ) The smaller of a and b"⟩
  | max => ⟨"max", 0, "max ( a b -- n ) The larger of a and b"⟩
  | bitAnd => ⟨"and", 0, "and ( a b -- a & b ) Pop a and b, returning the logical and"⟩
  | bitOr => ⟨"or", 0, "or ( a b -- a | b ) Pop a and b, returning the logical or"⟩
  | bitXor => ⟨"xor", 0, "xor ( a b -- a ^ b ) Pop a and b, returning the exclusive or"⟩
  | invert => ⟨"invert", 0, "invert ( a -- ~a ) Flip every bit"⟩
  | shiftLeft => ⟨"lshift", 0, "lshift ( a u -- a<<u ) Logical shift left"⟩
  | shiftRight => ⟨"rshift", 0, "rshift ( a u -- a>>u ) Logical shift right"⟩
  | twoStar => ⟨"2*", 0, "2* ( a -- a*2 ) Shift left by one"⟩
  | twoSlash => ⟨"2/", 0, "2/ ( a -- a/2 ) Arithmetic shift right by one"⟩
  | equal => ⟨"=", 0, "= ( j k -- b ) If j == k push true else false"⟩
  | notEqual => ⟨"<>", 0, "<> ( j k -- b ) If j != k push true else false"⟩
  | less => ⟨"<", 0, "< ( j k -- b ) If j < k push true else false"⟩
  | greater => ⟨">", 0, "> ( j k -- b ) If j > k push true else false"⟩
  | unsignedLess => ⟨"u<", 0, "u< ( j k -- b ) Unsigned comparison"⟩
  | zeroEqual => ⟨"0=", 0, "0= ( j -- b ) If j == 0 push true else false"⟩
  | zeroNotEqual => ⟨"0<>", 0, "0<> ( j -- b ) If j != 0 push true else false"⟩
  | zeroLess => ⟨"0<", 0, "0< ( j -- b ) If j < 0 push true else false"⟩
  | zeroGreater => ⟨"0>", 0, "0> ( j -- b ) If j > 0 push true else false"⟩
  | within => ⟨"within", 0, "within ( n lo hi -- b ) True if lo <= n < hi, with wraparound"⟩
  | trueFlag => ⟨"true", 0, "true ( -- -1 ) Push the canonical true value on the stack"⟩
  | falseFlag => ⟨"false", 0, "false ( -- 0 ) Push the canonical false value on the stack"⟩

def DoubleWord.entry : DoubleWord → Entry
  | mStar => ⟨"m*", 0, "m* ( a b -- d ) Signed product as a double"⟩
  | umStar => ⟨"um*", 0, "um* ( u1 u2 -- ud ) Unsigned product as a double"⟩
  | umSlashMod => ⟨"um/mod", 0, "um/mod ( ud u -- r q ) Unsigned division of a double"⟩
  | fmSlashMod => ⟨"fm/mod", 0, "fm/mod ( d n -- r q ) Floored division of a double"⟩
  | smSlashRem => ⟨"sm/rem", 0, "sm/rem ( d n -- r q ) Symmetric division of a double"⟩
  | dPlus => ⟨"d+", 0, "d+ ( d1 d2 -- d ) Double sum"⟩
  | dMinus => ⟨"d-", 0, "d- ( d1 d2 -- d ) Double difference"⟩
  | dNegate => ⟨"dnegate", 0, "dnegate ( d -- -d ) Change the sign of a double"⟩
  | dAbs => ⟨"dabs", 0, "dabs ( d -- |d| ) Double absolute value"⟩
  | sToD => ⟨"s>d", 0, "s>d ( n -- d ) Sign-extend a cell to a double"⟩
  | dToS => ⟨"d>s", 0, "d>s ( d -- n ) Truncate a double to a cell"⟩
  | dEqual => ⟨"d=", 0, "d= ( d1 d2 -- b ) Doubles equal"⟩
  | dLess => ⟨"d<", 0, "d< ( d1 d2 -- b ) Signed double comparison"⟩
  | dZeroEqual => ⟨"d0=", 0, "d0= ( d -- b ) Double is zero"⟩
  | mPlus => ⟨"m+", 0, "m+ ( d n -- d ) Add a cell to a double"⟩

def MemoryWord.entry : MemoryWord → Entry
  | fetch => ⟨"@", 0, "@ ( a -- v ) Push the cell at address a"⟩
  | store => ⟨"!", 0, "! ( v a -- ) Store v at address a"⟩
  | fetchByte => ⟨"c@", 0, "c@ ( a -- c ) Push the byte at address a"⟩
  | storeByte => ⟨"c!", 0, "c! ( c a -- ) Store byte c at address a"⟩
  | plusStore => ⟨"+!", 0, "+! ( n a -- ) Add n to the cell at address a"⟩
  | twoFetch => ⟨"2@", 0, "2@ ( a -- d ) Push the double at address a"⟩
  | twoStore => ⟨"2!", 0, "2! ( d a -- ) Store the double d at address a"⟩
  | cellPlus => ⟨"cell+", 0, "cell+ ( a -- a' ) Add the size of a cell"⟩
  | cells => ⟨"cells", 0, "cells ( n -- n' ) Size of n cells in bytes"⟩
  | charPlus => ⟨"char+", 0, "char+ ( a -- a' ) Add the size of a character"⟩
  | chars => ⟨"chars", 0, "chars ( n -- n' ) Size of n characters in bytes"⟩
  | aligned => ⟨"aligned", 0, "aligned ( a -- a' ) Round up to a cell boundary"⟩
  | fill => ⟨"fill", 0, "fill ( a u c -- ) Store c in u bytes starting at a"⟩
  | erase => ⟨"erase", 0, "erase ( a u -- ) Zero u bytes starting at a"⟩
  | move => ⟨"move", 0, "move ( from to u -- ) Copy u bytes; the ranges may overlap"⟩
  | count => ⟨"count", 0, "count ( a -- a+1 u ) Address and length of a counted string"⟩

def DefiningWord.entry : DefiningWord → Entry
  | here => ⟨"here", 0, "here ( -- a ) Push the first free dictionary address"⟩
  | allot => ⟨"allot", 0, "allot ( n -- ) Reserve n bytes of dictionary space"⟩
  | comma => ⟨",", 0, ", ( n -- ) copies the top of the stack to the top of the dictionary"⟩
  | commaByte => ⟨"c,", 0, "c, ( c -- ) copies a byte to the top of the dictionary"⟩
  | align => ⟨"align", 0, "align ( -- ) Round HERE up to a cell boundary"⟩
  | unused => ⟨"unused", 0, "unused ( -- u ) Bytes left between code and names"⟩
  | colon => ⟨":", 0, ": <name> starts a new definition"⟩
  | nameless => ⟨":noname", 0, ":noname ( -- xt ) starts a definition without a name"⟩
  | semicolon => ⟨";", Header.structural,
      "; ( -- ) terminate a definition, resetting to interpret mode"⟩
  | create => ⟨"create", 0, "create <name> ( -- ) creates a word that pushes its body address"⟩
  | does => ⟨"does>", Header.structural,
      "does> ( -- ) give the latest CREATEd word the behaviour that follows"⟩
  | newConstant => ⟨"constant", 0, "constant <name> ( n -- ) creates a word that pushes n"⟩
  | newVariable => ⟨"variable", 0,
      "variable <name> ( -- ) creates a word that pushes the address of a cell"⟩
  | toBody => ⟨">body", 0, ">body ( xt -- a ) Body address of a CREATEd word"⟩
  | immediate => ⟨"immediate", 0,
      "immediate sets the immediate flag on the most recently defined word"⟩
  | recurse => ⟨"recurse", Header.structural,
      "recurse ( -- ) compile a call to the definition being compiled"⟩
  | tick => ⟨"'", 0,
      "' <name> ( -- xt ) searches the dictionary for a (postfix) word, returning its xt"⟩
  | bracketTick => ⟨"[']", Header.structural,
      "['] <name> ( -- ) compile the xt of a word as a literal"⟩
  | literal => ⟨"literal", Header.structural, "literal ( n -- ) compile n as a literal"⟩
  | twoLiteral => ⟨"2literal", Header.structural, "2literal ( d -- ) compile d as a literal"⟩
  | compileComma => ⟨"compile,", 0, "compile, ( xt -- ) append xt to the current definition"⟩
  | postpone => ⟨"postpone", Header.structural,
      "postpone <name> ( -- ) compile the compilation behaviour of a word"⟩
  | leftBracket => ⟨"[", Header.immediate, "[ ( -- ) switch to interpret mode"⟩
  | rightBracket => ⟨"]", 0, "] ( -- ) switch to compile mode"⟩
  | state => ⟨"state", 0, "state ( -- a ) address of the compile state flag"⟩

def ControlWord.entry : ControlWord → Entry
  | if_ => ⟨"if", Header.structural, "if ( f -- ) run the following code if f is not zero"⟩
  | else_ => ⟨"else", Header.structural, "else ( -- ) start the alternative of an IF"⟩
  | then_ => ⟨"then", Header.structural, "then ( -- ) end an IF or IF ELSE"⟩
  | begin => ⟨"begin", Header.structural, "begin ( -- ) start a loop"⟩
  | again => ⟨"again", Header.structural, "again ( -- ) jump back to BEGIN"⟩
  | until_ => ⟨"until", Header.structural, "until ( f -- ) jump back to BEGIN while f is zero"⟩
  | while_ => ⟨"while", Header.structural, "while ( f -- ) leave a BEGIN loop if f is zero"⟩
  | repeat_ => ⟨"repeat", Header.structural,
      "repeat ( -- ) jump back to BEGIN, and mark the exit from WHILE"⟩
  | do_ => ⟨"do", Header.structural, "do ( limit index -- ) start a counted loop"⟩
  | questionDo => ⟨"?do", Header.structural,
      "?do ( limit index -- ) start a counted loop that runs zero times if limit = index"⟩
  | loop => ⟨"loop", Header.structural,
      "loop ( -- ) add one to the index and repeat until the limit is crossed"⟩
  | plusLoop => ⟨"+loop", Header.structural,
      "+loop ( n -- ) add n to the index and repeat until the limit is crossed"⟩
  | leave => ⟨"leave", Header.structural, "leave ( -- ) exit the innermost counted loop"⟩
  | case_ => ⟨"case", Header.structural, "case ( x -- x ) start a CASE selection"⟩
  | of_ => ⟨"of", Header.structural, "of ( x1 x2 -- | x1 ) run the following code if x1 = x2"⟩
  | endOf => ⟨"endof", Header.structural, "endof ( -- ) end an OF clause"⟩
  | endCase => ⟨"endcase", Header.structural,
      "endcase ( x -- ) end a CASE selection, dropping the selector"⟩

def InputWord.entry : InputWord → Entry
  | evaluate => ⟨"evaluate", 0, "evaluate ( a u -- ) interpret the string a u"⟩
  | source => ⟨"source", 0, "source ( -- a u ) address and length of the input buffer"⟩
  | toIn => ⟨">in", 0, ">in ( -- a ) address of the parse position"⟩
  | base => ⟨"base", 0, "base ( -- a ) address of the number base"⟩
  | pointCount => ⟨"dpl", 0,
      "dpl ( -- a ) address of the digit count after the last punctuation in a double"⟩
  | decimal => ⟨"decimal", 0, "decimal ( -- ) set the number base to ten"⟩
  | hex => ⟨"hex", 0, "hex ( -- ) set the number base to sixteen"⟩
  | parse => ⟨"parse", 0, "parse ( c -- a u ) parse text up to the delimiter c"⟩
  | parseName => ⟨"parse-name", 0, "parse-name ( -- a u ) parse the next space-delimited name"⟩
  | charCode => ⟨"char", 0, "char <c> ( -- c ) push the first character of the next name"⟩
  | bracketChar => ⟨"[char]", Header.structural,
      "[char] <c> ( -- ) compile the first character of the next name"⟩
  | comment => ⟨"(", Header.immediate, "( ( -- ) comment up to the next )"⟩
  | lineComment => ⟨"\\", Header.immediate, "\\ ( -- ) comment to the end of the line"⟩
  | textQuote => ⟨"s\"", Header.immediate,
      "s\" <text>\" ( -- a u ) a string, compiled or held in PAD"⟩
  | dotQuote => ⟨".\"", Header.immediate, ".\" <text>\" ( -- ) print the string"⟩
  | includeFile => ⟨"include", 0, "include <file> ( -- ) read source lines from a file"⟩
  | bye => ⟨"bye", 0, "bye: exits to the operating system"⟩
  | abort => ⟨"abort", 0, "abort ( -- ) Ends execution of the current word and clears the stack"⟩
  | abortQuote => ⟨"abort\"", Header.structural,
      "abort\" <text>\" ( f -- ) abort with a message if f is true"⟩

def OutputWord.entry : OutputWord → Entry
  | emit => ⟨"emit", 0, "emit ( c -- ) sends character c to the terminal"⟩
  | typeText => ⟨"type", 0, "type ( a u -- ) print u characters starting at a"⟩
  | cr => ⟨"cr", 0, "cr ( -- ) start a new line"⟩
  | dot => ⟨".", 0, ". ( n -- ) print n in the current base"⟩
  | uDot => ⟨"u.", 0, "u. ( u -- ) print u unsigned in the current base"⟩
  | dDot => ⟨"d.", 0, "d. ( d -- ) print the double d in the current base"⟩
  | dotS => ⟨".s", 0, ".s ( -- ) Print the contents of the calculation stack"⟩
  | flush => ⟨"flush", 0, "flush: forces pending output to appear on the terminal"⟩

def DiagnosticWord.entry : DiagnosticWord → Entry
  | see => ⟨"see", 0, "see <name> decompiles and prints a word"⟩
  | words => ⟨"words", 0, "words ( -- ) list the words in the dictionary"⟩
  | showStack => ⟨"show-stack", 0,
      "show-stack ( -- ) Display the stack at the end of each line of console input"⟩
  | hideStack => ⟨"hide-stack", 0, "hide-stack ( -- ) Turn off automatic stack display"⟩
  | traceOn => ⟨"trace-on", 0, "trace-on ( -- ) log every word executed, at trace level"⟩
  | traceOff => ⟨"trace-off", 0, "trace-off ( -- ) stop logging executed words"⟩

namespace Prim

def entry : Prim → Entry
  | thread word => word.entry
  | stack word => word.entry
  | cell word => word.entry
  | double word => word.entry
  | memory word => word.entry
  | defining word => word.entry
  | control word => word.entry
  | input word => word.entry
  | output word => word.entry
  | diagnostic word => word.entry

def name (prim : Prim) : String := prim.entry.name

end Prim

end ThreadedForth
