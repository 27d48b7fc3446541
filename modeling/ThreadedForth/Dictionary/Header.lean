import ThreadedForth.Cell

/-!
# Word headers

A header is five cells, and its address is that of the first:

    [ link ] [ name ] [ flags ] [ does ] [ code ] [ body ... ]

`link` is the address of the next older header, `name` that of the counted name, `does` that of the
code a `DOES>` word runs. The address of the code cell is the word's execution token. All field
addresses are computed from the header's address, or back from the token.
-/

namespace ThreadedForth

namespace Header

def size : Nat := 20

def linkField (header : Nat) : Nat := header

def nameField (header : Nat) : Nat := header + 4

def flagsField (header : Nat) : Nat := header + 8

def doesField (header : Nat) : Nat := header + 12

def token (header : Nat) : Nat := header + 16

def ofToken (token : Nat) : Nat := token - 16

/-- The first cell after the header of the word with this token. -/
def body (token : Nat) : Nat := token + 4

/-! ### Flags -/

/-- The definition is not finished yet. -/
def smudged : Cell := 1

/-- The word is never found by name. -/
def hidden : Cell := 2

/-- The word is executed even while compiling. -/
def immediate : Cell := 4

/-- The word may not be executed while interpreting. -/
def compileOnly : Cell := 8

def lacks (flags mask : Cell) : Bool := flags &&& mask == 0

end Header

structure Header where
  address : Nat
  /-- The next older header, or zero. -/
  link : Nat
  name : String
  flags : Cell
  does : Nat
  code : Cell
  deriving DecidableEq, Repr

namespace Header

def xt (header : Header) : Nat := token header.address

def isImmediate (header : Header) : Bool := !lacks header.flags immediate

def isCompileOnly (header : Header) : Bool := !lacks header.flags compileOnly

def isVisible (header : Header) : Bool := lacks header.flags (hidden ||| smudged)

end Header

end ThreadedForth
