import ThreadedForth.Cell

/-!
# Markers

While a definition is compiled, the control stack carries one marker for each structure that is
still open. A marker is an address and a tag that names what left it: a forward marker holds the
address of an offset cell that waits for its target, a backward marker holds a branch target.
-/

namespace ThreadedForth

inductive Tag where
  | colon | if_ | else_ | while_ | doForward | doBack | leave | of_ | endOf | doStart | case_ | begin
  deriving DecidableEq, Repr

namespace Tag

def all : List Tag :=
  [colon, if_, else_, while_, doForward, doBack, leave, of_, endOf, doStart, case_, begin]

/-- The tag as the control stack holds it. Zero is no tag. -/
def toCell (tag : Tag) : Cell := Cell.ofNat (tag.ctorIdx + 1)

def ofCell? (cell : Cell) : Option Tag := all.find? (·.toCell == cell)

theorem ofCell?_toCell (tag : Tag) : ofCell? tag.toCell = some tag := by
  cases tag <;> rfl

end Tag

structure Marker where
  tag : Tag
  address : Nat
  deriving DecidableEq, Repr

end ThreadedForth
