import ThreadedForth.Text.Utf8

/-!
# Lines

Two ways to cut input into lines. Program text that is already at hand ends a line at a line feed or
at a carriage return followed by one. A stream of bytes, a file or the console, ends a line at a
line feed; every carriage return left at the end of the line is dropped as well, and a line that is
not well-formed text is reported in its place.
-/

namespace ThreadedForth.Lines

/-- The pieces between separators, each with whether a separator ended it. What follows the last
separator is a piece only if it is not empty. -/
def cut {α : Type} [BEq α] (separator : α) (items : List α) : List (List α × Bool) :=
  items.foldr
    (fun item pieces =>
      if item == separator then ([], true) :: pieces
      else
        match pieces with
        | [] => [([item], false)]
        | (piece, ended) :: rest => (item :: piece, ended) :: rest)
    []

def dropTrailing {α : Type} [BEq α] (item : α) (items : List α) : List α :=
  (items.reverse.dropWhile (· == item)).reverse

/-- The lines of a program text. A carriage return belongs to the line break only if a line feed
follows it. -/
def ofText (text : String) : List String :=
  (cut '\n' text.toList).map fun (line, ended) =>
    String.ofList (if ended ∧ line.getLast? = some '\r' then line.dropLast else line)

/-- The lines of a stream of bytes, `none` for one that is not well-formed text. -/
def ofBytes (bytes : List UInt8) : List (Option String) :=
  (cut 0x0A bytes).map fun (line, _) => Utf8.decode? (dropTrailing 0x0D line)

end ThreadedForth.Lines
