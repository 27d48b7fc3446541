import ThreadedForth.Machine.Basic

/-!
# Requests

Most words finish their work at once. Three of them ask the interpreter to run something else
before the word that called them goes on.
-/

namespace ThreadedForth

inductive Request where
  | execute (token : Nat)
  | evaluate (text : Source)
  | load (path : String)
  deriving DecidableEq, Repr

end ThreadedForth
