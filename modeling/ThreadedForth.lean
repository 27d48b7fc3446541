import ThreadedForth.Main
import ThreadedForth.Proofs.Stack.Refinement
import ThreadedForth.Proofs.Number.Grammar
import ThreadedForth.Proofs.LineEditor.History
import ThreadedForth.Proofs.Dictionary.Links
import ThreadedForth.Proofs.Machine.Operands
import ThreadedForth.Proofs.Arithmetic.CountedLoop
import ThreadedForth.Proofs.Interpreter.Tokens
import ThreadedForth.Proofs.Compiler.Reservation
import ThreadedForth.Proofs.Compiler.Decompile
import ThreadedForth.Proofs.Session.Visibility
import ThreadedForth.Proofs.Session.ControlStack
import ThreadedForth.Proofs.Session.Recursion
import ThreadedForth.Proofs.Session.LineBreaks
import ThreadedForth.Proofs.Structured.Family
import ThreadedForth.Proofs.Memory.Allotment
import ThreadedForth.Proofs.Number.Printing
import ThreadedForth.Proofs.Memory.Access
