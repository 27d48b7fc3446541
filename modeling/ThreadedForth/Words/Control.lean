import ThreadedForth.Machine.Markers

/-!
# Control structures

The words that open, divide and close structures run while a definition is compiled. They append
branches with inline offsets, and carry the places still to be resolved on the control stack.

A counted loop is laid out as

    (do) [to exit] body ... (loop) [to body] exit:

where only `(?do)` uses the first offset, to pass over a loop that would not run.
-/

namespace ThreadedForth.ControlWord

open WordM

/-- Append a branch past what follows, end the open branch here, and mark the new one. The branch
comes first, so that the old one lands just past it. -/
def divide (tags : List Tag) (pastWhile : Bool) (tag : Tag) : WordM Unit := do
  let placeholder ← compileBranch .branch
  resolveForward tags pastWhile
  pushMarker ⟨tag, placeholder⟩

def openLoop (enter : ThreadWord) : WordM Unit := do
  markTarget .doStart
  branchForward enter .doForward
  markTarget .doBack

/-- Close a counted loop: branch back, then end every early exit and the branch past the loop. -/
def closeLoop (step : ThreadWord) : WordM Unit := do
  branchBack step [.doBack]
  resolveRun .leave (← markerDepth)
  resolveForward [.doForward] false
  closeMarker .doStart

/-- Leave the innermost counted loop. The marker is filed beneath the one the loop branches back to,
so that structures opened inside the loop still match. -/
def leaveLoop : WordM Unit := do
  compile (.thread .unloop)
  let placeholder ← compileBranch .branch
  let depth ← markerDepth
  let (back, above) ← popUntil (· == .doBack) (fun _ => true) (depth + 1) []
  pushMarker ⟨.leave, placeholder⟩
  pushMarker back
  above.forM pushMarker

def perform : ControlWord → WordM Unit
  | if_ => branchForward .zeroBranch .if_
  | else_ => divide [.if_] true .else_
  | then_ => resolveForward [.if_, .else_, .while_] true
  | begin => markTarget .begin
  | again => branchBack .branch [.begin]
  | until_ => branchBack .zeroBranch [.begin]
  | while_ => branchForward .zeroBranch .while_
  | repeat_ => do
    branchBack .branch [.begin]
    resolveForward [.while_] false
  | do_ => openLoop .enterDo
  | questionDo => openLoop .enterQuestionDo
  | loop => closeLoop .stepLoop
  | plusLoop => closeLoop .stepPlusLoop
  | leave => leaveLoop
  | case_ => markTarget .case_
  | of_ => branchForward .testOf .of_
  | endOf => divide [.of_] false .endOf
  | endCase => do
    compile (.stack .drop)
    resolveRun .endOf (← markerDepth)
    closeMarker .case_

end ThreadedForth.ControlWord
