
import ThreadedForth.Machine.Layout
import ThreadedForth.Marker
import ThreadedForth.Number.Literal

/-!
# Drafts

A draft is what the words that compile work on: the cells laid down so far, where the next one goes,
and the markers of the structures that are still open. Here each control word is a function on drafts,
with no stack and no memory; it gives nothing if the word faults.
-/

namespace ThreadedForth

structure Draft where
  /-- The cells of the definition, by address. -/
  cells : Nat → Cell
  here : Nat
  /-- The lowest byte that is taken by a name. -/
  names : Nat
  /-- The open structures, newest first. -/
  markers : List Marker

namespace Draft

/-- The number of structures that can be open at once. -/
def maxMarkers : Nat := 64

def put (cells : Nat → Cell) (address : Nat) (value : Cell) : Nat → Cell := fun other =>
  if other = address then value else cells other

variable {addr : Nat} {pastWhile : Bool} {tags : List Tag}

@[simp] theorem put_self (cells : Nat → Cell) (addr : Nat) (value : Cell) :
    put cells addr value addr = value :=
  if_pos rfl

theorem put_of_ne (cells : Nat → Cell) {other : Nat} (value : Cell) (hother : other ≠ addr) :
    put cells addr value other = cells other :=
  if_neg hother

/-- Lay a cell down. -/
def emit (value : Cell) (draft : Draft) : Option Draft :=
  if draft.names < draft.here + 4 then none
  else some { draft with cells := put draft.cells draft.here value, here := draft.here + 4 }

/-- Lay a call of a primitive down. -/
def compile (prim : Prim) (draft : Draft) : Option Draft := draft.emit (Cell.ofNat prim.token)

theorem of_emit_eq_some {value : Cell} {draft next : Draft} (hemit : draft.emit value = some next) :
    draft.here + 4 ≤ draft.names ∧
      next = { draft with cells := put draft.cells draft.here value, here := draft.here + 4 } := by
  rw [emit] at hemit
  split at hemit
  · cases hemit
  · next hroom =>
    cases hemit
    exact ⟨Nat.le_of_not_lt hroom, rfl⟩

/-- Lay code down that pushes a number. -/
def number : Number → Draft → Option Draft
  | .single value, draft => (draft.compile (.thread .lit)).bind (emit value)
  | .double value, draft =>
    (draft.compile (.thread .twoLit)).bind fun next =>
      (next.emit (DoubleCell.low value)).bind (emit (DoubleCell.high value))

/-- Leave a marker. -/
def mark (marker : Marker) (draft : Draft) : Option Draft :=
  if maxMarkers ≤ draft.markers.length then none
  else some { draft with markers := marker :: draft.markers }

/-- Make the branch with its offset cell at `placeholder` end at `here`. -/
def patch (placeholder : Nat) (draft : Draft) : Draft :=
  { draft with
    cells := put draft.cells placeholder (Cell.ofNat draft.here - Cell.ofNat placeholder) }

/-- The newest marker that is accepted, with those above it, which may all be skipped, and those
below it. -/
def split (accept skip : Tag → Bool) : List Marker → Option (List Marker × Marker × List Marker)
  | [] => none
  | marker :: rest =>
    if accept marker.tag then some ([], marker, rest)
    else if skip marker.tag then
      (split accept skip rest).map fun (above, found, below) => (marker :: above, found, below)
    else none

theorem of_split_eq_some {accept skip : Tag → Bool} {markers above below : List Marker} {found : Marker}
    (hsplit : split accept skip markers = some (above, found, below)) :
    markers = above ++ found :: below ∧ accept found.tag = true ∧ ∀ marker ∈ above, skip marker.tag = true := by
  induction markers generalizing above with
  | nil => cases hsplit
  | cons marker rest ih =>
    rw [split] at hsplit
    split at hsplit
    · next haccept =>
      cases hsplit
      exact ⟨rfl, haccept, fun _ hmark => by cases hmark⟩
    · split at hsplit
      · next hskip =>
        obtain ⟨⟨before, last, after⟩, hrest, hparts⟩ := Option.map_eq_some_iff.1 hsplit
        cases hparts
        obtain ⟨hmarks, haccept, hskipped⟩ := ih hrest
        refine ⟨by rw [hmarks]; rfl, haccept, fun other hother => ?_⟩
        rcases List.mem_cons.1 hother with rfl | hbefore
        · exact hskip
        · exact hskipped other hbefore
      · cases hsplit

/-- Take the newest marker with one of the tags. -/
def take (tags : List Tag) (pastWhile : Bool) (draft : Draft) : Option (Nat × Draft) :=
  (split tags.contains (fun tag => pastWhile && tag == .while_) draft.markers).map
    fun (above, found, below) => (found.address, { draft with markers := above ++ below })

theorem of_take_eq_some {draft next : Draft} (htake : draft.take tags pastWhile = some (addr, next)) :
    ∃ above found below, draft.markers = above ++ found :: below ∧ found.tag ∈ tags ∧
      addr = found.address ∧ next = { draft with markers := above ++ below } := by
  obtain ⟨⟨above, found, below⟩, hsplit, hparts⟩ := Option.map_eq_some_iff.1 htake
  obtain ⟨hmarks, haccept, _⟩ := of_split_eq_some hsplit
  cases hparts
  exact ⟨above, found, below, hmarks, List.contains_iff_mem.1 haccept, rfl, rfl⟩

/-- Lay a branch down, its offset still to come. -/
def emitBranch (jump : ThreadWord) (draft : Draft) : Option Draft :=
  (draft.compile (.thread jump)).bind (emit 0)

theorem emit_bind_emit (draft : Draft) (value : Cell) (operand : Nat → Cell) :
    ((draft.emit value).bind fun next => next.emit (operand next.here)) =
      if draft.names < draft.here + 8 then none
      else some { draft with
        cells := put (put draft.cells draft.here value) (draft.here + 4) (operand (draft.here + 4))
        here := draft.here + 8 } := by
  rw [emit]
  by_cases hone : draft.names < draft.here + 4
  · rw [if_pos hone, if_pos (by omega)]
    rfl
  · rw [if_neg hone, Option.bind_some, emit]

theorem emitBranch_eq (jump : ThreadWord) (draft : Draft) :
    draft.emitBranch jump =
      if draft.names < draft.here + 8 then none
      else some { draft with
        cells := put (put draft.cells draft.here (Cell.ofNat (Prim.thread jump).token)) (draft.here + 4) 0
        here := draft.here + 8 } :=
  emit_bind_emit draft (Cell.ofNat (Prim.thread jump).token) fun _ => 0

def branchForward (jump : ThreadWord) (tag : Tag) (draft : Draft) : Option Draft :=
  (draft.emitBranch jump).bind (mark ⟨tag, draft.here + 4⟩)

def resolveForward (tags : List Tag) (pastWhile : Bool) (draft : Draft) : Option Draft :=
  (draft.take tags pastWhile).map fun (placeholder, next) => next.patch placeholder

theorem here_of_resolveForward {draft next : Draft}
    (hresolve : draft.resolveForward tags pastWhile = some next) : next.here = draft.here := by
  obtain ⟨⟨placeholder, taken⟩, htake, rfl⟩ := Option.map_eq_some_iff.1 hresolve
  obtain ⟨_, _, _, _, _, _, rfl⟩ := of_take_eq_some htake
  rfl

/-- End here all branches of one kind that are newest. -/
def resolveRun (tag : Tag) (draft : Draft) : Draft :=
  (draft.markers.takeWhile (·.tag == tag)).foldl (fun next marker => next.patch marker.address)
    { draft with markers := draft.markers.dropWhile (·.tag == tag) }

theorem resolveRun_of_tag {draft : Draft} {marker : Marker} {rest : List Marker}
    (hmarks : draft.markers = marker :: rest) :
    draft.resolveRun marker.tag =
      ({ draft with markers := rest }.patch marker.address).resolveRun marker.tag := by
  rw [resolveRun, resolveRun, hmarks]
  simp only [List.takeWhile_cons, List.dropWhile_cons, BEq.rfl, if_true, List.foldl_cons]
  rfl

theorem resolveRun_of_done {draft : Draft} {tag : Tag}
    (hdone : draft.markers.head?.map Marker.tag ≠ some tag) : draft.resolveRun tag = draft := by
  rw [resolveRun]
  cases hmarks : draft.markers with
  | nil =>
    rw [List.takeWhile_nil, List.dropWhile_nil, List.foldl_nil, ← hmarks]
  | cons marker rest =>
    have hother : (marker.tag == tag) = false := by
      rw [hmarks] at hdone
      exact beq_eq_false_iff_ne.2 fun hsame => hdone (congrArg some hsame)
    simp only [List.takeWhile_cons, List.dropWhile_cons, hother, Bool.false_eq_true, if_false, List.foldl_nil]
    rw [← hmarks]

def markTarget (tag : Tag) (draft : Draft) : Option Draft := draft.mark ⟨tag, draft.here⟩

/-- Lay a branch to a target down. -/
def emitBack (jump : ThreadWord) (target : Nat) (draft : Draft) : Option Draft :=
  (draft.compile (.thread jump)).bind fun next => next.emit (Cell.ofNat target - Cell.ofNat next.here)

/-- Lay a branch down that goes back to the newest target of one of the kinds. -/
def branchBack (jump : ThreadWord) (tags : List Tag) (draft : Draft) : Option Draft :=
  (draft.take tags true).bind fun (target, next) => next.emitBack jump target

/-- Take the newest marker, which must have the tag. -/
def closeMarker (tag : Tag) (draft : Draft) : Option Draft :=
  match draft.markers with
  | [] => none
  | marker :: rest => if marker.tag = tag then some { draft with markers := rest } else none

/-! ### Control words -/

def divide (tags : List Tag) (pastWhile : Bool) (tag : Tag) (draft : Draft) : Option Draft := do
  let next ← draft.emitBranch .branch
  let next ← next.resolveForward tags pastWhile
  next.mark ⟨tag, draft.here + 4⟩

def openLoop (enter : ThreadWord) (draft : Draft) : Option Draft := do
  let next ← draft.markTarget .doStart
  let next ← next.branchForward enter .doForward
  next.markTarget .doBack

def closeLoop (step : ThreadWord) (draft : Draft) : Option Draft := do
  let next ← draft.branchBack step [.doBack]
  let next ← (next.resolveRun .leave).resolveForward [.doForward] false
  next.closeMarker .doStart

/-- File a marker beneath the one that the innermost loop branches back to. -/
def fileLeave (placeholder : Nat) (draft : Draft) : Option Draft := do
  let (above, back, below) ← split (· == .doBack) (fun _ => true) draft.markers
  if maxMarkers ≤ draft.markers.length then none
  else some { draft with markers := above ++ back :: ⟨.leave, placeholder⟩ :: below }

def leaveLoop (draft : Draft) : Option Draft := do
  let next ← draft.compile (.thread .unloop)
  let branched ← next.emitBranch .branch
  branched.fileLeave (next.here + 4)

end Draft

/-- What a control word makes of a draft. -/
def ControlWord.draft : ControlWord → Draft → Option Draft
  | if_ => Draft.branchForward .zeroBranch .if_
  | else_ => Draft.divide [.if_] true .else_
  | then_ => Draft.resolveForward [.if_, .else_, .while_] true
  | begin => Draft.markTarget .begin
  | again => Draft.branchBack .branch [.begin]
  | until_ => Draft.branchBack .zeroBranch [.begin]
  | while_ => Draft.branchForward .zeroBranch .while_
  | repeat_ => fun draft =>
    (draft.branchBack .branch [.begin]).bind (Draft.resolveForward [.while_] false)
  | do_ => Draft.openLoop .enterDo
  | questionDo => Draft.openLoop .enterQuestionDo
  | loop => Draft.closeLoop .stepLoop
  | plusLoop => Draft.closeLoop .stepPlusLoop
  | leave => Draft.leaveLoop
  | case_ => Draft.markTarget .case_
  | of_ => Draft.branchForward .testOf .of_
  | endOf => Draft.divide [.of_] false .endOf
  | endCase => fun draft =>
    (draft.compile (.stack .drop)).bind fun next => (next.resolveRun .endOf).closeMarker .case_

end ThreadedForth
