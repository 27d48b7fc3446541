import ThreadedForth.Machine.Basic

/-!
# Open structures

Markers on the control stack take two cells, the address below the tag. Resolving a marker means
storing, in the offset cell it names, the distance from that cell to `here`; a branch whose offset
cell is at `p` goes on at `p` plus the offset.
-/

namespace ThreadedForth.WordM

def markerDepth : WordM Nat := ask fun machine => .ok (machine.control.depth / 2)

def pushControl (value : Cell) : WordM Unit := fun machine =>
  match machine.control.push value machine.memory with
  | .ok control memory => .ok () { machine with control, memory }
  | .error fault memory => .error fault { machine with memory }

def popControl : WordM Cell := fun machine =>
  match machine.control.pop machine.memory with
  | .ok (value, control) => .ok value { machine with control }
  | .error fault => .error fault machine

/-- Leave a marker. Room for both cells is checked first. -/
def pushMarker (marker : Marker) : WordM Unit := do
  ask fun machine =>
    if machine.control.capacity - machine.control.depth < 2 then .error (.stackOverflow .control)
    else .ok ()
  pushControl (Cell.ofNat marker.address)
  pushControl marker.tag.toCell

def popMarker : WordM Marker := do
  if (← markerDepth) = 0 then throw .nesting
  let tag ← popControl
  let address ← popControl
  match Tag.ofCell? tag with
  | some tag => return ⟨tag, Cell.toAddress address⟩
  | none => throw .nesting

def topTag : WordM (Option Tag) := ask fun machine =>
  if machine.control.depth / 2 = 0 then .ok none
  else
    match machine.control.peek machine.memory 0 with
    | .ok cell => .ok (Tag.ofCell? cell)
    | .error _ => .ok none

/-- Take markers until one is accepted, passing over those that may be skipped. The answer is the
accepted marker and those passed over, the deepest at the front. Each step takes a marker. -/
def popUntil (accept skip : Tag → Bool) : Nat → List Marker → WordM (Marker × List Marker)
  | 0, _ => throw .nesting
  | steps + 1, passed => do
    let marker ← popMarker
    if accept marker.tag then return (marker, passed)
    else if skip marker.tag then popUntil accept skip steps (marker :: passed)
    else throw .nesting

/-- Take the newest marker with one of the tags, passing over the exits of a loop if asked to. What
was passed over is put back as it was. The answer is the marker's address. -/
def popExpected (tags : List Tag) (pastWhile : Bool) : WordM Nat := do
  let depth ← markerDepth
  let isExit (tag : Tag) : Bool := pastWhile && tag == .while_
  let (found, passed) ← popUntil tags.contains isExit (depth + 1) []
  passed.forM pushMarker
  return found.address

/-- Make the branch with its offset cell at `placeholder` end at `here`. -/
def patch (placeholder : Nat) : WordM Unit := do
  writeCell placeholder (Cell.ofNat (← here) - Cell.ofNat placeholder)

/-- Append a branch with an offset still to come. The answer is the address of its offset cell. -/
def compileBranch (jump : ThreadWord) : WordM Nat := do
  compile (.thread jump)
  let placeholder ← here
  comma 0
  return placeholder

def branchForward (jump : ThreadWord) (tag : Tag) : WordM Unit := do
  let placeholder ← compileBranch jump
  pushMarker ⟨tag, placeholder⟩

/-- End the newest open branch of one of the kinds here. -/
def resolveForward (tags : List Tag) (pastWhile : Bool) : WordM Unit := do
  patch (← popExpected tags pastWhile)

/-- End here all branches of one kind that are newest. -/
def resolveRun (tag : Tag) : Nat → WordM Unit
  | 0 => pure ()
  | steps + 1 => do
    if (← topTag) = some tag then
      patch (← popMarker).address
      resolveRun tag steps

/-- Remember this place as the target of a branch to come. -/
def markTarget (tag : Tag) : WordM Unit := do
  pushMarker ⟨tag, ← here⟩

/-- Append a branch back to the newest target of one of the kinds. -/
def branchBack (jump : ThreadWord) (tags : List Tag) : WordM Unit := do
  let target ← popExpected tags true
  compile (.thread jump)
  comma (Cell.ofNat target - Cell.ofNat (← here))

def closeMarker (tag : Tag) : WordM Unit := do
  if (← popMarker).tag ≠ tag then throw .nesting

end ThreadedForth.WordM
