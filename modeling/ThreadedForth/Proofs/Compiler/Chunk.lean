import ThreadedForth.Proofs.Compiler.Draft

/-!
# Chunks of code

Words that compile lay cells down, one behind the other. A chunk is what comes of it: the cells, and the draft as it was
below them. Only a lack of room is in the way.
-/

namespace ThreadedForth

open List

/-- The outcome of compiling is as it should be. Only a lack of room may be in the way. -/
def Does (room : Prop) (outcome : Option Draft) (post : Draft → Prop) : Prop :=
  match outcome with
  | some next => post next
  | none => ¬ room

namespace Does

variable {room : Prop} {outcome : Option Draft} {middle post : Draft → Prop}

theorem bind {rest : Draft → Option Draft} (hfst : Does room outcome middle)
    (hrest : ∀ next, middle next → Does room (rest next) post) : Does room (outcome.bind rest) post := by
  match outcome with
  | none => exact hfst
  | some next => exact hrest next hfst

theorem mono (hdoes : Does room outcome middle) (hpost : ∀ next, middle next → post next) : Does room outcome post := by
  match outcome with
  | none => exact hdoes
  | some next => exact hpost next hdoes

theorem of_eq_some {next : Draft} (hdoes : Does False outcome post) (hsome : outcome = some next) : post next := by
  subst hsome
  exact hdoes

end Does

/-- Some cells are laid down, and the markers may change. -/
structure Chunk (values : List Cell) (markers : List Marker) (draft next : Draft) : Prop where
  here_eq : next.here = draft.here + 4 * values.length
  here_le : draft.here ≤ draft.names → next.here ≤ next.names
  names_eq : next.names = draft.names
  markers_eq : next.markers = markers
  below : ∀ address, address < draft.here → next.cells address = draft.cells address
  held : ∀ (place : Nat) (value : Cell), values[place]? = some value →
    next.cells (draft.here + 4 * place) = value

variable {after markers : List Marker} {draft middle next : Draft} {value : Cell} {values : List Cell}

theorem Chunk.append {more : List Cell}
    (hfst : Chunk values markers draft middle) (hsnd : Chunk more after middle next) :
    Chunk (values ++ more) after draft next := by
  have hhere := hfst.here_eq
  have hthere := hsnd.here_eq
  refine ⟨by rw [length_append]; omega, fun hle => hsnd.here_le (hfst.here_le hle),
    hsnd.names_eq.trans hfst.names_eq, hsnd.markers_eq, fun addr haddr => ?_,
    fun place value hplace => ?_⟩
  · rw [hsnd.below addr (by omega), hfst.below addr haddr]
  · rw [getElem?_append] at hplace
    split at hplace
    · next hplace' =>
      rw [hsnd.below _ (by omega)]
      exact hfst.held place value hplace
    · next hplace' =>
      rw [← hsnd.held _ value hplace]
      congr 1
      omega

theorem Chunk.head (hchunk : Chunk (value :: values) markers draft next) : next.cells draft.here = value :=
  hchunk.held 0 value rfl

namespace Draft

variable {draft : Draft} {room : Prop}

theorem chunk_markers (draft : Draft) (markers : List Marker) : Chunk [] markers draft { draft with markers } :=
  ⟨rfl, id, rfl, rfl, fun _ _ => rfl, fun _ _ hplace => by cases hplace⟩

theorem does_emit (value : Cell) (hroom : room → draft.here + 4 ≤ draft.names) :
    Does room (draft.emit value) (Chunk [value] draft.markers draft) := by
  cases hemit : draft.emit value with
  | none =>
    intro hreally
    have henough := hroom hreally
    rw [emit, if_neg (by omega)] at hemit
    cases hemit
  | some next =>
    obtain ⟨hfits, rfl⟩ := of_emit_eq_some hemit
    refine ⟨rfl, fun _ => hfits, rfl, rfl, fun addr haddr => put_of_ne _ _ (by omega),
      fun place other hplace => ?_⟩
    cases place with
    | zero =>
      cases hplace
      exact put_self _ _ _
    | succ place => simp at hplace

theorem does_emit_emit (first : Cell) (second : Nat → Cell) (hroom : room → draft.here + 8 ≤ draft.names) :
    Does room ((draft.emit first).bind fun next => next.emit (second next.here))
      (Chunk [first, second (draft.here + 4)] draft.markers draft) := by
  refine (does_emit first fun hreally => by have := hroom hreally; omega).bind fun next hnext => ?_
  have hhere : next.here = draft.here + 4 := hnext.here_eq
  have hnames := hnext.names_eq
  refine (does_emit _ fun hreally => ?_).mono fun last hlast => ?_
  · have := hroom hreally
    omega
  · rw [hhere, hnext.markers_eq] at hlast
    exact hnext.append hlast

/-- The cells of the code that pushes a number. -/
def literal : Number → List Cell
  | .single value => [Cell.ofNat (Prim.thread .lit).token, value]
  | .double value => [Cell.ofNat (Prim.thread .twoLit).token, DoubleCell.low value, DoubleCell.high value]

theorem does_literal (value : Number) (hroom : room → draft.here + 4 * (literal value).length ≤ draft.names) :
    Does room (draft.number value) (Chunk (literal value) draft.markers draft) := by
  cases value with
  | single value => exact does_emit_emit _ (fun _ => value) hroom
  | double value =>
    have henough : room → draft.here + 12 ≤ draft.names := hroom
    refine (does_emit _ fun hreally => by have := henough hreally; omega).bind fun next hnext => ?_
    have hhere : next.here = draft.here + 4 := hnext.here_eq
    have hnames := hnext.names_eq
    refine (does_emit_emit _ (fun _ => DoubleCell.high value) fun hreally => ?_).mono fun last hlast => ?_
    · have := henough hreally
      omega
    · rw [hnext.markers_eq] at hlast
      exact hnext.append hlast

theorem does_emitBranch (jump : ThreadWord) (hroom : room → draft.here + 8 ≤ draft.names) :
    Does room (draft.emitBranch jump) (Chunk [Cell.ofNat (Prim.thread jump).token, 0] draft.markers draft) :=
  does_emit_emit _ (fun _ => 0) hroom

end Draft

end ThreadedForth
