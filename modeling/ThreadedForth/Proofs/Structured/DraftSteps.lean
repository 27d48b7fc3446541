
import ThreadedForth.Proofs.Compiler.Chunk
import ThreadedForth.Proofs.Structured.Instruction

/-!
# Steps of a draft

What the words that compile do to a draft is made of two kinds of steps: cells are laid down, or branches
that were waiting are ended. A step fails only for a lack of room.
-/

namespace ThreadedForth

open List

/-! ### Steps -/

/-- Some branches now end here, and their markers are gone. -/
structure Patched (places : List Nat) (markers : List Marker) (draft next : Draft) : Prop where
  here_eq : next.here = draft.here
  names_eq : next.names = draft.names
  markers_eq : next.markers = markers
  ended : ∀ place ∈ places, next.cells place = distance draft.here place
  others : ∀ address, address ∉ places → next.cells address = draft.cells address

variable {after markers : List Marker} {draft middle : Draft}

theorem Patched.append {places more : List Nat} {next : Draft}
    (hfst : Patched places markers draft middle) (hsnd : Patched more after middle next) :
    Patched (more ++ places) after draft next := by
  refine ⟨hsnd.here_eq.trans hfst.here_eq, hsnd.names_eq.trans hfst.names_eq, hsnd.markers_eq,
    fun place hplace => ?_, fun addr haddr => ?_⟩
  · by_cases hagain : place ∈ more
    · rw [hsnd.ended place hagain, hfst.here_eq]
    · rw [hsnd.others place hagain, hfst.ended place ((mem_append.1 hplace).resolve_left hagain)]
  · rw [mem_append, not_or] at haddr
    rw [hsnd.others addr haddr.1, hfst.others addr haddr.2]

namespace Draft

variable {draft : Draft} {room : Prop} {marker : Marker} {markers : List Marker} {tags : List Tag}
  {pastWhile : Bool}

theorem does_number (value : Number) (hroom : room → draft.here + (Op.number value).size ≤ draft.names) :
    Does room (draft.number value)
      (Chunk (Cell.ofNat (Op.number value).token :: (Op.number value).operands (draft.here + 4)) draft.markers
        draft) := by
  cases value with
  | single value => exact does_literal (.single value) hroom
  | double value => exact does_literal (.double value) hroom

theorem does_mark (marker : Marker) (hroom : room → draft.markers.length + 1 ≤ maxMarkers) :
    Does room (draft.mark marker) (Chunk [] (marker :: draft.markers) draft) := by
  rw [mark]
  by_cases hfull : maxMarkers ≤ draft.markers.length
  · rw [if_pos hfull]
    intro hreally
    have := hroom hreally
    omega
  · rw [if_neg hfull]
    exact chunk_markers draft _

theorem does_branchForward (jump : ThreadWord) (tag : Tag) (hroom : room → draft.here + 8 ≤ draft.names)
    (hopen : room → draft.markers.length + 1 ≤ maxMarkers) :
    Does room (draft.branchForward jump tag)
      (Chunk [Cell.ofNat (Prim.thread jump).token, 0] (⟨tag, draft.here + 4⟩ :: draft.markers) draft) := by
  refine (does_emitBranch jump hroom).bind fun next hnext => ?_
  refine (does_mark _ fun hreally => hnext.markers_eq ▸ hopen hreally).mono fun last hlast => ?_
  rw [hnext.markers_eq] at hlast
  exact hnext.append hlast

theorem take_head (hmarks : draft.markers = marker :: markers) (htag : tags.contains marker.tag = true) :
    draft.take tags pastWhile = some (marker.address, { draft with markers }) := by
  rw [take, hmarks, split, if_pos htag]
  rfl

theorem take_pastWhile {placeholder : Nat} (hmarks : draft.markers = ⟨.while_, placeholder⟩ :: marker :: markers)
    (hwhile : tags.contains .while_ = false) (htag : tags.contains marker.tag = true) :
    draft.take tags true = some (marker.address, { draft with markers := ⟨.while_, placeholder⟩ :: markers }) := by
  rw [take, hmarks, split, if_neg (by rw [hwhile]; exact Bool.false_ne_true), split, if_pos htag]
  rfl

theorem patched_patch (draft : Draft) (place : Nat) (markers : List Marker) :
    Patched [place] markers draft ({ draft with markers }.patch place) := by
  refine ⟨rfl, rfl, rfl, fun other hother => ?_, fun other hother => ?_⟩
  · cases mem_singleton.1 hother
    exact put_self _ _ _
  · exact put_of_ne _ _ fun hsame => hother (mem_singleton.2 hsame)

theorem does_resolveForward (hmarks : draft.markers = marker :: markers) (htag : tags.contains marker.tag = true) :
    Does room (draft.resolveForward tags pastWhile) (Patched [marker.address] markers draft) := by
  rw [resolveForward, take_head hmarks htag]
  exact patched_patch draft _ markers

theorem does_branchBack (jump : ThreadWord) {target : Nat}
    (htake : draft.take tags true = some (target, { draft with markers }))
    (hroom : room → draft.here + 8 ≤ draft.names) :
    Does room (draft.branchBack jump tags)
      (Chunk [Cell.ofNat (Prim.thread jump).token, distance target (draft.here + 4)] markers draft) := by
  rw [branchBack, htake]
  refine (@does_emit_emit { draft with markers } _ _ (distance target) hroom).mono fun next hnext => ?_
  exact (chunk_markers draft markers).append hnext

theorem does_closeMarker {tag : Tag} (hmarks : draft.markers = marker :: markers) (htag : marker.tag = tag) :
    Does room (draft.closeMarker tag) (Chunk [] markers draft) := by
  rw [closeMarker, hmarks]
  simp only [if_pos htag]
  exact chunk_markers draft markers

theorem patched_resolveRun (tag : Tag) (places : List Nat)
    (hmarks : draft.markers = places.map (Marker.mk tag) ++ markers) (hdone : markers.head?.map Marker.tag ≠ some tag) :
    Patched places markers draft (draft.resolveRun tag) := by
  induction places generalizing draft with
  | nil =>
    rw [map_nil, nil_append] at hmarks
    rw [resolveRun_of_done (by rw [hmarks]; exact hdone)]
    exact ⟨rfl, rfl, hmarks, fun _ hplace => (not_mem_nil hplace).elim, fun _ _ => rfl⟩
  | cons place rest ih =>
    rw [@resolveRun_of_tag draft ⟨tag, place⟩ (rest.map (Marker.mk tag) ++ markers) hmarks]
    have hrest := @ih ({ draft with markers := rest.map (Marker.mk tag) ++ markers }.patch place) rfl
    refine ⟨hrest.here_eq, hrest.names_eq, hrest.markers_eq, fun other hother => ?_, fun other hother => ?_⟩
    · by_cases hagain : other ∈ rest
      · exact hrest.ended other hagain
      · have hsame : other = place := (mem_cons.1 hother).resolve_right hagain
        rw [hrest.others other hagain, hsame]
        exact put_self _ _ _
    · rw [mem_cons, not_or] at hother
      rw [hrest.others other hother.2]
      exact put_of_ne _ _ hother.1

end Draft

end ThreadedForth
