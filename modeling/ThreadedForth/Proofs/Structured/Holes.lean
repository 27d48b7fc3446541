
import ThreadedForth.Proofs.Structured.DraftSteps
import ThreadedForth.Proofs.Structured.Exits

/-!
# Code with holes

While a structure is open its branches have no target yet, so the code laid down so far has holes: the offset
cells of such branches. The cells of a finished definition agree with a draft of it but for the holes. Going
back from the finished code to an earlier draft, holes come up where branches were ended in between.
-/

namespace ThreadedForth

open List

/-! ### Filing exits -/

/-- The markers once exits are filed beneath the marker that the innermost loop branches back to. -/
def file (places : List Nat) : List Marker → List Marker
  | [] => []
  | marker :: rest =>
    if marker.tag = .doBack then marker :: (places.map (Marker.mk .leave) ++ rest)
    else marker :: file places rest

/-- A counted loop is open. -/
def InLoop (markers : List Marker) : Prop := ∃ marker ∈ markers, marker.tag = .doBack

section Filing

variable {places : List Nat} {marker : Marker} {markers : List Marker}

theorem file_cons_of_back (hback : marker.tag = .doBack) :
    file places (marker :: markers) = marker :: (places.map (Marker.mk .leave) ++ markers) :=
  if_pos hback

theorem file_cons_of_ne (hother : marker.tag ≠ .doBack) :
    file places (marker :: markers) = marker :: file places markers :=
  if_neg hother

@[simp] theorem file_nil (markers : List Marker) : file [] markers = markers := by
  induction markers with
  | nil => rfl
  | cons marker rest ih =>
    by_cases hback : marker.tag = .doBack
    · exact file_cons_of_back hback
    · rw [file_cons_of_ne hback, ih]

theorem file_append (places more : List Nat) (markers : List Marker) :
    file (more ++ places) markers = file more (file places markers) := by
  induction markers with
  | nil => rfl
  | cons marker rest ih =>
    by_cases hback : marker.tag = .doBack
    · simp only [file_cons_of_back hback, map_append, append_assoc]
    · simp only [file_cons_of_ne hback, ih]

theorem length_file_le (places : List Nat) (markers : List Marker) :
    (file places markers).length ≤ markers.length + places.length := by
  induction markers with
  | nil => exact Nat.zero_le _
  | cons marker rest ih =>
    by_cases hback : marker.tag = .doBack
    · rw [file_cons_of_back hback]
      simp only [length_cons, length_append, length_map]
      omega
    · rw [file_cons_of_ne hback, length_cons, length_cons]
      omega

theorem InLoop.cons (hloop : InLoop markers) : InLoop (marker :: markers) := by
  obtain ⟨back, hback, htag⟩ := hloop
  exact ⟨back, mem_cons_of_mem _ hback, htag⟩

theorem InLoop.file (hloop : InLoop markers) : InLoop (file places markers) := by
  obtain ⟨back, hback, htag⟩ := hloop
  induction markers with
  | nil => cases hback
  | cons marker rest ih =>
    by_cases hfound : marker.tag = .doBack
    · rw [file_cons_of_back hfound]
      exact ⟨marker, mem_cons_self, hfound⟩
    · rw [file_cons_of_ne hfound]
      rcases List.mem_cons.1 hback with rfl | hrest
      · exact (hfound htag).elim
      · exact (ih hrest).cons

theorem split_of_inLoop (hloop : InLoop markers) : ∃ above back below,
    Draft.split (· == .doBack) (fun _ => true) markers = some (above, back, below) ∧
      ∀ places, file places markers = above ++ back :: (places.map (Marker.mk .leave) ++ below) := by
  obtain ⟨back, hback, htag⟩ := hloop
  induction markers with
  | nil => cases hback
  | cons marker rest ih =>
    by_cases hfound : marker.tag = .doBack
    · exact ⟨[], marker, rest, if_pos (beq_iff_eq.2 hfound), fun _ => file_cons_of_back hfound⟩
    · have hrest : back ∈ rest := by
        rcases List.mem_cons.1 hback with rfl | hrest
        · exact (hfound htag).elim
        · exact hrest
      obtain ⟨above, found, below, hsplit, hfile⟩ := ih hrest
      refine ⟨marker :: above, found, below, ?_, fun places => ?_⟩
      · rw [Draft.split, if_neg (fun hsame => hfound (beq_iff_eq.1 hsame)), if_pos rfl, hsplit]
        rfl
      · rw [file_cons_of_ne hfound, hfile]
        rfl

theorem Draft.does_fileLeave {draft : Draft} {room : Prop} (place : Nat) (hloop : InLoop draft.markers)
    (hroom : room → draft.markers.length + 1 ≤ maxMarkers) :
    Does room (draft.fileLeave place) (Chunk [] (file [place] draft.markers) draft) := by
  obtain ⟨above, back, below, hsplit, hfile⟩ := split_of_inLoop hloop
  rw [fileLeave, hsplit, hfile]
  by_cases hfull : maxMarkers ≤ draft.markers.length
  · change Does room (if _ then _ else _) _
    rw [if_pos hfull]
    intro hreally
    have := hroom hreally
    omega
  · change Does room (if _ then _ else _) _
    rw [if_neg hfull]
    exact chunk_markers draft _

end Filing

/-! ### Code with holes -/

/-- A draft of code in the dictionary, with the free space behind it. -/
structure Draft.Sane (draft : Draft) : Prop where
  pos : 0 < draft.here
  isAligned : draft.here % 4 = 0
  here_le : draft.here ≤ draft.names
  names_le : draft.names ≤ Layout.dictionaryEnd

/-- Code was added to a draft, whose own is unchanged. -/
structure Grown (draft next : Draft) : Prop where
  sane : next.Sane
  here_le : draft.here ≤ next.here
  names_eq : next.names = draft.names
  below : ∀ address, address < draft.here → next.cells address = draft.cells address

/-- From an address on the cells are those of the draft, but for some holes. -/
def Agrees (cells : Nat → Cell) (first : Nat) (draft : Draft) (holes : List Nat) : Prop :=
  ∀ address, first ≤ address → address < draft.here → address ∉ holes → cells address = draft.cells address

/-- The offset cells lead to one place. -/
def Filled (cells : Nat → Cell) (places : List Nat) (target : Nat) : Prop :=
  ∀ place ∈ places, cells place = distance target place

/-- A branch, without its offset. -/
abbrev Chunk.Branch (jump : ThreadWord) (markers : List Marker) (draft next : Draft) : Prop :=
  Chunk [Cell.ofNat (Prim.thread jump).token, 0] markers draft next

/-- A branch to a target. -/
abbrev Chunk.Back (jump : ThreadWord) (target : Nat) (markers : List Marker) (draft next : Draft) : Prop :=
  Chunk [Cell.ofNat (Prim.thread jump).token, distance target (draft.here + 4)] markers draft next

section Holes

variable {cells : Nat → Cell} {draft middle next : Draft} {values : List Cell} {markers : List Marker}
  {first : Nat} {holes places : List Nat}

theorem Chunk.grown (hchunk : Chunk values markers draft next) (hsane : draft.Sane) : Grown draft next := by
  have hhere := hchunk.here_eq
  have haligned := hsane.isAligned
  have hpos := hsane.pos
  exact ⟨⟨by omega, by omega, hchunk.here_le hsane.here_le, hchunk.names_eq ▸ hsane.names_le⟩, by omega,
    hchunk.names_eq, hchunk.below⟩

theorem Grown.trans (hfst : Grown draft middle) (hsnd : Grown middle next) : Grown draft next := by
  refine ⟨hsnd.sane, Nat.le_trans hfst.here_le hsnd.here_le, hsnd.names_eq.trans hfst.names_eq,
    fun addr haddr => ?_⟩
  rw [hsnd.below addr (Nat.lt_of_lt_of_le haddr hfst.here_le), hfst.below addr haddr]

theorem Grown.patched (hgrown : Grown draft middle) (hpatched : Patched places markers middle next)
    (hplaces : ∀ place ∈ places, draft.here ≤ place) : Grown draft next := by
  have hhere := hpatched.here_eq
  have hnames := hpatched.names_eq
  have hsane := hgrown.sane
  refine ⟨⟨hhere ▸ hsane.pos, hhere ▸ hsane.isAligned, hhere ▸ hnames ▸ hsane.here_le, hnames ▸ hsane.names_le⟩,
    hhere ▸ hgrown.here_le, hnames.trans hgrown.names_eq, fun addr haddr => ?_⟩
  rw [hpatched.others addr fun hplace => by have := hplaces addr hplace; omega,
    hgrown.below addr haddr]

section

variable (hagrees : Agrees cells first next holes)

include hagrees

theorem Agrees.split (low high : List Nat) (hgrown : Grown draft next)
    (hfst : first ≤ draft.here) (hlow : ∀ place ∈ holes, place < draft.here → place ∈ low)
    (hhigh : ∀ place ∈ holes, draft.here ≤ place → place ∈ high) :
    Agrees cells first draft low ∧ Agrees cells draft.here next high := by
  refine ⟨fun addr hafter hbefore hhole => ?_, fun addr hafter hbefore hhole => ?_⟩
  · rw [hagrees addr hafter (Nat.lt_of_lt_of_le hbefore hgrown.here_le)
      fun hplace => hhole (hlow addr hplace hbefore), hgrown.below addr hbefore]
  · exact hagrees addr (Nat.le_trans hfst hafter) hbefore
      fun hplace => hhole (hhigh addr hplace hafter)

theorem Agrees.unmarked (hchunk : Chunk [] markers draft next) : Agrees cells first draft holes := by
  intro addr hafter hbefore hhole
  have hhere : next.here = draft.here := hchunk.here_eq
  rw [hagrees addr hafter (by omega) hhole, hchunk.below addr hbefore]

theorem Agrees.unpatched (hpatched : Patched places markers draft next)
    (hplaces : Between first draft.here places) (hnew : ∀ place ∈ places, place ∉ holes) :
    Agrees cells first draft (places ++ holes) ∧ Filled cells places draft.here := by
  have hhere := hpatched.here_eq
  refine ⟨fun addr hfst haddr hhole => ?_, fun place hplace => ?_⟩
  · rw [mem_append, not_or] at hhole
    rw [hagrees addr hfst (by omega) hhole.2, hpatched.others addr hhole.1]
  · have hbetween := hplaces place hplace
    rw [hagrees place hbetween.1 (by omega) (hnew place hplace), hpatched.ended place hplace]

theorem Agrees.unpatched_one {place : Nat}
    (hpatched : Patched [place] markers draft next) (hfst : first ≤ place) (hlast : place < draft.here)
    (hnew : place ∉ holes) : Agrees cells first draft (place :: holes) ∧ cells place = distance draft.here place := by
  obtain ⟨hholes, hfilled⟩ := hagrees.unpatched hpatched
    (fun other hother => by cases mem_singleton.1 hother; exact ⟨hfst, hlast⟩)
    (fun other hother => by cases mem_singleton.1 hother; exact hnew)
  exact ⟨hholes, hfilled place (mem_singleton.2 rfl)⟩

end

theorem Op.length_operands (op : Op) (place : Nat) : (op.operands place).length = (op.operands 0).length := by
  cases op with
  | number value => cases value <;> rfl
  | _ => rfl

theorem Chunk.opAt {op : Op} (hchunk : Chunk (Cell.ofNat op.token :: op.operands (draft.here + 4)) markers draft next)
    (hsane : draft.Sane) (hagrees : Agrees cells draft.here next []) (hsound : op.Sound cells) :
    OpAt cells draft.here op := by
  have hhere := hchunk.here_eq
  rw [length_cons, op.length_operands] at hhere
  have hroom := hchunk.here_le hsane.here_le
  have hnames := hchunk.names_eq
  have hend := hsane.names_le
  refine ⟨hsane.pos, hsane.isAligned, by rw [Op.size]; omega, ?_, fun place value hplace => ?_, hsound⟩
  · rw [hagrees _ (Nat.le_refl _) (by omega) not_mem_nil]
    exact hchunk.held 0 _ rfl
  · have hlen := (List.getElem?_eq_some_iff.1 hplace).1
    rw [op.length_operands] at hlen
    have hheld := hchunk.held (place + 1) value hplace
    rw [show draft.here + 4 + 4 * place = draft.here + 4 * (place + 1) by omega,
      hagrees _ (by omega) (by omega) not_mem_nil, hheld]

theorem Chunk.opAt_forward {op : Op} {target : Nat} (hchunk : Chunk [Cell.ofNat op.token, 0] markers draft middle)
    (hgrown : Grown middle next) (hagrees : Agrees cells draft.here next ((draft.here + 4) :: holes))
    (hholes : ∀ place ∈ holes, middle.here ≤ place) (hsane : draft.Sane)
    (hfilled : cells (draft.here + 4) = distance target (draft.here + 4))
    (hoperands : ∀ place, op.operands place = [distance target place]) (hsound : op.Sound cells) :
    OpAt cells draft.here op ∧ Agrees cells middle.here next holes := by
  have hhere : middle.here = draft.here + 8 := hchunk.here_eq
  have hroom := hchunk.here_le hsane.here_le
  have hnames := hchunk.names_eq
  have hend := hsane.names_le
  obtain ⟨hbr, hbehind⟩ := hagrees.split [draft.here + 4] holes hgrown (by omega)
    (by grind) (by grind)
  refine ⟨⟨hsane.pos, hsane.isAligned, ?_, ?_, fun place value hplace => ?_, hsound⟩, hbehind⟩
  · rw [Op.size, hoperands, length_singleton]
    omega
  · rw [hbr _ (Nat.le_refl _) (by omega) (by rw [mem_singleton]; omega)]
    exact hchunk.held 0 _ rfl
  · rw [hoperands] at hplace
    cases place with
    | zero =>
      cases hplace
      exact hfilled
    | succ place => simp at hplace

theorem Draft.Sane.end_le (hsane : draft.Sane) : draft.here ≤ Layout.dictionaryEnd :=
  Nat.le_trans hsane.here_le hsane.names_le

/-- A branch was laid down, its offset still to come, and another was ended behind it. -/
def Divided (place : Nat) (markers : List Marker) (draft next : Draft) : Prop :=
  ∃ branched ended before after, Chunk.Branch .branch before draft branched ∧
    Patched [place] after branched ended ∧ Chunk [] markers ended next

namespace Divided

variable {place : Nat}

variable (hdivided : Divided place markers draft next)

include hdivided

theorem here_eq : next.here = draft.here + 8 := by
  obtain ⟨branched, ended, _, _, hbr, hpatch, hmark⟩ := hdivided
  rw [hmark.here_eq, hpatch.here_eq, hbr.here_eq]
  rfl

theorem markers_eq : next.markers = markers := by
  obtain ⟨_, _, _, _, _, _, hmark⟩ := hdivided
  exact hmark.markers_eq

theorem names_eq : next.names = draft.names := by
  obtain ⟨branched, ended, _, _, hbr, hpatch, hmark⟩ := hdivided
  rw [hmark.names_eq, hpatch.names_eq, hbr.names_eq]

theorem sane (hsane : draft.Sane) : next.Sane := by
  obtain ⟨branched, ended, _, _, hbr, hpatch, hmark⟩ := hdivided
  have hbranched := (hbr.grown hsane).sane
  have hended : ended.Sane :=
    ⟨hpatch.here_eq ▸ hbranched.pos, hpatch.here_eq ▸ hbranched.isAligned,
      hpatch.here_eq ▸ hpatch.names_eq ▸ hbranched.here_le, hpatch.names_eq ▸ hbranched.names_le⟩
  exact (hmark.grown hended).sane

theorem grown {origin : Draft} (hgrown : Grown origin draft) (hplace : origin.here ≤ place) : Grown origin next := by
  obtain ⟨branched, ended, _, _, hbr, hpatch, hmark⟩ := hdivided
  have hended := (hgrown.trans (hbr.grown hgrown.sane)).patched hpatch (by simpa using hplace)
  exact hended.trans (hmark.grown hended.sane)

theorem code {target : Nat} (hsane : draft.Sane)
    (hagrees : Agrees cells first next ((draft.here + 4) :: holes)) (hfst : first ≤ place)
    (hplace : place < draft.here) (hnew : place ∉ holes) (hholes : ∀ hole ∈ holes, hole < draft.here)
    (hfilled : cells (draft.here + 4) = distance target (draft.here + 4)) (htarget : target ≤ Layout.dictionaryEnd) :
    OpAt cells draft.here (.jump target) ∧ Agrees cells first draft (place :: holes) ∧
      cells place = distance (draft.here + 8) place := by
  obtain ⟨branched, ended, _, _, hbr, hpatch, hmark⟩ := hdivided
  have hbranched : branched.here = draft.here + 8 := hbr.here_eq
  have hmarked := hmark.here_eq
  have hended := hpatch.here_eq
  obtain ⟨hbroken, hended⟩ := (hagrees.unmarked hmark).unpatched_one hpatch hfst (by omega) (by grind)
  obtain ⟨hbefore, hbehind⟩ := hbroken.split (place :: holes) [draft.here + 4] (hbr.grown hsane) (by omega)
    (by grind) (by grind)
  have hgrown : Grown branched branched := ⟨(hbr.grown hsane).sane, Nat.le_refl _, rfl, fun _ _ => rfl⟩
  obtain ⟨hop, _⟩ := @Chunk.opAt_forward _ _ _ _ _ [] (.jump target) _ hbr hgrown hbehind (by simp) hsane hfilled
    (fun _ => rfl) htarget
  exact ⟨hop, hbefore, hbranched ▸ hended⟩

end Divided

end Holes

/-! ### Words with several steps -/

namespace Draft

variable {draft : Draft} {room : Prop} {marker : Marker} {markers : List Marker} {tags : List Tag}

theorem does_divide {pastWhile : Bool} (tag : Tag) (hmarks : draft.markers = marker :: markers)
    (htag : tags.contains marker.tag = true) (hroom : room → draft.here + 8 ≤ draft.names)
    (hopen : room → draft.markers.length ≤ maxMarkers) :
    Does room (draft.divide tags pastWhile tag)
      (Divided marker.address (⟨tag, draft.here + 4⟩ :: markers) draft) := by
  refine (does_emitBranch .branch hroom).bind fun branched hbranched => ?_
  refine (does_resolveForward (hbranched.markers_eq.trans hmarks) htag).bind fun ended hended => ?_
  refine (does_mark _ fun hreally => ?_).mono fun next hnext => ?_
  · rw [hended.markers_eq]
    have hfull := hopen hreally
    rwa [hmarks] at hfull
  · rw [hended.markers_eq] at hnext
    exact ⟨branched, ended, _, _, hbranched, hended, hnext⟩

theorem does_openLoop (enter : ThreadWord) (hroom : room → draft.here + 8 ≤ draft.names)
    (hopen : room → draft.markers.length + 3 ≤ maxMarkers) :
    Does room (draft.openLoop enter)
      (Chunk.Branch enter
        (⟨.doBack, draft.here + 8⟩ :: ⟨.doForward, draft.here + 4⟩ :: ⟨.doStart, draft.here⟩ :: draft.markers)
        draft) := by
  refine (does_mark _ fun hreally => ?_).bind fun started hstarted => ?_
  · have := hopen hreally
    omega
  have hhere : started.here = draft.here := hstarted.here_eq
  have hlen : started.markers.length = draft.markers.length + 1 := by
    rw [hstarted.markers_eq, length_cons]
  refine (does_branchForward enter .doForward ?_ fun hreally => ?_).bind fun branched hbranched => ?_
  · rw [hhere, hstarted.names_eq]
    exact hroom
  · have := hopen hreally
    omega
  have hthere : branched.here = draft.here + 8 := by
    rw [hbranched.here_eq, hhere]
    rfl
  refine (does_mark _ fun hreally => ?_).mono fun next hnext => ?_
  · have := hopen hreally
    rw [hbranched.markers_eq, length_cons]
    omega
  · rw [hbranched.markers_eq, hstarted.markers_eq, hhere, hthere] at hnext
    exact (hstarted.append hbranched).append hnext

/-- What the end of a counted loop does: a branch back, then all early exits end here, and the entry. -/
theorem does_closeLoop (step : ThreadWord) {back entry start : Nat} {places : List Nat}
    (hmarks : draft.markers =
      ⟨.doBack, back⟩ :: (places.map (Marker.mk .leave) ++ ⟨.doForward, entry⟩ :: ⟨.doStart, start⟩ :: markers))
    (hroom : room → draft.here + 8 ≤ draft.names) :
    Does room (draft.closeLoop step) fun next => ∃ marked closed before after,
      Chunk.Back step back before draft marked ∧ Patched ([entry] ++ places) after marked closed ∧
        Chunk [] markers closed next := by
  refine (does_branchBack step (take_head hmarks rfl) hroom).bind fun marked hmarked => ?_
  have hleft := patched_resolveRun .leave places hmarked.markers_eq (by simp)
  refine (does_resolveForward hleft.markers_eq rfl).bind fun closed hclosed => ?_
  refine (does_closeMarker hclosed.markers_eq rfl).mono fun next hnext => ?_
  exact ⟨marked, closed, _, _, hmarked, hleft.append hclosed, hnext⟩

end Draft

end ThreadedForth
