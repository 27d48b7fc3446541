
import ThreadedForth.Proofs.Compiler.Upkeep

/-!
# Placeholders

The cell that a forward marker waits for is a whole cell, and holds zero until the marker is resolved. The marker of
a definition lies at the bottom of the control stack. Both stay so whatever a control word does: those that search the
stack give up when they come to the bottom, and what they have taken by then is lost.
-/

namespace ThreadedForth

open Dictionary WordM List

/-- The cells that the markers wait for are aligned, and hold zero. -/
def Vacant (memory : Memory) (markers : List Marker) : Prop :=
  ∀ marker ∈ markers, marker.tag.isForward = true → marker.address % 4 = 0 ∧ memory.cellAt marker.address = 0

/-- Of the markers, the newest first, only the last one may be that of a definition. -/
def Grounded (markers : List Marker) : Prop := ∀ marker ∈ markers.dropLast, marker.tag ≠ .colon

section Lists

variable {memory : Memory} {markers other : List Marker} {marker : Marker}

theorem Vacant.subset (hvac : Vacant memory markers) (hsubset : other ⊆ markers) : Vacant memory other :=
  fun marker hmark => hvac marker (hsubset hmark)

theorem Vacant.cons (hvac : Vacant memory markers)
    (hmark : marker.tag.isForward = true → marker.address % 4 = 0 ∧ memory.cellAt marker.address = 0) :
    Vacant memory (marker :: markers) :=
  forall_mem_cons.2 ⟨hmark, hvac⟩

theorem Vacant.keep {changed : Memory} (hvac : Vacant memory markers)
    (hsame : ∀ marker ∈ markers, marker.tag.isForward = true →
      changed.cellAt marker.address = memory.cellAt marker.address) : Vacant changed markers := by
  intro marker hmark hfwd
  rw [hsame marker hmark hfwd]
  exact hvac marker hmark hfwd

theorem Grounded.tail (hgr : Grounded (marker :: markers)) : Grounded markers := by
  cases markers with
  | nil => exact fun other hother => absurd hother not_mem_nil
  | cons next rest => exact fun other hother => hgr other (mem_cons_of_mem _ hother)

theorem Grounded.cons (hgr : Grounded markers) (hmark : marker.tag ≠ .colon) : Grounded (marker :: markers) := by
  cases markers with
  | nil => exact fun other hother => absurd hother not_mem_nil
  | cons next rest => exact forall_mem_cons.2 ⟨hmark, hgr⟩

theorem Grounded.eq_nil (hgr : Grounded (marker :: markers)) (hcolon : marker.tag = .colon) : markers = [] := by
  cases markers with
  | nil => rfl
  | cons next rest => exact absurd hcolon (hgr marker mem_cons_self)

end Lists

section Waiting

variable (entries : List Header)

/-- The markers on the control stack and in hand wait for vacant cells, and that of a definition lies at the bottom of
the stack. -/
def Waiting (inHand : List Marker) (m : Machine) : Prop :=
  ∃ markers, Orderly entries markers inHand m ∧ Vacant m.memory (markers ++ inHand) ∧ Grounded markers ∧
    ∀ marker ∈ inHand, marker.tag ≠ .colon

variable {entries} {inHand other markers : List Marker} {m after : Machine}

theorem Vacant.calm (hvac : Vacant m.memory (markers ++ inHand))
    (hord : Orderly entries markers inHand m) (hcalm : m.Calm after) : Vacant after.memory (markers ++ inHand) := by
  refine hvac.keep fun marker hmark hfwd => ?_
  obtain ⟨hlow, hhigh, -⟩ := hord.seated.places marker hmark hfwd
  exact hcalm.cellAt_eq hord.bounded hlow hhigh

namespace Waiting

theorem calm (hwaiting : Waiting entries inHand m) (hcalm : m.Calm after) : Waiting entries inHand after := by
  obtain ⟨markers, hord, hvac, hgr, hloose⟩ := hwaiting
  exact ⟨markers, hord.calm hcalm, hvac.calm hord hcalm, hgr, hloose⟩

theorem drop (hwaiting : Waiting entries inHand m) (hsub : other.Sublist inHand) : Waiting entries other m := by
  obtain ⟨markers, hord, hvac, hgr, hloose⟩ := hwaiting
  exact ⟨markers, hord.drop hsub, hvac.subset ((List.Sublist.refl _).append hsub).subset, hgr,
    fun marker hmark => hloose marker (hsub.subset hmark)⟩

theorem fails (hwaiting : Waiting entries inHand m) : Waiting entries [] m :=
  hwaiting.drop (nil_sublist _)

theorem perm (hwaiting : Waiting entries inHand m) (hperm : inHand.Perm other) : Waiting entries other m := by
  obtain ⟨markers, hord, hvac, hgr, hloose⟩ := hwaiting
  have hall := hperm.append_left markers
  exact ⟨markers, hord.withHand (hord.seated.perm hall), hvac.subset hall.symm.subset, hgr,
    fun marker hmark => hloose marker (hperm.mem_iff.2 hmark)⟩

theorem target {tag : Tag} (hfwd : tag.isForward = false) (hcolon : tag ≠ .colon)
    (hwaiting : Waiting entries inHand m) : Waiting entries (⟨tag, m.dictionary.here⟩ :: inHand) m := by
  obtain ⟨markers, hord, hvac, hgr, hloose⟩ := hwaiting
  refine ⟨markers, hord.target hfwd hcolon, ?_, hgr, forall_mem_cons.2 ⟨hcolon, hloose⟩⟩
  refine (hvac.cons fun hforward' => ?_).subset perm_middle.subset
  exact absurd (hfwd.symm.trans hforward') Bool.false_ne_true

variable {marker : Marker} {accept skip : Tag → Bool}

theorem withoutMarker (hord : Orderly entries (marker :: markers) inHand m)
    (hvac : Vacant m.memory (marker :: markers ++ inHand)) (hgr : Grounded (marker :: markers))
    (hloose : ∀ marker ∈ inHand, marker.tag ≠ .colon) :
    Waiting entries inHand m.withoutMarker ∧
      (marker.tag ≠ .colon → Waiting entries (marker :: inHand) m.withoutMarker) := by
  have htaken : Orderly entries markers (marker :: inHand) m.withoutMarker := hord.withoutMarker
  have hleft : Vacant m.withoutMarker.memory (markers ++ marker :: inHand) :=
    hvac.subset perm_middle.subset
  refine ⟨⟨markers, htaken.drop (sublist_cons_self _ _), ?_, hgr.tail, hloose⟩, fun hcolon =>
    ⟨markers, htaken, hleft, hgr.tail, forall_mem_cons.2 ⟨hcolon, hloose⟩⟩⟩
  exact hleft.subset ((List.Sublist.refl _).append (sublist_cons_self _ _)).subset

theorem popMarker : Handles (Waiting entries) inHand popMarker fun marker m =>
    Waiting entries inHand m ∧ (marker.tag ≠ .colon → Waiting entries (marker :: inHand) m) := by
  rintro m ⟨markers, hord, hvac, hgr, hloose⟩
  cases markers with
  | nil =>
    have hempty : m.control.base ≤ m.control.top := Nat.le_of_eq hord.top_eq.symm
    rw [popMarker_of_empty hempty]
    exact fails ⟨[], hord, hvac, hgr, hloose⟩
  | cons marker rest =>
    rw [popMarker_of_holds hord.bounded hord.top_eq hord.held]
    exact withoutMarker hord hvac hgr hloose

theorem pushMarker : Handles (Waiting entries) (marker :: inHand) (pushMarker marker)
    fun _ => Waiting entries inHand := by
  rintro m ⟨markers, hord, hvac, hgr, hloose⟩
  obtain ⟨hcolon, hothers⟩ := forall_mem_cons.1 hloose
  by_cases hroom : m.control.limit + 8 ≤ m.control.top
  · rw [pushMarker_of_room hord.bounded marker hroom]
    have hkept : Vacant (m.withMarker marker).memory (markers ++ marker :: inHand) := by
      refine hvac.keep fun other hother hfwd => ?_
      obtain ⟨-, hhigh, -⟩ := hord.seated.places other hother hfwd
      have hhere := hord.here_le
      have hnames := hord.names_le
      exact (hord.sameOutside_withMarker marker hroom).cellAt fun addr _ hlast => by omega
    exact ⟨marker :: markers, hord.withMarker hroom, hkept.subset perm_middle.symm.subset,
      hgr.cons hcolon, hothers⟩
  · rw [pushMarker_of_full hord.bounded marker (by omega)]
    exact fails ⟨markers, hord, hvac, hgr, hloose⟩

/-- A cell that a marker waits for is written when the marker is resolved, and no other marker waits for it. -/
theorem patch {marker : Marker} (hfwd : marker.tag.isForward = true) :
    Handles (Waiting entries) (marker :: inHand) (patch marker.address) fun _ => Waiting entries inHand := by
  rintro m ⟨markers, hord, hvac, hgr, hloose⟩
  have hperm : (markers ++ marker :: inHand).Perm (marker :: (markers ++ inHand)) := perm_middle
  rcases hord.patch_cases hfwd with ⟨fault, herror⟩ | ⟨offset, hok, hafter⟩
  · rw [herror]
    exact fails ⟨markers, hord, hvac, hgr, hloose⟩
  · rw [hok]
    have hothers : Vacant m.memory (markers ++ inHand) :=
      hvac.subset fun other hother => hperm.symm.subset (mem_cons_of_mem marker hother)
    refine ⟨markers, hafter, hothers.keep fun other hother hforward' => ?_, hgr, (forall_mem_cons.1 hloose).2⟩
    have hdistinct := (pairwise_cons.1 (hord.seated.perm hperm).distinct).1 other hother hfwd hforward'
    exact Memory.cellAt_setCell_of_apart m.memory offset hdistinct.symm

theorem placeholder {place : Nat} :
    Secures (fun m => Waiting entries inHand m ∧ m.dictionary.here = place) (comma 0)
      (fun _ m => ∀ tag, tag ≠ .colon → Waiting entries (⟨tag, place⟩ :: inHand) m)
      (Waiting entries []) := by
  rintro m ⟨hwaiting, rfl⟩
  obtain ⟨markers, hord, hvac, hgr, hloose⟩ := hwaiting
  rcases hord.placeholder_cases with ⟨fault, herror⟩ | ⟨grown, hok, hcalm, halign, hzero, hgrown⟩
  · rw [herror]
    exact fails ⟨markers, hord, hvac, hgr, hloose⟩
  · rw [hok]
    intro tag htag
    have hmarked : Vacant grown.memory (⟨tag, m.dictionary.here⟩ :: (markers ++ inHand)) :=
      (hvac.calm hord hcalm).cons fun _ => ⟨halign, hzero⟩
    exact ⟨markers, hgrown tag htag, hmarked.subset perm_middle.subset, hgr,
      forall_mem_cons.2 ⟨htag, hloose⟩⟩

theorem popUntil_of_empty {steps : Nat} {passed : List Marker} (hempty : m.control.base ≤ m.control.top) :
    WordM.popUntil accept skip steps passed m = .error .nesting m := by
  cases steps with
  | zero => rfl
  | succ steps => rw [WordM.popUntil, bind_of_error (popMarker_of_empty hempty)]

/-- A search that comes to the marker of a definition passes over it at most, and then finds the stack empty. -/
theorem popUntil (haccept : accept .colon = false) (steps : Nat) (passed : List Marker) :
    Handles (Waiting entries) (passed ++ inHand) (popUntil accept skip steps passed) fun found m =>
      accept found.1.tag = true ∧ Waiting entries (found.1 :: (found.2 ++ inHand)) m := by
  induction steps generalizing passed with
  | zero => exact (Secures.throw _).before fun _ => fails
  | succ steps ih =>
    rintro m ⟨markers, hord, hvac, hgr, hloose⟩
    cases markers with
    | nil =>
      have hempty : m.control.base ≤ m.control.top := Nat.le_of_eq hord.top_eq.symm
      rw [WordM.popUntil, bind_of_error (popMarker_of_empty hempty)]
      exact fails ⟨[], hord, hvac, hgr, hloose⟩
    | cons marker rest =>
      obtain ⟨hleft, htaken⟩ := withoutMarker hord hvac hgr hloose
      rw [WordM.popUntil, bind_of_ok (popMarker_of_holds hord.bounded hord.top_eq hord.held)]
      by_cases hcolon : marker.tag = .colon
      · rw [hcolon, haccept, if_neg Bool.false_ne_true]
        by_cases hskip : skip .colon = true
        · obtain rfl := hgr.eq_nil hcolon
          have hempty : m.withoutMarker.control.base ≤ m.withoutMarker.control.top :=
            Nat.le_of_eq hord.withoutMarker.top_eq.symm
          rw [if_pos hskip, popUntil_of_empty hempty]
          exact hleft.fails
        · rw [if_neg hskip]
          exact hleft.fails
      · by_cases hfound : accept marker.tag = true
        · rw [if_pos hfound]
          exact ⟨hfound, htaken hcolon⟩
        · rw [if_neg hfound]
          by_cases hskip : skip marker.tag = true
          · rw [if_pos hskip]
            exact ih (marker :: passed) _ (htaken hcolon)
          · rw [if_neg hskip]
            exact hleft.fails

theorem handling : Handling (Waiting entries) where
  bounded hwaiting := hwaiting.choose_spec.1.bounded
  held hwaiting := ⟨hwaiting.choose, hwaiting.choose_spec.1.top_eq, hwaiting.choose_spec.1.held⟩
  comma value := handles_comma_of_calm value (fun _ hwaiting => hwaiting.choose_spec.1.bounded)
    (fun _ _ => calm) fun _ => fails
  drop := drop
  perm := perm
  target := target
  popMarker := popMarker
  pushMarker := pushMarker
  patch := patch
  placeholder := placeholder
  popUntil := popUntil

theorem evolve {area : Nat → Prop} {revised : List Header} (hord : Orderly entries markers [] m)
    (hvac : Vacant m.memory markers) (hgr : Grounded markers) (hafter : Orderly revised markers [] after)
    (hev : Evolves area entries revised markers markers m after)
    (harea : ∀ addr, area addr → ∃ entry ∈ entries, entry.address ≤ addr ∧
      addr < entry.address + Header.size) : Waiting revised [] after := by
  have hseated : Seated entries m.dictionary.here markers := by simpa using hord.seated
  refine ⟨markers, hafter, ?_, hgr, fun marker hmark => absurd hmark not_mem_nil⟩
  rw [append_nil]
  refine hvac.keep fun marker hmark hfwd => ?_
  obtain ⟨hlow, hhigh, hapart⟩ := hseated.places marker hmark hfwd
  refine hev.cellAt_eq (fun addr hin => ?_) fun addr hin hchanged => ?_
  · obtain ⟨hfst, hlast⟩ := hin
    exact .inl ⟨by omega, by omega⟩
  · obtain ⟨hfst, hlast⟩ := hin
    obtain ⟨entry, hentry, hstart, hend⟩ := harea addr hchanged
    rcases hapart entry hentry with hbelow | habove <;> omega

end Waiting

/-- A tame word keeps the control stack in order. -/
theorem Prim.perform_waiting (hwaiting : Waiting entries [] m) (hents : entries ≠ []) {prim : Prim}
    (htame : prim.Tame m) : ∃ revised, Waiting revised [] (stateAfter prim.perform m) := by
  obtain ⟨markers, hord, hvac, hgr, hloose⟩ := hwaiting
  have hwaiting : Waiting entries [] m := ⟨markers, hord, hvac, hgr, hloose⟩
  rw [append_nil] at hvac
  -- the fields of the newest header belong to an entry
  obtain ⟨newest, hnewest, hlatest⟩ := mem_map.1 (hord.latest_mem hents)
  rcases perform_cases hord hents htame with hcalm | ⟨word, rfl, hword⟩ | ⟨rfl, revised, hrevised, hev⟩ |
    ⟨rfl, revised, hrevised, hev, -⟩ | ⟨flags, entry, later, -, -, hlater, hev, rfl | ⟨rfl, rfl⟩⟩ |
    ⟨rfl, ⟨token, -, revised, hrevised, -⟩ | ⟨later, rfl | rfl, hlater, hev⟩⟩
  · exact ⟨entries, hwaiting.calm hcalm⟩
  · rw [hword]
    exact ⟨entries, (Waiting.handling.control word).stateAfter hwaiting⟩
  · refine ⟨revised, .evolve hord hvac hgr hrevised hev fun addr hin => ⟨newest, hnewest, ?_⟩⟩
    simp only [InCell, Header.token, Header.doesField, Header.size, ← hlatest] at hin ⊢
    omega
  · refine ⟨revised, .evolve hord hvac hgr hrevised hev fun addr hin => ⟨newest, hnewest, ?_⟩⟩
    simp only [InCell, Header.flagsField, Header.size, ← hlatest] at hin ⊢
    omega
  · exact ⟨_, .evolve hord hvac hgr hlater hev fun _ => False.elim⟩
  · refine ⟨_, [⟨.colon, entry.xt⟩], hlater, ?_, ?_, hloose⟩
    · simp [Vacant, Tag.isForward]
    · simp [Grounded]
  · exact ⟨revised, [], hrevised, by simp [Vacant], by simp [Grounded], hloose⟩
  · exact ⟨entries, [], hlater, by simp [Vacant], by simp [Grounded], hloose⟩
  · exact ⟨entries, .evolve hord hvac hgr hlater hev fun _ => False.elim⟩

end Waiting

end ThreadedForth
