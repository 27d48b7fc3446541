
import ThreadedForth.Proofs.Compiler.Upkeep
import ThreadedForth.Proofs.Interpreter.InStep

/-!
# Compiling words and the text

A word that compiles writes to the dictionary and to the control stack. What it writes to is never a part of the line
that is interpreted, as long as the dictionary and the markers are in order: `then` and its kin go to the place that a
marker carries, `;` to the header of the definition that is open. So machines that differ in the line only stay in step
when they compile.
-/

namespace ThreadedForth

open Dictionary WordM Layout Header Memory
open Machine (Abreast InStep LeavesText)

variable {entries : List Header} {markers inHand : List Marker} {extra : List (List UInt8)}
  {m first second : Machine}

theorem away_of_dictionaryStart_le {addr : Nat} (haddr : dictionaryStart ≤ addr) : Away addr :=
  away_of_le (Nat.le_trans (by decide) haddr)

theorem Machine.Abreast.calm (habr : first.Abreast second) : first.Calm second := by
  have hsnd := habr.second_bounded
  obtain ⟨-, memory, source, hsame, rfl⟩ := habr
  refine .below hsnd rfl rfl (hsame.mono fun addr hin => ?_)
  have horder := order
  rcases hin with ⟨-, hlast⟩ | ⟨-, hlast⟩ <;> (simp only at hlast; omega)

theorem Machine.Abreast.find?_eq (habr : first.Abreast second) (hord : Orderly entries markers inHand first)
    (name : String) : first.dictionary.find? first.memory name = second.dictionary.find? second.memory name := by
  rw [hord.lexicon.find?_eq, (hord.calm habr.calm).lexicon.find?_eq]

/-! ### Control words -/

variable {kept : Machine → Prop}

theorem Secures.and {α : Type} {pre fails : Machine → Prop} {post : α → Machine → Prop} {action : WordM α}
    (hact : Secures pre action post fails)
    (hkept : ∀ m, pre m → kept m → kept (ThreadedForth.stateAfter action m)) :
    Secures (fun m => pre m ∧ kept m) action (fun answer m => post answer m ∧ kept m)
      fun m => fails m ∧ kept m := by
  rintro m ⟨hpre, hm⟩
  have hres := hact m hpre
  have hafter := hkept m hpre hm
  rw [ThreadedForth.stateAfter] at hafter
  cases hend : action m <;>
    (rw [hend] at hres hafter; exact ⟨hres, hafter⟩)

/-- A condition that markers have no part in is kept too, if it is kept where a branch is resolved. -/
theorem Handling.and {holding : List Marker → Machine → Prop} (hhand : Handling holding)
    [hcomma : ∀ value, Keeps kept (WordM.comma value)] [hpush : ∀ marker, Keeps kept (WordM.pushMarker marker)]
    [hpop : Keeps kept WordM.popMarker]
    (hpatch : ∀ (inHand : List Marker) (marker : Marker) (m : Machine), marker.tag.isForward = true →
      holding (marker :: inHand) m → kept m → kept (stateAfter (WordM.patch marker.address) m)) :
    Handling fun inHand m => holding inHand m ∧ kept m where
  bounded hboth := hhand.bounded hboth.1
  held hboth := hhand.held hboth.1
  comma value := (hhand.comma value).and fun m _ => (hcomma value).keeps m
  drop hboth hsub := ⟨hhand.drop hboth.1 hsub, hboth.2⟩
  perm hboth hperm := ⟨hhand.perm hboth.1 hperm, hboth.2⟩
  target hfwd hcolon hboth := ⟨hhand.target hfwd hcolon hboth.1, hboth.2⟩
  popMarker := (hhand.popMarker.and fun m _ => hpop.keeps m).after
    (fun _ _ hboth => ⟨⟨hboth.1.1, hboth.2⟩, fun hcolon => ⟨hboth.1.2 hcolon, hboth.2⟩⟩) fun _ hboth => hboth
  pushMarker := hhand.pushMarker.and fun m _ => (hpush _).keeps m
  patch hfwd := (hhand.patch hfwd).and fun m => hpatch _ _ m hfwd
  placeholder := ((hhand.placeholder.and fun m _ => (hcomma 0).keeps m).before
    fun _ hboth => ⟨⟨hboth.1.1, hboth.2⟩, hboth.1.2⟩).after
    (fun _ _ hboth tag htag => ⟨hboth.1 tag htag, hboth.2⟩) fun _ hboth => hboth
  popUntil haccept steps passed := by
    have hkeeps (accept skip : Tag → Bool) : Keeps kept (WordM.popUntil accept skip steps passed) :=
      inferInstance
    exact ((hhand.popUntil haccept steps passed).and fun m _ => (hkeeps _ _).keeps m).after
      (fun _ _ hboth => ⟨hboth.1.1, hboth.1.2, hboth.2⟩) fun _ hboth => hboth

theorem ControlWord.leavesText (hord : Orderly entries markers [] m) (word : ControlWord) :
    m.LeavesText (stateAfter word.perform m) := by
  have hseated : Seated entries m.dictionary.here markers := by simpa using hord.seated
  have hhold : Handling (Holding (fun _ => False) entries markers m) := Holding.handling hseated
  have hpatch (inHand : List Marker) (marker : Marker) (middle : Machine) (hfwd : marker.tag.isForward = true)
      (hmid : Holding (fun _ => False) entries markers m (marker :: inHand) middle)
      (hleaves : m.LeavesText middle) : m.LeavesText (stateAfter (patch marker.address) middle) := by
    obtain ⟨waiting, hord, -⟩ := hmid
    have hplace := (hord.seated.places marker (by simp) hfwd).1
    have (value : Cell) : Keeps m.LeavesText (writeCell marker.address value) :=
      LeavesText.writeCell (away_of_dictionaryStart_le hplace) value
    have hkeeps : Keeps m.LeavesText (patch marker.address) := by
      unfold patch
      infer_instance
    exact hkeeps.keeps middle hleaves
  have hstart : Holding (fun _ => False) entries markers m [] m :=
    ⟨markers, hord, by simpa using .calm hord.bounded (.refl hord.bounded)⟩
  exact (((hhold.and hpatch).control word).stateAfter ⟨hstart, .refl hord.bounded⟩).2

theorem ControlWord.perform_together (hinStep : InStep extra first second) (hord : Orderly entries markers [] first)
    (word : ControlWord) : EndTogether (InStep extra) (word.perform first) (word.perform second) :=
  hinStep.endTogether (word.leavesText hord) (word.leavesText (hord.calm hinStep.abreast.calm))

/-! ### Opening and closing a definition -/

namespace DefiningWord

theorem parallel_clearFlag {header : Nat} (haway : Away (flagsField header)) (flag : Cell) :
    Parallel (InStep extra) (onMemory (clearFlag header flag)) := by
  have : Parallel (Memory.SameOutside SourceArea) (clearFlag header flag) := by
    refine ⟨fun first second hsame => ?_⟩
    rw [clearFlag, clearFlag, hsame.readCell haway]
    cases second.readCell (flagsField header) with
    | ok flags =>
      have hwrite : Parallel (Memory.SameOutside SourceArea)
          (writeCell (flagsField header) (flags &&& ~~~flag)) := inferInstance
      exact hwrite.parallel first second hsame
    | error fault => exact ⟨rfl, hsame⟩
  have : Parallel Abreast (onMemory (clearFlag header flag)) := Abreast.onMemory _
  have (origin : Machine) : Keeps origin.LeavesText (onMemory (clearFlag header flag)) := by
    refine LeavesText.onMemory fun memory => ?_
    rw [clearFlag_eq]
    rcases reflag_cases header (· &&& ~~~flag) memory with ⟨fault, herror⟩ | hok
    · rw [stateAfter_of_error herror]
      exact .refl _ _
    · rw [stateAfter_of_ok hok]
      exact (sameOutside_setCell _ _ _).mono fun other hin => haway other hin.1 hin.2
  exact InStep.parallel _

theorem close_together (hinStep : InStep extra first second) (hord : Orderly entries markers [] first) :
    EndTogether (InStep extra) (close first) (close second) := by
  have hsnd := hord.calm hinStep.abreast.calm
  rw [close, bind_of_ok hord.markerDepth_eq, bind_of_ok hsnd.markerDepth_eq]
  by_cases hone : markers.length = 1
  · obtain ⟨marker, rfl⟩ := List.length_eq_one_iff.1 hone
    rw [if_neg (fun hne => hne hone)]
    have hpop : EndTogether (InStep extra) (popMarker first) (popMarker second) := Parallel.parallel first second hinStep
    have hfst := popMarker_of_holds hord.bounded hord.top_eq hord.held
    have hother := popMarker_of_holds hsnd.bounded hsnd.top_eq hsnd.held
    rw [hfst, hother] at hpop
    dsimp only
    rw [bind_of_ok hfst, bind_of_ok hother]
    by_cases htag : marker.tag = .colon
    · rw [if_neg (fun hne => hne htag)]
      obtain ⟨entry, hentry, hxt⟩ := hord.seated.colons marker (by simp) htag
      have hhdr : ofToken marker.address = entry.address := by
        rw [← hxt, xt, Header.token, ofToken, Nat.add_sub_cancel]
      have := (hord.header_inside (List.mem_map_of_mem hentry)).1
      have := @parallel_clearFlag extra (ofToken marker.address) (away_of_dictionaryStart_le (by
        rw [hhdr, flagsField]
        omega)) smudged
      have hrest : Parallel (InStep extra) (do
          compile (.thread .exit)
          onMemory (clearFlag (ofToken marker.address) smudged)
          setCompiling false) := inferInstance
      exact hrest.parallel _ _ hpop.2
    · rw [if_pos htag]
      exact ⟨rfl, hpop.2⟩
  · rw [if_pos hone]
    exact ⟨rfl, hinStep⟩

instance (origin : Machine) (name : String) (flags code : Cell) :
    Keeps origin.LeavesText (onDictionary fun dictionary => dictionary.create name flags code) := by
  refine .of fun m hleaves => hleaves.trans ?_
  have hb : (stateAfter (onDictionary fun dictionary => dictionary.create name flags code) m).Bounded :=
    Keeps.keeps inferInstance m hleaves.bounded
  have hnames := Nat.le_trans hleaves.bounded.dictionary.names_le
    (show dictionaryEnd ≤ memorySize by decide)
  rw [← hleaves.bounded.size_eq] at hnames
  by_cases hempty : name.isEmpty = true
  · rw [stateAfter, onDictionary, Dictionary.create, if_pos hempty]
    exact .refl hleaves.bounded
  rw [stateAfter, onDictionary, Dictionary.create, if_neg hempty] at hb ⊢
  rcases m.dictionary.enter_cases (Utf8.encode name) flags code hnames with ⟨fault, herror⟩ |
    ⟨-, hroom, hmeet, hok⟩
  · rw [herror]
    exact .refl hleaves.bounded
  · rw [hok] at hb ⊢
    have hent := sameOutside_entered m.memory m.dictionary.latest (Utf8.encode name) flags code
      (le_aligned m.dictionary.here) hroom hmeet
    have hstart := hleaves.bounded.dictionary.start_le
    rw [hleaves.bounded.dictionary.start_eq] at hstart
    have hlow : pad ≤ dictionaryRegion.start := by decide
    exact .away hb rfl rfl (hent.mono fun _ hin => Nat.le_trans hlow (Nat.le_trans hstart hin.1))

instance (name : String) (flags code : Cell) :
    Parallel (InStep extra) (onDictionary fun dictionary => dictionary.create name flags code) := by
  have (header : Nat) (link name flags code : Cell) (answer : Nat × Dictionary) :
      Parallel (Memory.SameOutside SourceArea) (do
        writeCell (linkField header) link
        writeCell (nameField header) name
        writeCell (flagsField header) flags
        writeCell (doesField header) 0
        writeCell (Header.token header) code
        return answer) := inferInstance
  have (dictionary : Dictionary) : Parallel (Memory.SameOutside SourceArea) (dictionary.create name flags code) := by
    simp only [Dictionary.create, enter]
    infer_instance
  have : Parallel Abreast (onDictionary fun dictionary => dictionary.create name flags code) :=
    Abreast.onDictionary _
  exact InStep.parallel _

section

variable (hinStep : InStep extra first second)

include hinStep

theorem warnIfTaken_together (hord : Orderly entries markers [] first)
    (name : String) : EndTogether (InStep extra) (warnIfTaken name first) (warnIfTaken name second) := by
  refine EndTogether.bind (.ask (hinStep.abreast.find?_eq hord name) hinStep) (fun _ _ hends => hends) ?_
  intro found
  have hreport : Parallel (InStep extra) (if found.isSome then reportTaken name else pure ()) := inferInstance
  exact hreport.parallel

theorem define_together (hord : Orderly entries markers [] first)
    (hname : ∀ left, Reading left first → Text.words left ≠ extra) (flags : Cell) (code : Code) :
    EndTogether (InStep extra) (define flags code first) (define flags code second) := by
  rcases (hinStep.requireName hname).cases with ⟨name, after, later, hfst, hsnd, hends⟩ |
    ⟨fault, after, later, hfst, hsnd, hends⟩
  · have hcalm : first.Calm after := Keeps.of_ok (.refl hord.bounded) hfst
    rw [define, bind_of_ok hfst, bind_of_ok hsnd]
    have hcreate : Parallel (InStep extra) (onDictionary fun dictionary => dictionary.create name flags code.toCell) :=
      inferInstance
    exact (warnIfTaken_together hends (hord.calm hcalm) name).bind (fun _ _ hends => hends) fun _ => hcreate.parallel
  · rw [define, bind_of_error hfst, bind_of_error hsnd]
    exact ⟨rfl, hends⟩

theorem openNamed_together (hord : Orderly entries markers [] first)
    (hname : ∀ left, Reading left first → Text.words left ≠ extra) :
    EndTogether (InStep extra) (openNamed first) (openNamed second) := by
  have hsnd := hord.calm hinStep.abreast.calm
  have hidle (m : Machine) (hord : Orderly entries markers [] m) :
      needIdle m = if markers.length ≠ 0 then .error .nesting m else .ok () m := by
    rw [needIdle, bind_of_ok hord.markerDepth_eq]
    split <;> rfl
  by_cases hopen : markers.length ≠ 0
  · rw [openNamed, bind_of_error ((hidle first hord).trans (if_pos hopen)),
      bind_of_error ((hidle second hsnd).trans (if_pos hopen))]
    exact ⟨rfl, hinStep⟩
  · rw [openNamed, bind_of_ok ((hidle first hord).trans (if_neg hopen)),
      bind_of_ok ((hidle second hsnd).trans (if_neg hopen))]
    have hmark (token : Nat) : Parallel (InStep extra) (do pushMarker ⟨.colon, token⟩; setCompiling true) := inferInstance
    exact (define_together hinStep hord hname _ _).bind (fun _ _ hends => hends) fun token => (hmark token).parallel

end

instance : Parallel (InStep extra) latest := by
  have : Parallel Abreast latest := Abreast.ask fun _ _ _ _ _ => rfl
  have (origin : Machine) : Keeps origin.LeavesText latest := inferInstance
  exact InStep.parallel _

end DefiningWord

end ThreadedForth
