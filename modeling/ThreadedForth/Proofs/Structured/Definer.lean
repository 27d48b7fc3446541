
import ThreadedForth.Proofs.Structured.Building
import ThreadedForth.Proofs.Structured.Definitions
import ThreadedForth.Proofs.Structured.Entering

/-!
# Defining words

A defining word is written `: name create ... does> ... ;`. Its code is in two parts: the first one makes a word and lays
data down behind its header, up to `(does>)`, and the second one is what every word that was made so does. Here is what a
text of this kind leaves in the dictionary.
-/

namespace ThreadedForth

open WordM Dictionary Layout Header Compiled List

/-! ### What stays in the dictionary -/

namespace Machine

/-- The byte is not part of the dictionary. -/
def Vacant (m : Machine) (address : Nat) : Prop :=
  address < dictionaryStart ∨
    (m.dictionary.here ≤ address ∧ address < m.dictionary.names) ∨ dictionaryEnd ≤ address

/-- The dictionary may have grown, and all that was in it is as it was. -/
structure Retains (before after : Machine) : Prop where
  bounded : after.Bounded
  here_le : before.dictionary.here ≤ after.dictionary.here
  names_le : after.dictionary.names ≤ before.dictionary.names
  memory : Memory.SameOutside before.Vacant before.memory after.memory

namespace Retains

variable {before middle after : Machine}

theorem refl (hb : before.Bounded) : before.Retains before :=
  ⟨hb, Nat.le_refl _, Nat.le_refl _, .refl _ _⟩

theorem trans (hfst : before.Retains middle) (hsnd : middle.Retains after) : before.Retains after := by
  have hhere := hfst.here_le
  have hnames := hfst.names_le
  refine ⟨hsnd.bounded, Nat.le_trans hhere hsnd.here_le, Nat.le_trans hsnd.names_le hnames,
    hfst.memory.trans (hsnd.memory.mono fun addr hvac => ?_)⟩
  rcases hvac with hlow | ⟨hlow, hhigh⟩ | hhigh
  · exact .inl hlow
  · exact .inr (.inl ⟨by omega, by omega⟩)
  · exact .inr (.inr hhigh)

theorem of_calm (hcalm : before.Calm after) : before.Retains after := by
  have hend : dictionaryEnd ≤ returnStack := by decide
  refine ⟨hcalm.bounded, hcalm.here_le, Nat.le_of_eq hcalm.names_eq, hcalm.memory.mono fun addr hspare => ?_⟩
  exact hspare.imp_right (Or.imp_right (Nat.le_trans hend))

theorem cellAt_eq (hretn : before.Retains after) (hb : before.Bounded) {addr : Nat}
    (hlow : dictionaryStart ≤ addr) (hhigh : addr + 4 ≤ before.dictionary.here) :
    after.memory.cellAt addr = before.memory.cellAt addr := by
  have hhere := hb.dictionary.here_le
  have hnames : before.dictionary.names ≤ dictionaryEnd := hb.dictionary.names_le
  refine hretn.memory.cellAt fun other hfst hlast hvac => ?_
  rcases hvac with hout | ⟨hout, _⟩ | hout <;> omega

end Retains

end Machine

theorem Prim.start_le_token (prim : Prim) : dictionaryStart ≤ prim.token := by
  rw [Prim.token, Header.token]
  omega

theorem Machine.Supplied.retains {before after : Machine} (hsupplied : before.Supplied) (hb : before.Bounded)
    (hretn : before.Retains after) : after.Supplied := by
  refine ⟨fun prim => ?_, fun prim => Nat.le_trans (hsupplied.below prim) hretn.here_le⟩
  rw [hretn.cellAt_eq hb prim.start_le_token (hsupplied.below prim)]
  exact hsupplied.primed prim

/-! ### The code of a defining word -/

/-- A defining word: what it lays down behind the headers that it creates, and what the words that it makes do. -/
structure Definer where
  token : Nat
  build : List BuildWord
  body : Prog

namespace Definer

/-- The cells of the first part, up to `(does>)`. -/
def values (definer : Definer) : List Cell :=
  Cell.ofNat (Prim.defining .create).token ::
    (definer.build.flatMap BuildWord.cells ++ [Cell.ofNat (Prim.thread .setDoes).token])

theorem length_values (definer : Definer) :
    definer.values.length = 1 + (definer.build.flatMap BuildWord.cells).length + 1 := by
  rw [values, length_cons, length_append, length_singleton]
  omega

/-- The address behind `(does>)`, where the second part starts. -/
def behaviour (definer : Definer) : Nat := Header.body definer.token + 4 * definer.values.length

/-- The defining word stands in the dictionary. The second part does what its program means, whatever else there may be,
and returns to its caller. -/
structure Erected (definer : Definer) (words : List Compiled) (m : Machine) : Prop where
  supplied : m.Supplied
  isAligned : definer.token % 4 = 0
  start_le : dictionaryStart ≤ definer.token
  colon : m.memory.cellAt definer.token = Code.colon.toCell
  held : HoldsItems m.memory (Header.body definer.token) definer.values
  below : definer.behaviour ≤ m.dictionary.here
  attains : ∀ cells : Nat → Cell, (∀ address, dictionaryStart ≤ address →
      address + 4 ≤ m.dictionary.here → address % 4 = 0 → cells address = m.memory.cellAt address) →
    ∀ (fuel caller : Nat) (items : Items) (returns : List Cell), caller ≤ dictionaryEnd →
      Attains cells fuel (fun _ => 0) (fun _ items => ⟨caller, items, returns⟩)
        ⟨definer.behaviour, items, Cell.ofNat caller :: returns⟩
        (definer.body.eval ((vocabulary words).eval fuel) fuel [] items)

theorem Erected.retains {definer : Definer} {words : List Compiled} {before after : Machine}
    (herected : definer.Erected words before) (hb : before.Bounded) (hretn : before.Retains after) :
    definer.Erected words after := by
  have hhere := hretn.here_le
  have hbelow := herected.below
  have hstart := herected.start_le
  rw [behaviour, Header.body] at hbelow
  refine ⟨herected.supplied.retains hb hretn, herected.isAligned, hstart, ?_, fun place value hplace => ?_,
    Nat.le_trans herected.below hhere, fun cells hcells => ?_⟩
  · rw [hretn.cellAt_eq hb hstart (by omega)]
    exact herected.colon
  · have hins := (List.getElem?_eq_some_iff.1 hplace).1
    rw [hretn.cellAt_eq hb (by rw [Header.body]; omega) (by rw [Header.body]; omega)]
    exact herected.held place value hplace
  · refine herected.attains cells fun addr hlow hhigh haligned => ?_
    rw [hcells addr hlow (Nat.le_trans hhigh hhere) haligned, hretn.cellAt_eq hb hlow hhigh]

end Definer

/-! ### Its text -/

/-- The machine rests. The primitives are in its dictionary, though newer words may hide them, and so are the words that
programs may call. -/
structure Stocked (words : List Compiled) (entries : List Header) (m : Machine) : Prop where
  idle : Idle entries m
  exiting_eq : m.exiting = false
  prims : ∀ prim : Prim, ∃ entry ∈ entries, Enters prim entry
  standing : Standing m.memory.cellAt m.dictionary.here words

/-- The lines define a defining word. The primitives that they name are not hidden by other words. -/
structure DefinerText (entries : List Header) (base : Except Fault Nat) (words : List Compiled) (name : String)
    (build : List BuildWord) (body : Prog) (lines : List String) : Prop where
  text : ∃ creating building doing running,
    DefinitionText name (creating :: building ++ doing :: running) lines ∧
      Resolves entries base words creating (.word (.defining .create)) ∧
      List.Forall₂ (Resolves entries base words) building (build.map BuildWord.piece) ∧
      Calls entries doing (.defining .does) true ∧ List.Forall₂ (Resolves entries base words) running body.pieces
  colon : Calls entries ":" (.defining .colon) false
  semicolon : Calls entries ";" (.defining .semicolon) true
  isValid : body.isValid (vocabulary words) 0 = true

theorem Knows.stocked {words : List Compiled} {entries : List Header} {m : Machine}
    (hknows : Knows words entries m) : Stocked words entries m := by
  refine ⟨hknows.idle, hknows.exiting_eq, fun prim => ?_, hknows.standing⟩
  obtain ⟨entry, hlook, henters⟩ := hknows.equipped.prims ((sameName_iff prim.name prim.name).2 rfl)
  exact ⟨entry, mem_of_lookup hlook, henters⟩

/-! ### Laying it down -/

section Laying

variable {words : List Compiled} {entries : List Header} {before after : Machine} {name : String}
  {build : List BuildWord} {body : Prog} {lines : List String} {draft : Draft}

theorem BuildWord.compiles (word : BuildWord) : word.piece.Compiles := by
  cases word with
  | number value => trivial
  | data word => exact word.compiles
  | transfer word => exact Prim.lacks_immediate rfl
  | comma => exact (by decide : lacks (Prim.defining .comma).entry.flags immediate = true)
  | compileComma => exact (by decide : lacks (Prim.defining .compileComma).entry.flags immediate = true)
  | commaByte => exact (by decide : lacks (Prim.defining .commaByte).entry.flags immediate = true)

/-- What the words of the text do to a definition. -/
def definerSteps (resolve : String → Option Nat) (build : List BuildWord) (body : Prog) : List (Draft → Option Draft) :=
  (.word (.defining .create) :: build.map BuildWord.piece).map (Piece.draft resolve) ++
    Draft.compile (.thread .setDoes) :: body.pieces.map (Piece.draft resolve)

variable {base : Except Fault Nat} {room : Prop} {middle : Draft}

theorem Calls.step_does {token : String} (hcalls : Calls entries token (.defining .does) true) :
    stepOf? entries base token = some (Draft.compile (.thread .setDoes)) := by
  obtain ⟨header, hlook, hcode, himm⟩ := hcalls
  have himm : header.isImmediate = true := himm
  rw [stepOf?, hlook, stepFor?, himm, if_pos rfl, hcode]

theorem DefinerText.steps (htext : DefinerText entries base words name build body lines) :
    ∃ tokens, DefinitionText name tokens lines ∧
      Steps entries base tokens (definerSteps (Compiled.resolve words) build body) := by
  obtain ⟨creating, building, doing, running, htext, hcreating, hbuilding, hdoing, hrunning⟩ := htext.text
  have hpieces : ∀ piece ∈ Piece.word (.defining .create) :: build.map BuildWord.piece, piece.Compiles := by
    intro piece hpiece
    rcases List.mem_cons.1 hpiece with rfl | hpiece
    · exact (by decide : lacks (Prim.defining .create).entry.flags immediate = true)
    · obtain ⟨word, _, rfl⟩ := mem_map.1 hpiece
      exact word.compiles
  exact ⟨_, htext, rel_append (Resolves.steps hpieces (.cons hcreating hbuilding))
    (.cons hdoing.step_does (Resolves.steps body.compiles hrunning))⟩

theorem BuildWord.does_draft (resolve : String → Option Nat) (word : BuildWord) (draft : Draft)
    (hroom : room → draft.here + 4 * word.cells.length ≤ draft.names) :
    Does room (word.piece.draft resolve draft) (Chunk word.cells draft.markers draft) := by
  cases word with
  | number value =>
    have hnumber := @Draft.does_number draft room value
    cases value <;> exact hnumber hroom
  | data word => exact does_data word hroom
  | transfer word => exact Draft.does_emit _ hroom
  | comma => exact Draft.does_emit _ hroom
  | compileComma => exact Draft.does_emit _ hroom
  | commaByte => exact Draft.does_emit _ hroom

theorem BuildWord.does_lay (resolve : String → Option Nat) (build : List BuildWord) (draft : Draft)
    (hroom : room → draft.here + 4 * (build.flatMap BuildWord.cells).length ≤ draft.names) :
    Does room (lay resolve (build.map BuildWord.piece) draft)
      (Chunk (build.flatMap BuildWord.cells) draft.markers draft) := by
  induction build generalizing draft with
  | nil => exact Draft.chunk_markers draft draft.markers
  | cons word build ih =>
    rw [flatMap_cons, length_append] at hroom
    refine Does.cons (word.does_draft resolve draft fun hreally => ?_) fun next hnext => ?_
    · have := hroom hreally
      omega
    · have hhere := hnext.here_eq
      have hnames := hnext.names_eq
      refine (ih next fun hreally => ?_).mono fun last hlast => ?_
      · have := hroom hreally
        omega
      · rw [hnext.markers_eq] at hlast
        exact hnext.append hlast

/-- There is room for a defining word: for its header, for the cells of both parts and the return behind them, and for
the markers of its structures. -/
structure Definer.Fits (definer : Definer) (name : String) (dictionary : Dictionary) : Prop where
  header : HeaderRoom name dictionary
  build : (headed dictionary name).here + 4 * definer.values.length ≤ (headed dictionary name).names
  code : definer.body.finish ((headed dictionary name).here + 4 * definer.values.length) + 4 ≤ (headed dictionary name).names
  markers : 1 + definer.body.peak ≤ Draft.maxMarkers

/-- The first part is laid down, and then the program of the second. -/
theorem Idle.does_definer (definer : Definer) (hidle : Idle entries before) (hhdr : HeaderRoom name before.dictionary)
    (hvalid : definer.body.isValid (vocabulary words) 0 = true) :
    Does (definer.Fits name before.dictionary)
      (Draft.run (definerSteps (Compiled.resolve words) definer.build definer.body) (openedDraft before.dictionary name))
      fun draft => ∃ middle, Chunk definer.values (openedDraft before.dictionary name).markers
          (openedDraft before.dictionary name) middle ∧
        definer.body.Laid (Compiled.resolve words) middle draft := by
  have hlen := definer.length_values
  have hopened : (openedDraft before.dictionary name).here = (headed before.dictionary name).here ∧
    (openedDraft before.dictionary name).names = (headed before.dictionary name).names := ⟨rfl, rfl⟩
  have hfst : Does (definer.Fits name before.dictionary)
      (lay (Compiled.resolve words) (.word (.defining .create) :: definer.build.map BuildWord.piece)
        (openedDraft before.dictionary name))
      (Chunk (Cell.ofNat (Prim.defining .create).token :: definer.build.flatMap BuildWord.cells)
        (openedDraft before.dictionary name).markers (openedDraft before.dictionary name)) := by
    refine Does.cons (Draft.does_emit _ fun hfits => ?_) fun next hnext => ?_
    · have := hfits.build
      omega
    · have hhere : next.here = (openedDraft before.dictionary name).here + 4 := hnext.here_eq
      have hnames := hnext.names_eq
      refine (BuildWord.does_lay _ definer.build next fun hfits => ?_).mono fun last hlast => ?_
      · have := hfits.build
        omega
      · rw [hnext.markers_eq] at hlast
        exact hnext.append hlast
  rw [definerSteps, Draft.run, foldlM_append, ← Draft.run, Draft.run_map]
  refine hfst.bind fun built hbuilt => ?_
  have hbuiltHere := hbuilt.here_eq
  have hbuiltNames := hbuilt.names_eq
  rw [length_cons] at hbuiltHere
  rw [foldlM_cons]
  refine Does.bind (Draft.does_emit _ fun hfits => ?_) fun middle hmid => ?_
  · have := hfits.build
    omega
  have hchunk : Chunk definer.values (openedDraft before.dictionary name).markers
      (openedDraft before.dictionary name) middle := by
    rw [hbuilt.markers_eq] at hmid
    exact hbuilt.append hmid
  have hgrown := hchunk.grown (hidle.sane hhdr)
  have hhere : middle.here = (headed before.dictionary name).here + 4 * definer.values.length :=
    hchunk.here_eq
  have hnames : middle.names = (headed before.dictionary name).names := hchunk.names_eq
  rw [← Draft.run, Draft.run_map]
  refine (definer.body.does_lay (fun name hknown => ?_) 0 hvalid ⟨hgrown.sane, fun hnone => ?_, fun hfits => ?_,
    fun hfits => ?_⟩).mono fun draft hlaid => ⟨middle, hchunk, hlaid⟩
  · rwa [knows_eq] at hknown
  · omega
  · have hcode := hfits.code
    rw [hhere, hnames]
    omega
  · rw [hchunk.markers_eq]
    exact hfits.markers

/-- The code behind `(does>)` does what its program means, and returns. -/
theorem Completed.attains_behaviour {token : Nat} (hstocked : Stocked words entries before)
    (hcomp : Completed entries name draft before after) (hhdr : HeaderRoom name before.dictionary)
    (hchunk : Chunk (Definer.values ⟨token, build, body⟩) (openedDraft before.dictionary name).markers
      (openedDraft before.dictionary name) middle)
    (hlaid : body.Laid (Compiled.resolve words) middle draft)
    (hvalid : body.isValid (vocabulary words) 0 = true) (hroom : draft.here + 4 ≤ draft.names)
    {cells : Nat → Cell} (hcells : ∀ addr, dictionaryStart ≤ addr → addr + 4 ≤ after.dictionary.here →
      addr % 4 = 0 → cells addr = after.memory.cellAt addr)
    (fuel : Nat) {caller : Nat} (hcaller : caller ≤ dictionaryEnd) (items : Items) (returns : List Cell) :
    Attains cells fuel (fun _ => 0) (fun _ items => ⟨caller, items, returns⟩)
      ⟨middle.here, items, Cell.ofNat caller :: returns⟩
      (body.eval ((vocabulary words).eval fuel) fuel [] items) := by
  have hgrown := hchunk.grown (hstocked.idle.sane hhdr)
  have hsane := hlaid.grown.sane
  have hlater := Nat.le_trans hgrown.here_le hlaid.grown.here_le
  obtain ⟨inner, hinner, hagrees, hexit, holder⟩ := hcomp.agrees hsane hlater hcells
  obtain ⟨hreaches, hserves⟩ := hstocked.standing inner holder
  have hexits := body.exits_eq_nil middle.here hvalid
  have hcode : body.CodeAt inner (Compiled.resolve words) middle.here draft.here := by
    refine hlaid.code hreaches hsane.end_le ?_ ?_
    · rw [hexits]
      exact fun addr hlow => hagrees addr (Nat.le_trans hgrown.here_le hlow)
    · rw [hexits]
      exact fun _ hnone => by cases hnone
  have hreturn := hcomp.exitAt hsane hroom hexit
  rw [hlaid.here_eq] at hcode hreturn
  exact (body.attains_exit (hserves fuel) hvalid hcode hreturn hcaller items returns).congr hinner

/-- The defining word stands once its text was interpreted. -/
theorem Completed.erected (hstocked : Stocked words entries before)
    (hcomp : Completed entries name draft before after) (hhdr : HeaderRoom name before.dictionary)
    (hchunk : Chunk (Definer.values ⟨Header.token (aligned before.dictionary.here), build, body⟩)
      (openedDraft before.dictionary name).markers (openedDraft before.dictionary name) middle)
    (hlaid : body.Laid (Compiled.resolve words) middle draft)
    (hvalid : body.isValid (vocabulary words) 0 = true) (hroom : draft.here + 4 ≤ draft.names) :
    Definer.Erected ⟨Header.token (aligned before.dictionary.here), build, body⟩ words after := by
  have hlex := hcomp.idle.lexicon
  have hstart := hcomp.start_le
  have halign := aligned_mod before.dictionary.here
  have hhere := hcomp.here_eq
  have hlater := hlaid.grown.here_le
  have hmid := hchunk.here_eq
  have hfst : (openedDraft before.dictionary name).here = aligned before.dictionary.here + 20 := rfl
  have hbeh : Definer.behaviour ⟨Header.token (aligned before.dictionary.here), build, body⟩ = middle.here :=
    hmid.symm
  have hcolon := hlex.cellAt_eq mem_cons_self
  have hxt : (headedEntry entries before.dictionary name smudged .colon).revealed.xt =
      Header.token (aligned before.dictionary.here) := rfl
  rw [hxt] at hcolon
  refine ⟨⟨fun prim => ?_, fun prim => ?_⟩, ?_, ?_, ?_, fun place value hplace => ?_, ?_, ?_⟩
  · obtain ⟨entry, hentry, henters⟩ := hstocked.prims prim
    rw [← henters.token_eq, ← henters.code_eq]
    exact hlex.cellAt_eq (mem_cons_of_mem _ hentry)
  · obtain ⟨entry, hentry, henters⟩ := hstocked.prims prim
    have hbelow := (hlex.below entry (mem_cons_of_mem _ hentry)).2
    rw [← henters.token_eq, xt, Header.token]
    rw [size] at hbelow
    omega
  · change (aligned before.dictionary.here + 16) % 4 = 0
    omega
  · change dictionaryStart ≤ aligned before.dictionary.here + 16
    omega
  · exact hcolon
  · have hins := (List.getElem?_eq_some_iff.1 hplace).1
    have hheld := hchunk.held place value hplace
    change after.memory.cellAt (aligned before.dictionary.here + 20 + 4 * place) = value
    rw [hfst] at hmid hheld
    have hrange : draft.InRange (headed before.dictionary name).here (aligned before.dictionary.here + 20 + 4 * place) :=
      ⟨Nat.le_add_right _ _, by omega, by omega⟩
    rw [hcomp.cells _ hrange, hlaid.grown.below _ (by omega)]
    exact hheld
  · rw [hbeh]
    omega
  · intro cells hcells fuel caller items returns hcaller
    rw [hbeh]
    exact hcomp.attains_behaviour hstocked hhdr hchunk hlaid hvalid hroom hcells fuel hcaller items returns

theorem Completed.stocked (hcomp : Completed entries name draft before after)
    (hstocked : Stocked words entries before) (hlater : (openedDraft before.dictionary name).here ≤ draft.here) :
    Stocked words ((headedEntry entries before.dictionary name smudged .colon).revealed :: entries) after := by
  have hfst : (openedDraft before.dictionary name).here = aligned before.dictionary.here + 20 := rfl
  have hgrow := le_aligned before.dictionary.here
  have hhere := hcomp.here_eq
  refine ⟨hcomp.idle, hcomp.undisturbed.exiting_eq.trans hstocked.exiting_eq, fun prim => ?_,
    fun other hother => hstocked.standing other fun addr hlow hhigh haligned => ?_⟩
  · obtain ⟨entry, hentry, henters⟩ := hstocked.prims prim
    exact ⟨entry, mem_cons_of_mem _ hentry, henters⟩
  · rw [hother addr hlow (by omega) haligned]
    exact hcomp.undisturbed.cellAt_eq hlow hhigh

theorem Stocked.settles (hstocked : Stocked words entries before)
    (htext : DefinerText entries before.base words name build body lines) :
    Settles lines before
      (Defines entries name (definerSteps (Compiled.resolve words) build body) before) := by
  obtain ⟨tokens, hdefn, hsteps⟩ := htext.steps
  refine hstocked.idle.settles rfl hstocked.exiting_eq hdefn htext.colon htext.semicolon hsteps
    fun hhdr draft hrun => ?_
  have hlaid := hstocked.idle.does_definer ⟨0, build, body⟩ hhdr htext.isValid
  rw [hrun] at hlaid
  obtain ⟨middle, hchunk, hlaid⟩ := hlaid
  rw [hlaid.markers_eq, body.exits_eq_nil _ htext.isValid, file_nil, hchunk.markers_eq]
  rfl

variable (hstocked : Stocked words entries before)

include hstocked

theorem Stocked.completed
    (htext : DefinerText entries before.base words name build body lines) (hhdr : HeaderRoom name before.dictionary)
    (hdraft : Draft.run (definerSteps (Compiled.resolve words) build body) (openedDraft before.dictionary name) = some draft)
    (hroom : draft.here + 4 ≤ draft.names) (hcomp : Completed entries name draft before after) :
    Definer.Erected ⟨Header.token (aligned before.dictionary.here), build, body⟩ words after ∧
      Stocked words ((headedEntry entries before.dictionary name smudged .colon).revealed :: entries) after := by
  have hlaid := hstocked.idle.does_definer ⟨Header.token (aligned before.dictionary.here), build, body⟩
    hhdr htext.isValid
  rw [hdraft] at hlaid
  obtain ⟨middle, hchunk, hlaid⟩ := hlaid
  have hlater := Nat.le_trans (hchunk.grown (hstocked.idle.sane hhdr)).here_le hlaid.grown.here_le
  exact ⟨hcomp.erected hstocked hhdr hchunk hlaid htext.isValid hroom, hcomp.stocked hstocked hlater⟩

theorem Stocked.erected {fuel : Nat} (htext : DefinerText entries before.base words name build body lines)
    (hrun : lines.forM (Session.interpretLine fuel) before = .ok () after) :
    Definer.Erected ⟨Header.token (aligned before.dictionary.here), build, body⟩ words after ∧
      Stocked words ((headedEntry entries before.dictionary name smudged .colon).revealed :: entries) after := by
  obtain ⟨⟨hhdr, draft, hdraft, hroom⟩, other, hother, hcomp⟩ := (hstocked.settles htext).of_ok hrun
  cases hdraft.symm.trans hother
  exact hstocked.completed htext hhdr hdraft hroom hcomp

/-- If there is room for it, its text is accepted. -/
theorem Stocked.defines (htext : DefinerText entries before.base words name build body lines)
    (hfits : Definer.Fits ⟨Header.token (aligned before.dictionary.here), build, body⟩ name before.dictionary) :
    ∃ after, Ends (fun fuel => lines.forM (Session.interpretLine fuel) before) (.ok () after) ∧
      Undisturbed before.dictionary.here before after ∧
      after.dictionary.here = body.finish ((headed before.dictionary name).here +
        4 * (Definer.values ⟨Header.token (aligned before.dictionary.here), build, body⟩).length) + 4 ∧
      after.dictionary.names = (headed before.dictionary name).names := by
  have hlaid := hstocked.idle.does_definer ⟨Header.token (aligned before.dictionary.here), build, body⟩
    hfits.header htext.isValid
  cases hdraft : Draft.run (definerSteps (Compiled.resolve words) build body) (openedDraft before.dictionary name) with
  | none =>
    rw [hdraft] at hlaid
    exact (hlaid hfits).elim
  | some draft =>
    rw [hdraft] at hlaid
    obtain ⟨middle, hchunk, hlaid⟩ := hlaid
    have hhere : draft.here = body.finish ((headed before.dictionary name).here +
        4 * (Definer.values ⟨Header.token (aligned before.dictionary.here), build, body⟩).length) := by
      rw [hlaid.here_eq, hchunk.here_eq]
      rfl
    have hnames : draft.names = (headed before.dictionary name).names := hlaid.grown.names_eq.trans hchunk.names_eq
    have hcode := hfits.code
    simp only at hcode
    obtain ⟨after, hcomp, hends⟩ :=
      ((hstocked.settles htext).of_defines hfits.header hdraft (by omega)).exists_ok
    refine ⟨after, hends, hcomp.undisturbed, ?_, hcomp.names_eq.trans hnames⟩
    rw [hcomp.here_eq, hhere]

end Laying

end ThreadedForth
