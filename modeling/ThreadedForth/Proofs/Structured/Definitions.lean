
import ThreadedForth.Proofs.Structured.Spelling

/-!
# Words defined by programs

A session defines words by structured programs, each of which may call those before it. Such a definition is
accepted if there is room, and the new word does what its program means.
-/

namespace ThreadedForth

open WordM Dictionary Layout Header Interpreter Compiled Draft

/-! ### Definitions -/

/-- The lines define a word by a program that calls words of the vocabulary. Its name is not that of a primitive. -/
structure Definition (vocabulary : Vocabulary) (name : String) (body : Prog) (lines : List String) : Prop where
  text : ∃ tokens, DefinitionText name tokens lines ∧ List.Forall₂ (Spells vocabulary) tokens body.pieces
  isValid : body.isValid vocabulary 0 = true
  isNew : ∀ prim : Prim, sameName prim.name name = false

/-- There is room for the definition: for its header, its code and the return at its end in the dictionary, and for its
markers on the control stack. -/
structure Prog.Fits (body : Prog) (name : String) (dictionary : Dictionary) : Prop where
  header : HeaderRoom name dictionary
  code : body.finish (headed dictionary name).here + 4 ≤ (headed dictionary name).names
  markers : 1 + body.peak ≤ maxMarkers

/-- The words stand in memory up to a limit. They do what their programs mean, whatever else there may be. -/
def Standing (cells : Nat → Cell) (limit : Nat) (words : List Compiled) : Prop :=
  ∀ other : Nat → Cell, (∀ address, dictionaryStart ≤ address → address + 4 ≤ limit → address % 4 = 0 →
      other address = cells address) →
    Reaches other (Compiled.resolve words) ∧
      ∀ fuel, Serves other (Compiled.resolve words) ((Compiled.vocabulary words).eval fuel) fuel

/-- The machine rests, and these words have been defined. -/
structure Knows (words : List Compiled) (entries : List Header) (m : Machine) : Prop where
  idle : Idle entries m
  base_eq : m.base = .ok 10
  exiting_eq : m.exiting = false
  equipped : Equipped entries words
  standing : Standing m.memory.cellAt m.dictionary.here words

theorem Draft.run_map (resolve : String → Option Nat) (pieces : List Piece) (draft : Draft) :
    run (pieces.map (Piece.draft resolve)) draft = lay resolve pieces draft := by
  rw [run, lay, List.foldlM_map]

section Laying

variable {words : List Compiled} {entries : List Header} {before : Machine} {name : String} {body : Prog}
  {lines : List String}

theorem Idle.sane (hidle : Idle entries before) (hhdr : HeaderRoom name before.dictionary) :
    (openedDraft before.dictionary name).Sane := by
  have hgrow := le_aligned before.dictionary.here
  have hmod := aligned_mod before.dictionary.here
  have hroom := hhdr.meet
  have hstart := hidle.bounded.dictionary.start_le
  have horigin := hidle.bounded.dictionary.start_eq
  have hnames := hidle.bounded.dictionary.names_le
  have hend : dictionaryRegion.finish = dictionaryEnd := rfl
  have hsize : size = 20 := rfl
  refine ⟨?_, ?_, ?_, ?_⟩
  · change 0 < aligned before.dictionary.here + size
    omega
  · change (aligned before.dictionary.here + size) % 4 = 0
    omega
  · change aligned before.dictionary.here + size ≤ before.dictionary.names - _
    omega
  · change before.dictionary.names - _ ≤ dictionaryEnd
    omega

theorem Idle.does_lay (hidle : Idle entries before) (hhdr : HeaderRoom name before.dictionary)
    (hvalid : body.isValid (Compiled.vocabulary words) 0 = true) :
    Does (body.Fits name before.dictionary)
      (lay (Compiled.resolve words) body.pieces (openedDraft before.dictionary name))
      (body.Laid (Compiled.resolve words) (openedDraft before.dictionary name)) := by
  refine body.does_lay (fun name hknown => ?_) 0 hvalid ⟨hidle.sane hhdr, fun hnone => ?_, fun hfits => ?_, fun hfits => ?_⟩
  · rwa [knows_eq] at hknown
  · omega
  · exact Nat.le_trans (Nat.le_add_right _ 4) hfits.code
  · exact hfits.markers

variable {draft : Draft} {after : Machine} {cells : Nat → Cell}

theorem Prog.Laid.markers_eq_nil (hlaid : body.Laid (Compiled.resolve words) (openedDraft before.dictionary name) draft)
    (hvalid : body.isValid (Compiled.vocabulary words) 0 = true) :
    draft.markers = [⟨.colon, Header.token (aligned before.dictionary.here)⟩] := by
  rw [hlaid.markers_eq, body.exits_eq_nil _ hvalid, file_nil]
  rfl

theorem Knows.settles (hknows : Knows words entries before)
    (hdefn : Definition (Compiled.vocabulary words) name body lines) :
    Settles lines before (Defines entries name (body.pieces.map (Piece.draft (Compiled.resolve words))) before) := by
  obtain ⟨tokens, htext, hspells⟩ := hdefn.text
  obtain ⟨colon, hcolon, hcolonEnters⟩ := @Equipped.prims _ _ hknows.equipped (.defining .colon) ":" (by decide)
  obtain ⟨semicolon, hsemi, hsemicolonEnters⟩ :=
    @Equipped.prims _ _ hknows.equipped (.defining .semicolon) ";" (by decide)
  refine hknows.idle.settles hknows.base_eq hknows.exiting_eq htext (hcolonEnters.calls hcolon (by decide))
    (hsemicolonEnters.calls hsemi (by decide)) (hknows.equipped.steps hspells) fun hhdr draft hdraft => ?_
  have hdoes := hknows.idle.does_lay hhdr hdefn.isValid
  rw [run_map] at hdraft
  rw [hdraft] at hdoes
  exact Prog.Laid.markers_eq_nil hdoes hdefn.isValid

/-- The word once it is defined. -/
def Compiled.defined (dictionary : Dictionary) (name : String) (body : Prog) : Compiled :=
  ⟨name, body, Header.token (aligned dictionary.here)⟩

section

variable (hcomp : Completed entries name draft before after)

include hcomp

/-- Wherever the cells of a word that was just defined stand, its draft is met there, and so is what was there before. -/
theorem Completed.agrees {other : Nat → Cell} (hsane : draft.Sane)
    (hlater : (openedDraft before.dictionary name).here ≤ draft.here)
    (hother : ∀ addr, dictionaryStart ≤ addr → addr + 4 ≤ after.dictionary.here → addr % 4 = 0 →
      other addr = after.memory.cellAt addr) :
    ∃ inner : Nat → Cell, (∀ addr, addr % 4 = 0 → other addr = inner addr) ∧
      Agrees inner (openedDraft before.dictionary name).here draft [] ∧
      inner draft.here = after.memory.cellAt draft.here ∧
      ∀ addr, dictionaryStart ≤ addr → addr + 4 ≤ before.dictionary.here → addr % 4 = 0 →
        inner addr = before.memory.cellAt addr := by
  have hmod := hsane.isAligned
  have hgrow := le_aligned before.dictionary.here
  have hstart := hcomp.start_le
  have hfst : (openedDraft before.dictionary name).here = aligned before.dictionary.here + 20 := rfl
  rw [hcomp.here_eq] at hother
  -- cells where no code can be are filled up, so that the draft is met at every address
  let inner : Nat → Cell := fun addr => if addr % 4 = 0 then other addr else draft.cells addr
  have hinner (addr : Nat) (haddr : addr % 4 = 0) : other addr = inner addr := (if_pos haddr).symm
  refine ⟨inner, hinner, fun addr hlow hhigh _ => ?_, ?_, fun addr hlow hhigh haligned => ?_⟩
  · by_cases haligned : addr % 4 = 0
    · rw [← hinner addr haligned, hother addr (by omega) (by omega) haligned]
      exact hcomp.cells addr ⟨hlow, by omega, haligned⟩
    · exact if_neg haligned
  · rw [← hinner _ hmod]
    exact hother _ (by omega) (by omega) hmod
  · rw [← hinner addr haligned, hother addr hlow (by omega) haligned]
    exact hcomp.undisturbed.cellAt_eq hlow hhigh

theorem Completed.exitAt (hsane : draft.Sane) (hroom : draft.here + 4 ≤ draft.names)
    (hexit : cells draft.here = after.memory.cellAt draft.here) : OpAt cells draft.here .exit := by
  have hend := hsane.names_le
  refine ⟨hsane.pos, hsane.isAligned, ?_, hexit.trans hcomp.exit, fun place value hplace => ?_, trivial⟩
  · change draft.here + 4 ≤ dictionaryEnd
    omega
  · cases place <;> cases hplace

theorem Completed.codeAt (hlaid : body.Laid (Compiled.resolve words) (openedDraft before.dictionary name) draft)
    (hvalid : body.isValid (Compiled.vocabulary words) 0 = true) (hroom : draft.here + 4 ≤ draft.names)
    (hagrees : Agrees cells (openedDraft before.dictionary name).here draft [])
    (hexit : cells draft.here = after.memory.cellAt draft.here) (hreaches : Reaches cells (Compiled.resolve words)) :
    let word := defined before.dictionary name body
    word.body.CodeAt cells (Compiled.resolve words) (Header.body word.token) word.last ∧ OpAt cells word.last .exit := by
  intro word
  have hsane := hlaid.grown.sane
  have hfst : Header.body word.token = (openedDraft before.dictionary name).here := rfl
  have hlast : word.last = draft.here := by
    rw [last, hfst]
    exact hlaid.here_eq.symm
  have hexits := body.exits_eq_nil (openedDraft before.dictionary name).here hvalid
  refine ⟨?_, ?_⟩
  · rw [hlast, hfst]
    refine hlaid.code hreaches hsane.end_le (hexits ▸ hagrees) ?_
    rw [hexits]
    exact fun _ hnone => by cases hnone
  · rw [hlast]
    exact hcomp.exitAt hsane hroom hexit

/-- The new word stands above the older ones. -/
theorem Completed.standing (hstanding : Standing before.memory.cellAt before.dictionary.here words)
    (hlaid : body.Laid (Compiled.resolve words) (openedDraft before.dictionary name) draft)
    (hvalid : body.isValid (Compiled.vocabulary words) 0 = true) (hroom : draft.here + 4 ≤ draft.names) :
    Standing after.memory.cellAt after.dictionary.here (defined before.dictionary name body :: words) := by
  intro other hother
  obtain ⟨inner, hinner, hagrees, hexit, holder⟩ := hcomp.agrees hlaid.grown.sane hlaid.grown.here_le hother
  have halign := aligned_mod before.dictionary.here
  have hstart := hcomp.start_le
  have hlater : aligned before.dictionary.here + 20 ≤ draft.here := hlaid.grown.here_le
  have hend := hlaid.grown.sane.names_le
  have hhere := hcomp.here_eq
  obtain ⟨hreaches, hserves⟩ := hstanding inner holder
  obtain ⟨hcode, hreturn⟩ := hcomp.codeAt hlaid hvalid hroom hagrees hexit hreaches
  refine ⟨fun callee token hresolve => ?_, fun fuel => (serves_cons (hserves fuel) hvalid hcode hreturn).congr hinner⟩
  rw [Compiled.resolve, List.find?_cons] at hresolve
  split at hresolve
  · cases hresolve
    have hcell := hcomp.idle.lexicon.cellAt_eq List.mem_cons_self
    have haddr : (headedEntry entries before.dictionary name smudged .colon).revealed.xt =
        aligned before.dictionary.here + 16 := rfl
    rw [haddr] at hcell
    refine ⟨?_, ?_, ?_⟩
    · change (aligned before.dictionary.here + 16) % 4 = 0
      omega
    · change aligned before.dictionary.here + 16 + 4 ≤ dictionaryEnd
      omega
    · exact (hother _ (show _ ≤ aligned before.dictionary.here + 16 by omega) (by omega) (by omega)).trans hcell
  · obtain ⟨htoken, hins, hcolon⟩ := hreaches callee token hresolve
    exact ⟨htoken, hins, (hinner token htoken).trans hcolon⟩

end

theorem Knows.completed (hknows : Knows words entries before)
    (hdefn : Definition (Compiled.vocabulary words) name body lines)
    (hlaid : body.Laid (Compiled.resolve words) (openedDraft before.dictionary name) draft)
    (hcomp : Completed entries name draft before after) (hroom : draft.here + 4 ≤ draft.names) :
    Knows (defined before.dictionary name body :: words)
      ((headedEntry entries before.dictionary name smudged .colon).revealed :: entries) after := by
  refine ⟨hcomp.idle, hcomp.undisturbed.base_eq.trans hknows.base_eq,
    hcomp.undisturbed.exiting_eq.trans hknows.exiting_eq, ?_,
    hcomp.standing hknows.standing hlaid hdefn.isValid hroom⟩
  have hflags : (headedEntry entries before.dictionary name smudged .colon).revealed.flags = 0 := by
    change smudged &&& ~~~smudged = 0
    decide
  exact @Equipped.cons _ _ (headedEntry entries before.dictionary name smudged .colon).revealed body
    hknows.equipped hdefn.isNew hflags

end Laying

/-! ### Sessions that define words -/

/-- The machine was started, and the words of the vocabulary were then defined one after the other. -/
inductive Defined : Vocabulary → Machine → Prop where
  | start {fuel : Nat} {withPrelude verbose : Bool} {disk : Disk} {m : Machine}
      (hstart : Session.start fuel withPrelude (Machine.new disk verbose) = .ok () m) : Defined [] m
  | define {vocabulary : Vocabulary} {name : String} {body : Prog} {lines : List String} {fuel : Nat}
      {before after : Machine} (hbefore : Defined vocabulary before)
      (hdefn : Definition vocabulary name body lines)
      (hrun : lines.forM (Session.interpretLine fuel) before = .ok () after) : Defined ((name, body) :: vocabulary) after

theorem Defined.knows {vocabulary : Vocabulary} {m : Machine} (hdefined : Defined vocabulary m) :
    ∃ words entries, vocabulary = Compiled.vocabulary words ∧ Knows words entries m := by
  induction hdefined with
  | start hstart =>
    obtain ⟨extras, hfresh, hextras⟩ := Session.fresh_of_start hstart
    refine ⟨[], extras ++ builtin.1, rfl, hfresh.idle, hfresh.base_eq, hfresh.exiting_eq, equipped_of_start hextras, ?_⟩
    exact fun other _ => ⟨(fun _ _ hresolve => by cases hresolve), fun _ _ _ hresolve => by cases hresolve⟩
  | define _ hdefn hrun ih =>
    obtain ⟨words, entries, rfl, hknows⟩ := ih
    obtain ⟨⟨hhdr, draft, hdraft, hroom⟩, other, hother, hcomp⟩ := (hknows.settles hdefn).of_ok hrun
    cases hdraft.symm.trans hother
    have hlaid := hknows.idle.does_lay hhdr hdefn.isValid
    rw [← run_map, hdraft] at hlaid
    exact ⟨_, _, rfl, hknows.completed hdefn hlaid hcomp hroom⟩

/-- The machine has the same dictionary, and it interprets. Its stacks and its buffers may hold anything. -/
structure Shares (m other : Machine) : Prop where
  bounded : other.Bounded
  dictionary_eq : other.dictionary = m.dictionary
  memory : Memory.SameOutside (fun address => ¬ dictionaryRegion.Holds address) m.memory other.memory
  resting : ¬ other.Compiling

variable {entries : List Header} {words : List Compiled}

/-- Where a word is known its execution realizes what it means. -/
theorem Knows.realizes {m other : Machine} {name : String}
    {items : Items} {returns : List Cell} (hknows : Knows words entries m) (hshares : Shares m other)
    (hknown : (Compiled.vocabulary words).knows name = true) (hitems : other.data.Carries other.memory items)
    (hret : other.returns.Carries other.memory returns) (fuel : Nat) :
    Realizes other returns (fun fuel => interpretToken (serve fuel) name other) fuel
      (EvalM.outcome ((Compiled.vocabulary words).eval fuel name) items) := by
  have hdict := hknows.idle.bounded.dictionary
  have hlex : Lexicon entries other := by
    refine hknows.idle.lexicon.transfer hshares.dictionary_eq hshares.memory (fun addr hout => ?_) hdict.here_le
    rw [hdict.start_eq]
    change ¬ (dictionaryStart ≤ addr ∧ addr < dictionaryEnd) at hout
    change addr < dictionaryStart ∨ _
    omega
  have hpr : Primed other.memory.cellAt := by
    intro prim
    obtain ⟨entry, hlook, henters⟩ := hknows.equipped.prims ((sameName_iff prim.name prim.name).2 rfl)
    rw [← henters.token_eq, ← henters.code_eq]
    exact hlex.cellAt_eq (mem_of_lookup hlook)
  have hcells (addr : Nat) (hlow : dictionaryStart ≤ addr)
      (hhigh : addr + 4 ≤ m.dictionary.here) (_ : addr % 4 = 0) :
      other.memory.cellAt addr = m.memory.cellAt addr := by
    have hhere := hdict.here_le
    have hnames := hdict.names_le
    refine hshares.memory.cellAt fun byte hfst hlast hout => hout ⟨Nat.le_trans hlow hfst, ?_⟩
    exact Nat.lt_of_lt_of_le hlast (Nat.le_trans hhigh (Nat.le_trans hhere hnames))
  rw [knows_eq, Option.isSome_iff_exists] at hknown
  obtain ⟨token, hresolve⟩ := hknown
  obtain ⟨entry, hlook, hxt, hflags⟩ := hknows.equipped.calls hresolve
  obtain ⟨hreaches, hserves⟩ := hknows.standing _ hcells
  have hfol : Follows other ⟨other.ip, items, returns⟩ other :=
    ⟨hshares.bounded, rfl, .refl _ _, hitems, hret⟩
  have hrun (fuel : Nat) : interpretToken (serve fuel) name other =
      serve fuel (.execute token) other := by
    have hfind := hlex.findHeader?_eq name
    have honly : entry.isCompileOnly = false := by
      rw [isCompileOnly, hflags]
      decide
    rw [hlook] at hfind
    rw [interpretToken_of_interpreted hshares.bounded hshares.resting hfind honly, hxt]
  simp only [hrun]
  exact (hserves fuel name token hresolve 0 items returns (Nat.zero_le _)).realizes hpr hfol
    (hreaches name token hresolve)

theorem Vocabulary.outcome_newest (vocabulary : Vocabulary) (name : String) (body : Prog) (fuel : Nat) (items : Items) :
    EvalM.outcome (Vocabulary.eval fuel ((name, body) :: vocabulary) name) items =
      EvalM.outcome (body.eval (vocabulary.eval fuel) fuel []) items := by
  rw [Vocabulary.eval, if_pos ((sameName_iff name name).2 rfl)]
  exact EvalM.outcome_ignore _ items

/-- A definition that fits is accepted, and leaves its code. -/
theorem Knows.defines {before : Machine} {name : String} {body : Prog}
    {lines : List String} (hknows : Knows words entries before)
    (hdefn : Definition (Compiled.vocabulary words) name body lines) (hfits : body.Fits name before.dictionary) :
    ∃ after, Ends (fun fuel => lines.forM (Session.interpretLine fuel) before) (.ok () after) ∧
      Knows (defined before.dictionary name body :: words)
        ((headedEntry entries before.dictionary name smudged .colon).revealed :: entries) after := by
  have hlaid := hknows.idle.does_lay hfits.header hdefn.isValid
  rw [← run_map] at hlaid
  cases hdraft : run (body.pieces.map (Piece.draft (Compiled.resolve words)))
      (openedDraft before.dictionary name) with
  | none =>
    rw [hdraft] at hlaid
    exact (hlaid hfits).elim
  | some draft =>
    rw [hdraft] at hlaid
    have hlaid : body.Laid (Compiled.resolve words) (openedDraft before.dictionary name) draft := hlaid
    have hroom : draft.here + 4 ≤ draft.names := by
      rw [hlaid.here_eq, hlaid.grown.names_eq]
      exact hfits.code
    obtain ⟨bound, hbound⟩ := hknows.settles hdefn
    have hsettles : Settles lines before fun ended => ∃ after, ended = .ok () after ∧
        Completed entries name draft before after := by
      refine ⟨bound, fun fuel hfuel => ?_⟩
      have hends := hbound fuel hfuel
      generalize lines.forM (Session.interpretLine fuel) before = ended at hends
      cases ended with
      | error halt after => exact (hends ⟨hfits.header, draft, hdraft, hroom⟩).elim
      | ok answer after =>
        obtain ⟨_, other, hother, hcomp⟩ := hends
        cases hdraft.symm.trans hother
        exact ⟨after, rfl, hcomp⟩
    obtain ⟨after, hcomp, hends⟩ := hsettles.exists_ok
    exact ⟨after, hends, hknows.completed hdefn hlaid hcomp hroom⟩

/-- Words of structured programs are compiled correctly. After any words of this kind, a definition for which there is
room is accepted and leaves no structure open. And then, from any data stack, executing the new word ends whenever the
program does, and the other way around, with the same items or in the same fault. -/
theorem compiled_words_refine_programs {vocabulary : Vocabulary} {name : String} {body : Prog} {lines : List String}
    {before : Machine} (hdefined : Defined vocabulary before) (hdefinition : Definition vocabulary name body lines)
    (hfits : body.Fits name before.dictionary) :
    ∃ after, Ends (fun fuel => lines.forM (Session.interpretLine fuel) before) (.ok () after) ∧
      after.control.depth = 0 ∧
      ∀ machine items returns, Shares after machine → machine.data.Carries machine.memory items →
        machine.returns.Carries machine.memory returns →
          Refines machine returns (fun fuel => Interpreter.interpretToken (Interpreter.serve fuel) name machine)
            fun fuel => EvalM.outcome (body.eval (vocabulary.eval fuel) fuel []) items := by
  obtain ⟨words, entries, rfl, hknows⟩ := hdefined.knows
  obtain ⟨after, hends, hafter⟩ := hknows.defines hdefinition hfits
  refine ⟨after, hends, ?_, fun machine items returns hshares hitems hreturns => ?_⟩
  · have hclosed := hafter.idle.closed
    rw [Stack.depth]
    omega
  refine refines_of_realizes (fun fuel => ?_) fun {fuel more} hfuel => ?_
  · have hknown : (Compiled.vocabulary (Compiled.defined before.dictionary name body :: words)).knows name = true := by
      rw [Compiled.vocabulary, List.map_cons, Vocabulary.knows, List.any_cons, Bool.or_eq_true]
      exact .inl ((sameName_iff name name).2 rfl)
    have hrealizes := hafter.realizes hshares hknown hitems hreturns fuel
    rw [← Vocabulary.outcome_newest _ name]
    exact hrealizes
  · have := fun request => Interpreter.extends_serve hfuel request
    exact (Interpreter.extends_interpretToken (Interpreter.serve fuel) (Interpreter.serve more) name).extends_ machine

/-- A counted loop that leaves its indices. -/
theorem compiled_words_refine_programs_loop : ∃ before after : Machine,
    Ends (fun fuel => [": w do i loop ;"].forM (Session.interpretLine fuel) before) (.ok () after) ∧
      ∀ machine returns, Shares after machine → machine.data.Carries machine.memory [0, 3] →
        machine.returns.Carries machine.memory returns →
          (∃ ended, Ends (fun fuel => Interpreter.interpretToken (Interpreter.serve fuel) "w" machine)
            (.error (.fault (.stackOverflow .return)) ended)) ∨
          ∃ ended, Ends (fun fuel => Interpreter.interpretToken (Interpreter.serve fuel) "w" machine) (.ok () ended) ∧
            Follows machine ⟨machine.ip, [2, 1, 0], returns⟩ ended := by
  obtain ⟨before, hstart, hholds⟩ := Session.start_eq .empty false
  have htext : DefinitionText "w" ["do", "i", "loop"] [": w do i loop ;"] := by
    refine ⟨?_, ⟨_, [], ["do", "i", "loop", ";"].map Utf8.encode, rfl, by decide⟩, by decide⟩
    intro line hline
    rw [List.mem_singleton.1 hline]
    decide
  have hspells : List.Forall₂ (Spells []) ["do", "i", "loop"] (Prog.counted false false (.index false)).pieces :=
    .cons (.word (by decide)) (.cons (.word (by decide)) (.cons (.word (by decide)) .nil))
  have hdefinition : Definition [] "w" (.counted false false (.index false)) [": w do i loop ;"] :=
    ⟨⟨_, htext, hspells⟩, rfl, Prim.sameName_w⟩
  obtain ⟨hheader, hroom⟩ := @builtin_room "w" (by decide)
  rw [← hholds.dictionary_eq] at hheader hroom
  have hfits : (Prog.counted false false (.index false)).Fits "w" before.dictionary := by
    refine ⟨hheader, ?_, by decide⟩
    change (headed before.dictionary "w").here + 8 + 4 + 8 + 4 ≤ _
    omega
  obtain ⟨after, hends, _, hrefines⟩ :=
    compiled_words_refine_programs (.start (hstart 0)) hdefinition hfits
  refine ⟨before, after, hends, fun machine returns hshares hitems hreturns => ?_⟩
  refine (hrefines machine [0, 3] returns hshares hitems hreturns).imp_right fun ⟨hforward, _⟩ => ?_
  obtain ⟨result, hresult, hmatches⟩ := hforward 4 (.ok [2, 1, 0]) (by decide)
  cases result with
  | ok answer ended => exact ⟨ended, hresult, hmatches⟩
  | error halt ended => exact (hmatches : False).elim

end ThreadedForth
