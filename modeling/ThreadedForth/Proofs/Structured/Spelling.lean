
import ThreadedForth.Proofs.Session.Prelude
import ThreadedForth.Proofs.Structured.Execution

/-!
# How programs are spelled

A structured program is written as words: names of primitives in any case, numbers, and names of words that were
defined before. In a dictionary with the primitives, and with those words above them, each of the words that are
written compiles what it stands for.
-/

namespace ThreadedForth

open WordM Dictionary Header

/-- The word spells a piece of a program. Where a number is meant the word must not be the name of anything. -/
inductive Spells (vocabulary : Vocabulary) : String → Piece → Prop where
  | number {token : String} {value : Number} {pointCount : Cell}
      (hprim : ∀ prim : Prim, sameName prim.name token = false)
      (hprelude : ∀ name ∈ preludeNames, sameName name token = false) (hword : vocabulary.knows token = false)
      (hread : Number.read? 10 token = some (value, pointCount)) : Spells vocabulary token (.number value)
  | word {token : String} {prim : Prim} (hname : sameName prim.name token = true) :
      Spells vocabulary token (.word prim)
  | call {token name : String} (hknown : vocabulary.knows name = true) (hname : sameName name token = true) :
      Spells vocabulary token (.call name)

/-! ### Pieces -/

/-- The piece is a control word, or it is compiled. -/
def Piece.Compiles : Piece → Prop
  | .word (.control _) => True
  | .word prim => lacks prim.entry.flags immediate = true
  | _ => True

theorem Prim.lacks_immediate {prim : Prim} (hkind : (match prim with | .stack _ | .cell _ | .double _ => true | _ => false) = true) :
    lacks prim.entry.flags immediate = true := by
  have hall : ∀ prim ∈ Prim.all, (match prim with | .stack _ | .cell _ | .double _ => true | _ => false) = true →
      lacks prim.entry.flags immediate = true := by decide +kernel
  exact hall prim prim.mem_all hkind

theorem DataWord.compiles (word : DataWord) : (Piece.word word.prim).Compiles := by
  cases word <;> exact Prim.lacks_immediate rfl

mutual

theorem Prog.compiles : ∀ (prog : Prog), ∀ piece ∈ prog.pieces, piece.Compiles
  | .skip => by simp [Prog.pieces]
  | .literal value => by simp [Prog.pieces, Piece.Compiles]
  | .data word => by simpa [Prog.pieces] using word.compiles
  | .index outer => by cases outer <;> simp [Prog.pieces, Piece.Compiles] <;> decide
  | .call name => by simp [Prog.pieces, Piece.Compiles]
  | .seq first second => by
    have hfst := first.compiles
    have hsnd := second.compiles
    grind [Prog.pieces]
  | .ifThen body => by
    have hbody := body.compiles
    grind [Prog.pieces, Piece.Compiles]
  | .ifElse body other => by
    have hbody := body.compiles
    have hother := other.compiles
    grind [Prog.pieces, Piece.Compiles]
  | .untilLoop body => by
    have hbody := body.compiles
    grind [Prog.pieces, Piece.Compiles]
  | .againLoop body => by
    have hbody := body.compiles
    grind [Prog.pieces, Piece.Compiles]
  | .whileLoop test body => by
    have htest := test.compiles
    have hbody := body.compiles
    grind [Prog.pieces, Piece.Compiles]
  | .counted maySkip stepped body => by
    have hbody := body.compiles
    grind [Prog.pieces, Piece.Compiles]
  | .leave => by simp [Prog.pieces, Piece.Compiles]
  | .case_ arms => by
    have harms := arms.compiles
    grind [Prog.pieces, Piece.Compiles]

theorem Arms.compiles : ∀ (arms : Arms), ∀ piece ∈ arms.pieces, piece.Compiles
  | .otherwise body => body.compiles
  | .clause test body rest => by
    have htest := test.compiles
    have hbody := body.compiles
    have hrest := rest.compiles
    grind [Arms.pieces, Piece.Compiles]

end

/-! ### What is compiled -/

/-- What a word of a text stands for where the dictionary holds the entries. -/
inductive Resolves (entries : List Header) (base : Except Fault Nat) (words : List Compiled) : String → Piece → Prop where
  | number {token : String} {radix : Nat} {value : Number} {pointCount : Cell} (hlook : lookup entries token = none)
      (hbase : base = .ok radix) (hread : Number.read? radix token = some (value, pointCount)) :
      Resolves entries base words token (.number value)
  | word {token : String} {prim : Prim} {entry : Header} (hlook : lookup entries token = some entry)
      (henters : Enters prim entry) : Resolves entries base words token (.word prim)
  | call {token name : String} {entry : Header} (hlook : lookup entries token = some entry)
      (hresolve : Compiled.resolve words name = some entry.xt) (himm : entry.isImmediate = false) :
      Resolves entries base words token (.call name)

namespace Resolves

variable {entries : List Header} {base : Except Fault Nat} {words : List Compiled} {token : String} {piece : Piece}

/-- A word compiles what it stands for. -/
theorem step (hresolves : Resolves entries base words token piece) (hpiece : piece.Compiles) :
    stepOf? entries base token = some (piece.draft (Compiled.resolve words)) := by
  rw [stepOf?]
  cases hresolves with
  | number hlook hbase hread =>
    rw [hlook, hbase, stepFor?, hread]
    rfl
  | @word prim entry hlook henters =>
    have hcode : Code.ofCell? entry.code = some (.prim prim) := by rw [henters.code_eq, Code.ofCell?_toCell]
    rw [hlook, stepFor?, Header.isImmediate, henters.flags_eq, hcode]
    by_cases hctl : ∃ word, prim = .control word
    · obtain ⟨word, rfl⟩ := hctl
      have himm : ∀ word ∈ ControlWord.all,
          lacks (Prim.control word).entry.flags immediate = false := by decide
      rw [himm word word.mem_all]
      rfl
    · have hcompiled : lacks prim.entry.flags immediate = true := by
        cases prim with
        | control word => exact (hctl ⟨word, rfl⟩).elim
        | _ => exact hpiece
      have htoken : Cell.ofNat entry.xt = Cell.ofNat prim.token := congrArg Cell.ofNat henters.token_eq
      rw [hcompiled, Bool.not_true, if_neg Bool.false_ne_true, htoken]
      cases prim with
      | control word => exact (hctl ⟨word, rfl⟩).elim
      | _ => rfl
  | @call name entry hlook hresolve himm =>
    rw [hlook, stepFor?, himm, if_neg Bool.false_ne_true]
    refine congrArg some (funext fun draft => ?_)
    rw [Piece.draft, hresolve]
    rfl

theorem steps {tokens : List String} {pieces : List Piece} (hpieces : ∀ piece ∈ pieces, piece.Compiles)
    (hresolves : List.Forall₂ (Resolves entries base words) tokens pieces) :
    Steps entries base tokens (pieces.map (Piece.draft (Compiled.resolve words))) := by
  induction hresolves with
  | nil => exact .nil
  | cons hfst _ ih =>
    exact .cons (hfst.step (hpieces _ List.mem_cons_self))
      (ih fun piece hpiece => hpieces piece (List.mem_cons_of_mem _ hpiece))

end Resolves

/-! ### Entries -/

/-- The names of the primitives stand for them, the names of the words for these, and no other name but those of the
prelude stands for anything. -/
structure Equipped (entries : List Header) (words : List Compiled) : Prop where
  prims : ∀ {prim : Prim} {token : String}, sameName prim.name token = true →
    ∃ entry, lookup entries token = some entry ∧ Enters prim entry
  calls : ∀ {name : String} {token : Nat}, Compiled.resolve words name = some token →
    ∃ entry, lookup entries name = some entry ∧ entry.xt = token ∧ entry.flags = 0
  others : ∀ {token : String}, (∀ prim : Prim, sameName prim.name token = false) →
    (∀ name ∈ preludeNames, sameName name token = false) → (Compiled.vocabulary words).knows token = false →
      lookup entries token = none

theorem Compiled.knows_eq (words : List Compiled) (name : String) :
    (vocabulary words).knows name = (resolve words name).isSome := by
  rw [Vocabulary.knows, vocabulary, List.any_map, resolve, Option.isSome_map, Bool.eq_iff_iff, List.any_eq_true,
    List.find?_isSome]
  rfl

theorem equipped_of_start {extras : List Header} (hextras : ∀ extra ∈ extras, extra.name ∈ preludeNames) :
    Equipped (extras ++ builtin.1) [] := by
  have happend (token : String) (hnone : ∀ name ∈ preludeNames, sameName name token = false) :
      lookup (extras ++ builtin.1) token = lookup builtin.1 token := by
    have hmissing : lookup extras token = none := by
      refine List.find?_eq_none.2 fun extra hextra hfound => ?_
      rw [hnone extra.name (hextras extra hextra), Bool.and_false] at hfound
      exact Bool.false_ne_true hfound
    rw [lookup] at hmissing
    rw [lookup, List.find?_append, hmissing, Option.none_or, lookup]
  refine ⟨fun {prim token} hname => ?_, (fun hresolve => by cases hresolve), fun {token} hprims hprelude _ => ?_⟩
  · rw [happend token fun name hmem => sameName_of_mem_preludeNames hmem hname]
    exact lookup_builtin hname
  · rw [happend token hprelude]
    exact lookup_builtin_none hprims

namespace Equipped

variable {entries : List Header} {words : List Compiled}

theorem cons {entry : Header} {body : Prog} (hequipped : Equipped entries words)
    (hname : ∀ prim : Prim, sameName prim.name entry.name = false) (hflags : entry.flags = 0) :
    Equipped (entry :: entries) (⟨entry.name, body, entry.xt⟩ :: words) := by
  have hvisible : entry.isVisible = true := by
    rw [Header.isVisible, hflags]
    decide
  refine ⟨fun {prim token} hprim => ?_, fun {name token} hresolve => ?_, fun {token} hprims hprelude hknows => ?_⟩
  · have hother : sameName entry.name token = false := by
      rw [sameName_comm, ← sameName_congr hprim]
      exact hname prim
    rw [lookup_cons_of_other hother]
    exact hequipped.prims hprim
  · rw [Compiled.resolve, List.find?_cons] at hresolve
    cases hsame : sameName entry.name name with
    | true =>
      rw [hsame] at hresolve
      cases hresolve
      exact ⟨entry, lookup_cons_of_name hvisible hsame, rfl, hflags⟩
    | false =>
      rw [hsame] at hresolve
      rw [lookup_cons_of_other hsame]
      exact hequipped.calls hresolve
  · rw [Compiled.vocabulary, List.map_cons, Vocabulary.knows, List.any_cons, Bool.or_eq_false_iff] at hknows
    rw [lookup_cons_of_other hknows.1]
    exact hequipped.others hprims hprelude hknows.2

theorem resolves {token : String} {piece : Piece} (hequipped : Equipped entries words)
    (hspells : Spells (Compiled.vocabulary words) token piece) : Resolves entries (.ok 10) words token piece := by
  cases hspells with
  | number hprim hprelude hword hread => exact .number (hequipped.others hprim hprelude hword) rfl hread
  | word hname =>
    obtain ⟨entry, hlook, henters⟩ := hequipped.prims hname
    exact .word hlook henters
  | @call name hknown hname =>
    rw [Compiled.knows_eq, Option.isSome_iff_exists] at hknown
    obtain ⟨xt, hresolve⟩ := hknown
    obtain ⟨entry, hlook, hxt, hflags⟩ := hequipped.calls hresolve
    rw [lookup_congr hname] at hlook
    exact .call hlook (hxt ▸ hresolve) (by rw [Header.isImmediate, hflags]; decide)

theorem steps {tokens : List String} {prog : Prog} (hequipped : Equipped entries words)
    (hspells : List.Forall₂ (Spells (Compiled.vocabulary words)) tokens prog.pieces) :
    Steps entries (.ok 10) tokens (prog.pieces.map (Piece.draft (Compiled.resolve words))) :=
  Resolves.steps prog.compiles (hspells.imp fun _ _ => hequipped.resolves)

end Equipped

end ThreadedForth
