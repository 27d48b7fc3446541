
import ThreadedForth.Proofs.Session.Start

/-!
# Words with a cell of their own

`CONSTANT` and `VARIABLE` lay down a header and then the cell behind it. Each of the two has its own check that code and
names do not meet: a header leaves at least one byte between them, and the cell takes four. Where less than a cell is
left, the word fails after its header has come into sight.
-/

namespace ThreadedForth

open WordM Dictionary Header

/-- There is room for the header, but not for the cell behind it. -/
def Strands (name : String) (dictionary : Dictionary) : Prop :=
  HeaderRoom name dictionary ∧ (headed dictionary name).names < (headed dictionary name).here + 4

/-- The word makes a header and lays down a cell behind it. -/
def DefiningWord.Reserves (word : DefiningWord) : Prop := word = .newConstant ∨ word = .newVariable

/-- The newest entry has a cell behind its header, inside the code and below all names. -/
structure Reserved (entry : Header) (entries : List Header) (m : Machine) : Prop where
  lexicon : Lexicon (entry :: entries) m
  start_le : Layout.dictionaryStart ≤ body entry.xt
  below : body entry.xt + 4 ≤ m.dictionary.here
  apart : ∀ other ∈ entry :: entries, ∃ nameAddress, HoldsEntry m.memory nameAddress other ∧
    body entry.xt + 4 ≤ nameAddress

/-- What the two words have in common: a header, and a cell. -/
def reserve (code : Code) (value : Cell) : WordM Unit := do
  discard (DefiningWord.define 0 code)
  comma value

section Reserving

variable {entries : List Header} {entry : Header} {m : Machine} {name : String} {rest : List (List UInt8)}

theorem Lexicon.lookup_newest_ne (hlex : Lexicon (entry :: entries) m) (hvisible : entry.isVisible = true) :
    lookup (entry :: entries) entry.name ≠ lookup entries entry.name := by
  rw [lookup_cons_of_name hvisible (beq_self_eq_true _)]
  intro hsame
  have holder := List.rel_of_pairwise_cons hlex.descending (mem_of_lookup hsame.symm)
  rw [size] at holder
  omega

/-- There is no room for the header, or the header comes without its cell, or both are laid down. -/
theorem reserve_cases (code : Code) (value : Cell) (hb : m.Bounded) (hlex : Lexicon entries m)
    (hleg : m.Legible) (hwords : Text.words m.unread = Utf8.encode name :: rest) :
    (¬ HeaderRoom name m.dictionary ∧ ∃ fault after,
      reserve code value m = .error fault after ∧ Lexicon entries after) ∨
    (Strands name m.dictionary ∧ ∃ after, reserve code value m = .error .dictionaryOverflow after ∧
      Lexicon (headedEntry entries m.dictionary name 0 code :: entries) after) ∨
    HeaderRoom name m.dictionary ∧ ¬ Strands name m.dictionary ∧ ∃ after,
      reserve code value m = .ok () after ∧
        Reserved (headedEntry entries m.dictionary name 0 code) entries after := by
  obtain ⟨toIn, hname⟩ : ∃ toIn, requireName m = .ok name (m.readTo toIn) :=
    ⟨_, requireName_eq hleg hwords⟩
  have hempty := isEmpty_of_words hwords
  by_cases hhdr : HeaderRoom name m.dictionary
  swap
  · obtain ⟨fault, after, hdefine, hafter⟩ := define_fails 0 code hb hlex hname hempty hhdr
    exact .inl ⟨hhdr, fault, after, bind_of_error (discard_of_error hdefine), hafter⟩
  obtain ⟨token, entered, hdefine, hent, hentry, hdict⟩ : ∃ token entered,
      DefiningWord.define 0 code m = .ok token entered ∧ entered.Bounded ∧
        Lexicon (headedEntry entries m.dictionary name 0 code :: entries) entered ∧
        entered.dictionary = headed m.dictionary name := by
    obtain ⟨hread, reports, hdefine⟩ := define_of_name hb hlex hname
    have hready : Machine.Bounded { m.readTo toIn with reports } :=
      { hb.withMemory (Memory.size_setCell m.memory Layout.toIn _) with }
    obtain ⟨memory, hcreate, hentry, -⟩ :=
      @create_eq entries { m.readTo toIn with reports } name 0 code hready hread hempty hhdr
    exact ⟨_, _, (hdefine 0 code).trans hcreate, Keeps.of_ok hready hcreate, hentry, rfl⟩
  have hreserve : reserve code value m = comma value entered := bind_of_ok (discard_of_ok hdefine)
  have hhere : entered.dictionary.here = aligned m.dictionary.here + 20 := by rw [hdict]; rfl
  rw [comma_eq hent] at hreserve
  rw [Strands, ← hdict]
  by_cases hfull : entered.dictionary.names < entered.dictionary.here + 4
  · rw [if_pos hfull] at hreserve
    exact .inr (.inl ⟨⟨hhdr, hfull⟩, entered, hreserve, hentry⟩)
  have halign := aligned_mod m.dictionary.here
  rw [if_neg hfull, if_neg (by omega)] at hreserve
  have hroom : entered.dictionary.here + 4 ≤ entered.dictionary.names := Nat.le_of_not_lt hfull
  have hbody : body (headedEntry entries m.dictionary name 0 code).xt = entered.dictionary.here := hhere.symm
  have hlaid : Lexicon (headedEntry entries m.dictionary name 0 code :: entries)
      (entered.laid (Cell.bytes value)) :=
    hentry.append (Nat.le_add_right _ _) hroom (entered.sameOutside_laid _)
  refine .inr (.inr ⟨hhdr, fun hstrands => hfull hstrands.2, _, hreserve, hlaid, ?_, ?_, fun other hother => ?_⟩)
  · have hstart := hent.dictionary.start_le
    rw [hent.dictionary.start_eq] at hstart
    rw [hbody]
    exact hstart
  · rw [hbody]
    exact Nat.le_refl _
  · obtain ⟨nameAddress, hnames, _, hheld⟩ := hlaid.held other hother
    rw [hbody]
    exact ⟨nameAddress, hheld, Nat.le_trans hroom hnames⟩

/-- A word that reserves a cell takes a value for it, if that is not zero, and does what both do. -/
theorem DefiningWord.Reserves.perform_cases {word : DefiningWord} (hword : word.Reserves) (hb : m.Bounded) :
    (∃ code value data, word.perform m = reserve code value { m with data } ∧
      Machine.Bounded { m with data }) ∨
    word = .newConstant ∧ m.data.base ≤ m.data.top ∧
      word.perform m = .error (.stackUnderflow .data) m := by
  rcases hword with rfl | rfl
  · by_cases hitems : m.data.top < m.data.base
    · have hpop : pop m = .ok (m.memory.cellAt m.data.top)
          { m with data := { m.data with top := m.data.top + 4 } } := by
        rw [pop, popping, Stack.pop_of_items hb.data hb.size_eq hitems]
      exact .inl ⟨.pushCell, _, _, bind_of_ok hpop, Keeps.of_ok hb hpop⟩
    · have hempty := Nat.le_of_not_lt hitems
      have hpop : pop m = .error (.stackUnderflow .data) m := by
        rw [pop, popping, Stack.pop_of_empty hb.data _ hempty]
      exact .inr ⟨rfl, hempty, bind_of_error hpop⟩
  · exact .inl ⟨.pushBody, 0, m.data, rfl, hb⟩

/-- A word that makes a header with a cell behind it leaves every name with its meaning if it runs out of room, unless
it did so between the two. If it succeeds, the cell lies inside the code and apart from all names. It succeeds if there
is room for both and a value to be taken. -/
theorem DefiningWord.reserved_unless_stranded {entries : List Header} {machine : Machine} {name : String}
    {rest : List (List UInt8)} {word : DefiningWord} (hword : word.Reserves)
    (hbounded : machine.Bounded) (hlexicon : Lexicon entries machine) (hlegible : machine.Legible)
    (hwords : Text.words machine.unread = Utf8.encode name :: rest) :
    (∀ after, word.perform machine = .error .dictionaryOverflow after →
      ((∀ other, after.findHeader? other = machine.findHeader? other) ↔ ¬ Strands name machine.dictionary)) ∧
    (∀ after, word.perform machine = .ok () after → ∃ entry, entry.name = name ∧ Reserved entry entries after) ∧
    (HeaderRoom name machine.dictionary → ¬ Strands name machine.dictionary →
      (word = .newConstant → machine.data.top < machine.data.base) → ∃ after, word.perform machine = .ok () after) := by
  rcases hword.perform_cases hbounded with ⟨code, value, data, hperform, hready⟩ | ⟨rfl, hempty, hperform⟩
  swap
  · rw [hperform]
    refine ⟨?_, ?_, fun _ _ hvalue => absurd (hvalue rfl) (Nat.not_lt.2 hempty)⟩ <;> rintro _ ⟨⟩
  rw [hperform]
  rcases @reserve_cases entries { machine with data } name rest code value hready hlexicon
    ⟨hlegible.size, hlegible.inside, hlegible.apart⟩ hwords with
    ⟨hroom, fault, failed, hreserve, hafter⟩ | ⟨hstrands, failed, hreserve, hafter⟩ |
      ⟨hroom, hwhole, made, hreserve, hafter⟩
  · rw [hreserve]
    refine ⟨?_, ?_, fun hheader => absurd hheader hroom⟩ <;> rintro _ ⟨⟩
    exact ⟨fun _ hstrands => hroom hstrands.1, fun _ other => by rw [hafter.findHeader?_eq, hlexicon.findHeader?_eq]⟩
  · rw [hreserve]
    refine ⟨?_, ?_, fun _ hwhole => absurd hstrands hwhole⟩ <;> rintro _ ⟨⟩
    refine ⟨fun hsame => ?_, fun hwhole => absurd hstrands hwhole⟩
    have hfound := hsame name
    rw [hafter.findHeader?_eq, hlexicon.findHeader?_eq] at hfound
    have hvisible : Header.lacks 0 (Header.hidden ||| Header.smudged) = true := by decide
    exact absurd (Except.ok.inj hfound) (hafter.lookup_newest_ne hvisible)
  · rw [hreserve]
    refine ⟨?_, ?_, fun _ _ _ => ⟨made, rfl⟩⟩ <;> rintro _ ⟨⟩
    exact ⟨_, rfl, hafter⟩

end Reserving

/-- Three bytes are left behind the header: the variable is found, but has no cell. -/
theorem DefiningWord.reserved_unless_stranded_variable : ∃ entries machine rest after, machine.Bounded ∧
    Lexicon entries machine ∧ machine.Legible ∧ Text.words machine.unread = Utf8.encode "x" :: rest ∧
    Strands "x" machine.dictionary ∧ DefiningWord.newVariable.perform machine = .error .dictionaryOverflow after ∧
    ¬ ∀ other, after.findHeader? other = machine.findHeader? other := by
  obtain ⟨started, -, hholds⟩ := Session.start_eq .empty false
  have hline : (Utf8.encode "x").length ≤ Layout.inputBufferSize := by decide
  have hlaid := hholds.readOn (.withLine started hline)
  have hreading := Interpreter.reading_withLine hholds.fresh.idle.bounded hline
  generalize Interpreter.withLine started (Utf8.encode "x") = machine at hlaid hreading
  obtain ⟨hhere, hnames⟩ := builtin_cursors
  rw [← hlaid.dictionary_eq] at hhere hnames
  have hfits := hlaid.fresh.idle.bounded.dictionary
  have hmoved : machine.dictionary.here ≤ 1045084 ∧ 1045084 ≤ machine.dictionary.names := by
    rw [hhere, hnames]
    decide
  have hbounded : Machine.Bounded { machine with dictionary := { machine.dictionary with here := 1045084 } } :=
    hlaid.fresh.idle.bounded.withDictionary
      ⟨hfits.start_eq, Nat.le_trans hfits.start_le hmoved.1, hmoved.2, hfits.names_le⟩
  have hlexicon : Lexicon builtin.1 { machine with dictionary := { machine.dictionary with here := 1045084 } } :=
    hlaid.fresh.idle.lexicon.append hmoved.1 hmoved.2 (.refl _ _)
  have hstrands : Strands "x" { machine.dictionary with here := 1045084 } := by
    refine ⟨⟨by decide, ?_⟩, ?_⟩
    · change aligned 1045084 + Header.size + ((Utf8.encode "x").length + 1) < machine.dictionary.names
      rw [hnames]
      decide
    · change machine.dictionary.names - ((Utf8.encode "x").length + 1) < aligned 1045084 + Header.size + 4
      rw [hnames]
      decide
  obtain ⟨hsize, hinside, hapart⟩ := hreading.legible hlaid.fresh.idle.bounded
  have hlegible : Machine.Legible { machine with dictionary := { machine.dictionary with here := 1045084 } } :=
    ⟨hsize, hinside, hapart⟩
  have hwords : Text.words machine.unread = [Utf8.encode "x"] := by
    rw [hreading.unread_eq hlaid.fresh.idle.bounded]
    decide
  rcases reserve_cases .pushBody 0 hbounded hlexicon hlegible hwords with
    ⟨hroom, -⟩ | ⟨-, after, hreserve, -⟩ | ⟨-, hwhole, -⟩
  · exact absurd hstrands.1 hroom
  · refine ⟨_, _, _, after, hbounded, hlexicon, hlegible, hwords, hstrands, hreserve, fun hsame => ?_⟩
    exact ((DefiningWord.reserved_unless_stranded (.inr rfl) hbounded hlexicon hlegible hwords).1 after hreserve).1
      hsame hstrands
  · exact absurd hstrands hwhole

end ThreadedForth
